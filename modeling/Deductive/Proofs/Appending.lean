import Deductive.Proofs.Lexing
import Deductive.Proofs.Registry
import Deductive.Proofs.Stating

/-!
Declaration files only add. A statement that fails leaves what is declared as it was, one that is
read adds to the end of one list or characters to the delimiters, and what a text declares stands in
front of what is declared after it.
-/
namespace Deductive

section Lexing

variable {c : Char} {cs : List Char} {piece : Piece}

/-- Only a gap ends in a line break. -/
theorem piece?_of_getLast? (h : piece? c cs = some piece) (hlast : piece.chars.getLast? = some '\n') :
    piece.token = none ∧ ∀ c ∈ piece.chars, isGapChar c = true := by
  have hmem := List.mem_of_getLast? hlast
  have hwhile {test : Char → Bool} (hc : c ≠ '\n') (htest : test '\n' = false) :
      '\n' ∉ c :: cs.takeWhile test := by
    refine fun hmem => (List.mem_cons.mp hmem).elim hc.symm fun hmem => ?_
    have := List.all_eq_true.mp (List.all_takeWhile (p := test) (l := cs)) '\n' hmem
    exact absurd (htest.symm.trans this) nofun
  unfold piece? at h
  split at h
  · rename_i hgap
    cases h
    exact ⟨rfl, List.forall_mem_cons.mpr ⟨hgap, List.all_eq_true.mp List.all_takeWhile⟩⟩
  rename_i hgap
  have hc : c ≠ '\n' := by
    rintro rfl
    exact hgap rfl
  split at h
  · cases h
    exact absurd hmem (hwhile hc (by decide))
  split at h
  · dsimp only at h
    split at h
    · cases h
      rw [List.getLast?_concat] at hlast
      cases hlast
    · cases h
  split at h
  · cases h
    exact absurd hmem (hwhile hc (by decide))
  split at h
  · cases h
    exact absurd hmem (hwhile hc (by decide))
  split at h
  · cases h
    exact absurd (List.mem_singleton.mp hmem).symm hc
  · cases h

/-- A piece that ends before the text does is the same with more text. -/
theorem piece?_append (h : piece? c cs = some piece) (hlength : piece.chars.length ≤ cs.length)
    (more : List Char) : piece? c (cs ++ more) = some piece := by
  have hhead : (cs ++ more).head? = cs.head? := by
    obtain ⟨d, ds, rfl⟩ := List.exists_cons_of_length_pos (Nat.lt_of_lt_of_le (piece?_pos h) hlength)
    rfl
  have hwhile {test : Char → Bool} (htest : (cs.takeWhile test).length < cs.length) :
      (cs ++ more).takeWhile test = cs.takeWhile test := by
    rw [List.takeWhile_append, if_neg (Nat.ne_of_lt htest)]
  unfold piece? at h ⊢
  rw [hhead]
  split at h
  · cases h
    rw [if_pos ‹_›, hwhile hlength]
  rw [if_neg ‹_›]
  split at h
  · cases h
    rw [if_pos ‹_›, hwhile hlength]
  rw [if_neg ‹_›]
  split at h
  · dsimp only at h ⊢
    split at h
    · rename_i hinner
      rw [if_pos ‹_›, hwhile hinner, if_pos (by rw [List.length_append]; omega)]
      exact h
    · cases h
  rw [if_neg ‹_›]
  split at h
  · cases h
    rw [if_pos ‹_›]
    dsimp only
    rw [hwhile hlength]
  rw [if_neg ‹_›]
  split at h
  · cases h
    rw [if_pos ‹_›]
    dsimp only
    rw [hwhile hlength]
  rw [if_neg ‹_›]
  exact h

theorem piece?_gap (hc : isGapChar c = true) :
    piece? c cs = some ⟨none, c :: cs.takeWhile isGapChar⟩ := by
  rw [piece?, if_pos hc]

theorem map_nil_append {r : Except ParseError (List Token × Position)} :
    (r.map fun r => ([] ++ r.1, r.2)) = r := by
  cases r <;> rfl

/-- White space goes on in more white space. -/
theorem lex_gap {gap : List Char} (hgap : ∀ c ∈ gap, isGapChar c = true) (p : Position)
    (more : List Char) : lex p (gap ++ more) = lex (p.advance gap) more := by
  cases gap with
  | nil => rfl
  | cons c gap =>
    obtain ⟨hc, hall⟩ := List.forall_mem_cons.mp hgap
    have hcons (p : Position) {c : Char} (hc : isGapChar c = true) (cs : List Char) :
        lex p (c :: cs) =
          lex (p.advance (c :: cs.takeWhile isGapChar)) (cs.dropWhile isGapChar) := by
      have hdrop : cs.drop (cs.takeWhile isGapChar).length = cs.dropWhile isGapChar :=
        (congrArg (List.drop _) List.takeWhile_append_dropWhile.symm).trans List.drop_left
      rw [lex_cons (piece?_gap hc), List.length_cons, List.drop_succ_cons, hdrop]
      exact map_nil_append
    rw [List.cons_append, hcons p hc, List.takeWhile_append_of_pos hall,
      List.dropWhile_append_of_pos hall, ← List.cons_append, Position.advance_append]
    cases more with
    | nil => rfl
    | cons d more =>
      by_cases hd : isGapChar d = true
      · rw [List.takeWhile_cons_of_pos hd, List.dropWhile_cons_of_pos hd, hcons _ hd]
      · rw [List.takeWhile_cons_of_neg hd, List.dropWhile_cons_of_neg hd]
        rfl

/-- No token goes over a line break that is not in a math string. -/
theorem lex_append {p stop : Position} {ts : List Token} (h : lex p cs = .ok (ts, stop))
    (hlast : ∀ c ∈ cs.getLast?, c = '\n') (more : List Char) :
    lex p (cs ++ more) = (lex stop more).map fun r => (ts ++ r.1, r.2) := by
  induction hn : cs.length using Nat.strongRecOn generalizing p cs ts with
  | ind n ih =>
    cases cs with
    | nil =>
      rw [lex] at h
      cases h
      exact map_nil_append.symm
    | cons c cs =>
      cases hpiece : piece? c cs with
      | none =>
        rw [lex] at h
        split at h
        · cases h
        · rename_i hsome
          cases hpiece.symm.trans hsome
      | some piece =>
        obtain ⟨rest, hparts⟩ := piece?_chars hpiece
        rw [lex_cons hpiece, hparts, List.drop_left] at h
        cases hrest : lex (p.advance piece.chars) rest with
        | error e =>
          rw [hrest] at h
          cases h
        | ok r =>
          rw [hrest] at h
          cases h
          cases rest with
          | nil =>
            rw [List.append_nil] at hparts
            have hd := List.getLast?_eq_some_getLast (List.cons_ne_nil c cs)
            rw [hlast _ hd, hparts] at hd
            obtain ⟨htoken, hgap⟩ := piece?_of_getLast? hpiece hd
            rw [lex] at hrest
            cases hrest
            rw [hparts, lex_gap hgap, htoken]
            exact map_nil_append.symm
          | cons d rest =>
            have hlength := congrArg List.length hparts
            simp only [List.length_cons, List.length_append] at hlength hn
            have hpos := piece?_pos hpiece
            have hlast' : ∀ c ∈ (d :: rest).getLast?, c = '\n' := by
              intro c hc
              refine hlast c ?_
              rw [hparts, List.getLast?_append, Option.mem_def.mp hc, Option.some_or]
              rfl
            have hih := ih _ (by simp only [List.length_cons]; omega) hrest hlast' rfl
            rw [List.cons_append, lex_cons (piece?_append hpiece (by omega) more),
              ← List.cons_append, hparts, List.append_assoc, List.drop_left, hih]
            cases lex r.2 more with
            | error e => rfl
            | ok r' => exact congrArg (fun ts => Except.ok (ts, _)) (List.append_assoc ..).symm

theorem tokenize_append {text more : String} {s s' : TokenStream} (h : tokenize text = .ok s)
    (hlast : text.toList.getLast? = some '\n') (h' : tokenize (text ++ more) = .ok s') :
    ∃ ts, s'.pending = s.pending ++ ts := by
  obtain ⟨⟨ts, stop⟩, hlex, rfl⟩ := map_eq_ok_iff.mp h
  obtain ⟨⟨ts', stop'⟩, hlex', rfl⟩ := map_eq_ok_iff.mp h'
  have hend : ∀ c ∈ text.toList.getLast?, c = '\n' := fun c hc =>
    Option.some.inj (hc.symm.trans hlast)
  rw [String.toList_append, lex_append hlex hend] at hlex'
  obtain ⟨⟨ts₁, _⟩, _, heq⟩ := map_eq_ok_iff.mp hlex'
  exact ⟨ts₁, (congrArg Prod.fst heq).symm⟩

end Lexing

namespace Draft

/-- What a declaration adds: an entry at the end of one list, under a name that is new there, or the
characters of its delimiters. -/
inductive Adds (d : Draft) : Declaration → Draft → Prop
  | sort {decl : SortDecl} {sorts : Registry Name SortDecl}
      (fresh : (decl.name : Name) ∉ d.signature.sorts.keys)
      (entries : sorts.entries = d.signature.sorts.entries ++ [(decl.name, decl)]) :
      d.Adds (.sort decl) { d with signature := { d.signature with sorts } }
  | term {decl : TermDecl} {terms : Registry Name TermDecl}
      (fresh : decl.name ∉ d.signature.terms.keys)
      (entries : terms.entries = d.signature.terms.entries ++ [(decl.name, decl)]) :
      d.Adds (.term decl) { d with signature := { d.signature with terms } }
  | notated {n : Notation} {notations : Registry Name Notation}
      (fresh : n.token ∉ d.signature.notations.keys)
      (entries : notations.entries = d.signature.notations.entries ++ [(n.token, n)]) :
      d.Adds (.notated n) { d with signature := { d.signature with notations } }
  | assertion {a : Assertion} :
      d.Adds (.assertion a) { d with assertions := d.assertions ++ [a] }
  | delimiters {more : Delimiters} {left right : StringSet}
      (characters : ∀ s, s ∈ more.left ∨ s ∈ more.right → ∃ c, s = String.singleton c)
      (addsLeft : ∀ s, s ∈ left ↔ s ∈ d.signature.delimiters.left ∨ s ∈ more.left)
      (addsRight : ∀ s, s ∈ right ↔ s ∈ d.signature.delimiters.right ∨ s ∈ more.right) :
      d.Adds (.delimiters more) { d with signature := { d.signature with
        delimiters := { d.signature.delimiters with left, right } } }

theorem add_adds {d : Draft} {declaration : Declaration} (h : declaration.IsNew d.signature) :
    d.Adds declaration (d.add declaration) := by
  cases declaration with
  | sort decl =>
    have hfresh := Registry.contains_eq_false_iff.mp h
    exact .sort hfresh (Registry.entries_insert hfresh)
  | term decl =>
    have hfresh := Registry.contains_eq_false_iff.mp h
    exact .term hfresh (Registry.entries_insert hfresh)
  | notated n =>
    have hfresh := Registry.contains_eq_false_iff.mp h
    exact .notated hfresh (Registry.entries_insert hfresh)
  | assertion a => exact .assertion
  | delimiters more =>
    obtain ⟨_, hcharacters⟩ := h
    refine .delimiters (fun s hs => ?_) (fun _ => StringSet.mem_union) fun _ => StringSet.mem_union
    obtain ⟨c, hc, _⟩ := hcharacters s hs
    exact ⟨c, hc⟩

/-- What has been declared first is in its place in all lists of what is declared later. -/
structure Precedes (d d' : Draft) : Prop where
  sorts : d.signature.sorts.entries <+: d'.signature.sorts.entries
  terms : d.signature.terms.entries <+: d'.signature.terms.entries
  notations : d.signature.notations.entries <+: d'.signature.notations.entries
  assertions : d.assertions <+: d'.assertions

theorem Precedes.refl (d : Draft) : d.Precedes d :=
  ⟨List.prefix_rfl, List.prefix_rfl, List.prefix_rfl, List.prefix_rfl⟩

theorem Precedes.trans {d d' d'' : Draft} (h : d.Precedes d') (h' : d'.Precedes d'') :
    d.Precedes d'' :=
  ⟨h.sorts.trans h'.sorts, h.terms.trans h'.terms, h.notations.trans h'.notations,
    h.assertions.trans h'.assertions⟩

theorem Adds.precedes {d d' : Draft} {declaration : Declaration} (h : d.Adds declaration d') :
    d.Precedes d' := by
  cases h with
  | sort _ entries => exact { Precedes.refl d with sorts := entries ▸ List.prefix_append .. }
  | term _ entries => exact { Precedes.refl d with terms := entries ▸ List.prefix_append .. }
  | notated _ entries =>
    exact { Precedes.refl d with notations := entries ▸ List.prefix_append .. }
  | assertion => exact { Precedes.refl d with assertions := List.prefix_append .. }
  | delimiters => exact { Precedes.refl d with }

end Draft

/-- The shortest statement has a keyword, a string of delimiters and a semicolon. -/
theorem Declaration.IsStatedBy.two_le_length {d : Declaration} {used : List Token}
    (h : d.IsStatedBy used) : 2 ≤ used.length := by
  cases h with
  | sort => simp
  | term => simp
  | assertion => simp
  | notated stated =>
    cases stated with
    | statement => simp
  | delimiters => simp
  | sidedDelimiters => simp

namespace TheoryParser

/-- One statement, its tokens, and what comes of it when there are more tokens. -/
theorem statement_eq_ok {p p' : TheoryParser} {declaration : Declaration}
    (h : statement p = .ok declaration p') :
    p.draft.Adds declaration p'.draft ∧ (∃ used semicolon,
      p.tokens.pending = used ++ semicolon :: p'.tokens.pending ∧ 1 ≤ used.length ∧
        semicolon.isMark ";" = true ∧ p'.tokens.stop = p.tokens.stop ∧
          declaration.IsStatedBy (used ++ [semicolon])) ∧
      ∀ more stop, statement ⟨p.draft, ⟨p.tokens.pending ++ more, stop⟩⟩ =
        .ok declaration ⟨p'.draft, ⟨p'.tokens.pending ++ more, stop⟩⟩ := by
  obtain ⟨hread, hdraft⟩ := statement_eq_ok_iff.mp h
  obtain ⟨hnew, used, semicolon, hpending, hmark, hstop, hmore⟩ :=
    Declaration.statement_closes _ _ _ _ hread
  obtain ⟨all, htokens, hstated⟩ := Declaration.statement_uses _ _ _ hread
  have hall : all = used ++ [semicolon] := by
    refine List.append_cancel_right ((congrArg TokenStream.pending htokens).symm.trans ?_)
    rw [List.append_assoc]
    exact hpending
  rw [hall] at hstated
  have hlength := hstated.two_le_length
  rw [List.length_append, List.length_singleton] at hlength
  refine ⟨hdraft ▸ Draft.add_adds hnew, ⟨used, semicolon, hpending, by omega, hmark, hstop, hstated⟩, ?_⟩
  exact fun more stop => statement_eq_ok_iff.mpr ⟨hmore more stop, hdraft⟩

theorem run_precedes {n : Nat} {p : TheoryParser} {d : Draft} (h : (run n p).2 = .ok d) :
    p.draft.Precedes d := by
  induction n generalizing p with
  | zero =>
    cases h
    exact .refl _
  | succ n ih =>
    rw [run] at h
    split at h
    · cases h
      exact .refl _
    · split at h
      · cases h
      · rename_i declaration p₁ hstatement
        exact (statement_eq_ok hstatement).1.precedes.trans (ih h)

/-- When all tokens make statements, then more tokens are read as they are after these. -/
theorem run_append {n m : Nat} {d d' : Draft} {ts : List Token} {stop : Position}
    (h : (run n ⟨d, ⟨ts, stop⟩⟩).2 = .ok d') (hn : ts.length ≤ n) {more : List Token}
    (hm : (ts ++ more).length ≤ m) (stop' : Position) : ∃ k, more.length ≤ k ∧
      (run m ⟨d, ⟨ts ++ more, stop'⟩⟩).2 = (run k ⟨d', ⟨more, stop'⟩⟩).2 := by
  induction n generalizing d ts stop m with
  | zero =>
    obtain rfl := List.eq_nil_of_length_eq_zero (Nat.le_zero.mp hn)
    cases h
    exact ⟨m, hm, rfl⟩
  | succ n ih =>
    rw [run] at h
    split at h
    · rename_i hend
      obtain rfl : ts = [] := List.isEmpty_iff.mp hend
      cases h
      exact ⟨m, hm, rfl⟩
    · split at h
      · cases h
      · rename_i declaration p₁ hstatement
        obtain ⟨d₁, ts₁, stop₁⟩ := p₁
        obtain ⟨_, ⟨used, semicolon, hpending, _⟩, hmore⟩ := statement_eq_ok hstatement
        have hlength := congrArg List.length hpending
        rw [List.length_append, List.length_cons] at hlength
        rw [List.length_append] at hm
        dsimp only at hlength
        obtain ⟨m, rfl⟩ := Nat.exists_eq_succ_of_ne_zero (n := m) (by omega)
        obtain ⟨k, hk, hread⟩ := ih (m := m) h (by omega) (by rw [List.length_append]; omega)
        refine ⟨k, hk, ?_⟩
        have hne : ¬ TokenStream.isAtEnd ⟨ts ++ more, stop'⟩ = true := by
          rw [TokenStream.isAtEnd, List.isEmpty_iff]
          intro hnil
          rw [(List.append_eq_nil_iff.mp hnil).1] at hlength
          exact Nat.succ_ne_zero _ hlength.symm
        rw [run, if_neg hne, hmore]
        exact hread

end TheoryParser

namespace Theory

theorem parse_eq_ok_iff {text name : String} {t : Theory} :
    (parse text name).2 = .ok t ↔ ∃ s d, tokenize text = .ok s ∧
      (TheoryParser.run s.pending.length ⟨.empty, s⟩).2 = .ok d ∧ d.toTheory name = t := by
  unfold parse
  cases tokenize text with
  | error e => exact ⟨nofun, fun ⟨_, _, h, _⟩ => nomatch h⟩
  | ok s =>
    refine map_eq_ok_iff.trans ⟨fun ⟨d, hrun, ht⟩ => ⟨s, d, rfl, hrun, ht⟩, ?_⟩
    intro ⟨_, d, hs, hrun, ht⟩
    cases hs
    exact ⟨d, hrun, ht⟩

end Theory

namespace TheoryParser

/-- A statement that fails leaves all declarations as they were; one that is read uses up the tokens
that state its declaration, up to a semicolon, and adds what it declares. So when a text and the same
text with more after it are both read, all that the first declares stands in front in the second. -/
theorem adds_only :
    (∀ p : TheoryParser, match statement p with
      | .error _ p' => p'.draft = p.draft
      | .ok declaration p' => p.draft.Adds declaration p'.draft ∧ ∃ used semicolon,
        p.tokens.pending = used ++ semicolon :: p'.tokens.pending ∧ 1 ≤ used.length ∧
          semicolon.isMark ";" = true ∧ p'.tokens.stop = p.tokens.stop ∧
            declaration.IsStatedBy (used ++ [semicolon])) ∧
    ∀ (text more name name' : String) (t t' : Theory), text.toList.getLast? = some '\n' →
      (Theory.parse text name).2 = .ok t → (Theory.parse (text ++ more) name').2 = .ok t' →
        t.signature.sorts.entries <+: t'.signature.sorts.entries ∧
        t.signature.terms.entries <+: t'.signature.terms.entries ∧
        t.signature.notations.entries <+: t'.signature.notations.entries ∧
        t.assertions <+: t'.assertions := by
  refine ⟨fun p => ?_, fun text more name name' t t' hlast h h' => ?_⟩
  · cases hstatement : statement p with
    | error e p' => exact (statement_eq_error_iff.mp hstatement).2
    | ok declaration p' =>
      obtain ⟨hadds, htokens, _⟩ := statement_eq_ok hstatement
      exact ⟨hadds, htokens⟩
  · obtain ⟨s, d, htokens, hrun, rfl⟩ := Theory.parse_eq_ok_iff.mp h
    obtain ⟨s', d', htokens', hrun', rfl⟩ := Theory.parse_eq_ok_iff.mp h'
    obtain ⟨more, hpending⟩ := tokenize_append htokens hlast htokens'
    obtain ⟨k, _, hmore⟩ :=
      run_append hrun (Nat.le_refl _) (Nat.le_of_eq (congrArg _ hpending.symm)) s'.stop
    rw [← hpending, hrun'] at hmore
    obtain ⟨hsorts, hterms, hnotations, hassertions⟩ := run_precedes hmore.symm
    exact ⟨hsorts, hterms, hnotations, hassertions⟩

end TheoryParser

namespace Lines

def text : String :=
  "delimiter $ ( ) $;\nprovable sort wff;\nterm not (a: wff): wff;\nprefix not: $~$ prec 41;\n" ++
    "axiom doubled (a: wff): $ ~ ~ a $ > $ a $; -- the only axiom\n"

def more : String :=
  "term im (a b: wff): wff; infixl im: $->$ prec 25; delimiter $~$; " ++
    "theorem refl (p: wff): $ ( ~p ) -> ~p $;"

private def negated (e : Expr) : Expr := .app "not" [e]

def declarations : List Declaration :=
  [.delimiters { left := .ofList ["(", ")"], right := .ofList ["(", ")"] },
    .sort ⟨"wff", { SortModifiers.empty with provable := true }⟩,
    .term ⟨"not", [⟨"a", "wff", false, []⟩], "wff", [], false, none⟩,
    .notated ⟨"not", "~", .prefixed, 41⟩,
    .assertion ⟨.assumed, "doubled", [⟨"a", "wff", false, []⟩], [⟨none, negated (negated (.var "a"))⟩],
      .var "a"⟩]

def moreDeclarations : List Declaration :=
  [.term ⟨"im", [⟨"a", "wff", false, []⟩, ⟨"b", "wff", false, []⟩], "wff", [], false, none⟩,
    .notated ⟨"im", "->", .leftAssoc, 25⟩,
    .delimiters { left := .ofList ["~"], right := .ofList ["~"] },
    .assertion ⟨.claimed, "refl", [⟨"p", "wff", false, []⟩], [],
      .app "im" [negated (.var "p"), negated (.var "p")]⟩]

def first : Theory := (declarations.foldl Draft.add .empty).toTheory "first"

def both : Theory := ((declarations ++ moreDeclarations).foldl Draft.add .empty).toTheory "both"

theorem text_adds_only :
    text.toList.getLast? = some '\n' ∧ (Theory.parse text "first").2 = .ok first ∧
      (Theory.parse (text ++ more) "both").2 = .ok both ∧
      first.signature.sorts.entries <+: both.signature.sorts.entries ∧
      first.signature.terms.entries <+: both.signature.terms.entries ∧
      first.signature.notations.entries <+: both.signature.notations.entries ∧
      first.assertions <+: both.assertions := by
  have hlast : text.toList.getLast? = some '\n' := by decide +kernel
  have hfirst : (Theory.parse text "first").2 = .ok first :=
    eq_ok_of_toOption (by decide +kernel)
  have hboth : (Theory.parse (text ++ more) "both").2 = .ok both :=
    eq_ok_of_toOption (by decide +kernel)
  exact ⟨hlast, hfirst, hboth, TheoryParser.adds_only.2 _ _ _ _ _ _ hlast hfirst hboth⟩

end Lines

end Deductive
