import Deductive.Proof.Reader
import Deductive.Proofs.Accepting
import Deductive.Proofs.Registry
import Mathlib.Data.List.Nodup

/-!
The grammar of proof files. What tokens spell a proof is said without a reader, and the reader
accepts these tokens and no others, with the proof that they spell.
-/
namespace Deductive

open TokenReader

namespace ProofTerm

mutual

/-- Tokens of a proof at a depth that the limit allows. -/
inductive Spells (sig : Signature) (limit : Int) : Nat → List Token → ProofTerm → Prop
  | ref {depth : Nat} {name : Token} (nested : depth ≤ limit) (word : name.isWord = true)
      (named : name.text ≠ "_") :
      Spells sig limit depth [name] (.ref name.text name.position)
  | app {depth : Nat} {opening label closing : Token} {inner : List Token} {items : List ProofTerm}
      (nested : depth ≤ limit) (opens : opening.isMark "(" = true) (word : label.isWord = true)
      (spelled : SpellsItems sig limit (depth + 1) inner items)
      (closes : closing.isMark ")" = true) :
      Spells sig limit depth (opening :: label :: (inner ++ [closing]))
        (.app label.text items opening.position)

/-- Tokens of an item of an application, where proofs among the items have the depth. -/
inductive SpellsItem (sig : Signature) (limit : Int) : Nat → List Token → ProofTerm → Prop
  | proof {depth : Nat} {used : List Token} {p : ProofTerm}
      (spelled : Spells sig limit depth used p) : SpellsItem sig limit depth used p
  | math {depth : Nat} {t : Token} {e : Expr} (kind : t.kind = .math)
      (read : parseMath t.text sig (t.position.right 1) = .ok e) :
      SpellsItem sig limit depth [t] (.expr e)
  | hole {depth : Nat} {t : Token} (keyword : t.isKeyword "_" = true) :
      SpellsItem sig limit depth [t] .hole

/-- Tokens of items one after the other. -/
inductive SpellsItems (sig : Signature) (limit : Int) :
    Nat → List Token → List ProofTerm → Prop
  | nil {depth : Nat} : SpellsItems sig limit depth [] []
  | cons {depth : Nat} {front rest : List Token} {p : ProofTerm} {ps : List ProofTerm}
      (first : SpellsItem sig limit depth front p) (more : SpellsItems sig limit depth rest ps) :
      SpellsItems sig limit depth (front ++ rest) (p :: ps)

end

variable {sig : Signature} {limit : Int}

/-- A proof begins with a name other than that of a hole, or with a parenthesis. -/
theorem Spells.first {depth : Nat} {used : List Token} {p : ProofTerm}
    (h : Spells sig limit depth used p) : ∃ t ts, used = t :: ts ∧
      (t.kind = .word ∧ t.text ≠ "_" ∨ t.kind = .mark ∧ t.text = "(") := by
  cases h with
  | ref _ word named => exact ⟨_, _, rfl, .inl ⟨of_decide_eq_true word, named⟩⟩
  | app _ opens _ _ _ =>
    rw [Token.isMark, Bool.and_eq_true, decide_eq_true_eq, decide_eq_true_eq] at opens
    exact ⟨_, _, rfl, .inr opens⟩

theorem SpellsItem.first {depth : Nat} {used : List Token} {p : ProofTerm}
    (h : SpellsItem sig limit depth used p) : ∃ t ts, used = t :: ts ∧ (!t.isMark ")") = true := by
  cases h with
  | proof spelled =>
    obtain ⟨t, ts, rfl, ⟨kind, _⟩ | ⟨_, text⟩⟩ := spelled.first
    · exact ⟨t, ts, rfl, by simp [Token.isMark, kind]⟩
    · exact ⟨t, ts, rfl, by simp [Token.isMark, text]⟩
  | math kind _ => exact ⟨_, _, rfl, by simp [Token.isMark, kind]⟩
  | hole keyword => exact ⟨_, _, rfl, by simp_all [Token.isKeyword, Token.isMark]⟩

theorem SpellsItems.repeats (depth : Nat) :
    Repeats (SpellsItem sig limit depth) (SpellsItems sig limit depth) where
  nil_iff used := by
    constructor
    · intro h
      cases h
      rfl
    · rintro rfl
      exact .nil
  cons_iff used p ps := by
    constructor
    · intro h
      cases h with
      | cons first more => exact ⟨_, _, rfl, first, more⟩
    · rintro ⟨front, rest, rfl, first, more⟩
      exact .cons first more

theorem item_accepts {depth : Nat} {term : TokenReader ProofTerm}
    (h : Accepts term (Spells sig limit depth)) :
    Accepts (item sig term) (SpellsItem sig limit depth) where
  sound {s p s'} hr := by
    obtain ⟨_, _, hpeek, hr⟩ := reader_bind_eq_ok_iff.mp hr
    cases hpeek
    split at hr
    · rename_i kind
      obtain ⟨_, _, hadvance, hr⟩ := reader_bind_eq_ok_iff.mp hr
      cases hadvance
      obtain ⟨_ | ⟨t, ts⟩, stop⟩ := s
      · cases kind
      · split at hr
        · rename_i e hread
          cases hr
          exact ⟨[t], .math kind hread, rfl⟩
        · cases hr
    · split at hr
      · rename_i keyword
        obtain ⟨_, _, hadvance, hr⟩ := reader_bind_eq_ok_iff.mp hr
        cases hadvance
        cases hr
        obtain ⟨_ | ⟨t, ts⟩, stop⟩ := s
        · cases keyword
        · exact ⟨[t], .hole keyword, rfl⟩
      · split at hr
        · cases hr
        · obtain ⟨used, hused, hs⟩ := h.sound hr
          exact ⟨used, .proof hused, hs⟩
  complete {used p} hused s := by
    cases hused with
    | proof spelled =>
      obtain ⟨t, ts, rfl, ht⟩ := spelled.first
      have hmath : t.kind ≠ .math := by
        rcases ht with ⟨kind, _⟩ | ⟨kind, _⟩ <;> simp [kind]
      have hhole : ¬ t.isKeyword "_" = true := by
        rcases ht with ⟨_, named⟩ | ⟨kind, _⟩ <;> simp [Token.isKeyword, *]
      have hfinish : t.kind ≠ .finish := by
        rcases ht with ⟨kind, _⟩ | ⟨kind, _⟩ <;> simp [kind]
      refine reader_bind_eq_ok_iff.mpr ⟨t, _, rfl, ?_⟩
      rw [if_neg hmath, if_neg hhole, if_neg hfinish]
      exact h.complete spelled s
    | @math _ t e kind read =>
      refine reader_bind_eq_ok_iff.mpr ⟨t, _, rfl, ?_⟩
      rw [if_pos kind]
      refine reader_bind_eq_ok_iff.mpr ⟨t, s, rfl, ?_⟩
      rw [read]
    | @hole _ t keyword =>
      have hmath : t.kind ≠ .math := by
        rw [Token.isKeyword, Bool.and_eq_true, decide_eq_true_eq] at keyword
        simp [keyword.1]
      refine reader_bind_eq_ok_iff.mpr ⟨t, _, rfl, ?_⟩
      rw [if_neg hmath, if_pos keyword]
      rfl

/-- The rest of an application, whose parenthesis is at the given place. -/
theorem application_accepts {depth : Nat} {term : TokenReader ProofTerm} (position : Position)
    (h : Accepts term (Spells sig limit depth)) :
    Accepts (do
      let _ ← expectMark "("
      let name ← expectWord "assertion label"
      let items ← manyWhile (fun t => !t.isMark ")") (item sig term)
      let _ ← expectMark ")"
      pure (ProofTerm.app name.text items position))
    fun used p => ∃ opening label closing inner items,
      used = opening :: label :: (inner ++ [closing]) ∧ opening.isMark "(" = true ∧
      label.isWord = true ∧ SpellsItems sig limit depth inner items ∧
      closing.isMark ")" = true ∧ p = .app label.text items position := by
  refine (Accepts.mark_bind fun opening => Accepts.word_bind fun label =>
    (item_accepts h).manyWhile_bind (fun _ _ hitem => hitem.first) (SpellsItems.repeats depth)
      (fun items => Accepts.mark_bind fun closing => .pure) ?_).of_iff fun used p => ⟨?_, ?_⟩
  · rintro items _ p ⟨closing, _, rfl, hclosing, _⟩
    exact ⟨closing, _, rfl, congrArg not hclosing⟩
  · rintro ⟨opening, _, rfl, hopening, label, _, rfl, hlabel, inner, items, _, rfl, hinner, closing,
      _, rfl, hclosing, rfl, rfl⟩
    exact ⟨opening, label, closing, inner, items, rfl, hopening, hlabel, hinner, hclosing, rfl⟩
  · rintro ⟨opening, label, closing, inner, items, rfl, hopening, hlabel, hinner, hclosing, rfl⟩
    exact ⟨opening, _, rfl, hopening, label, _, rfl, hlabel, inner, items, _, rfl, hinner, closing,
      _, rfl, hclosing, rfl, rfl⟩

theorem Spells.nested {depth : Nat} {used : List Token} {p : ProofTerm}
    (h : Spells sig limit depth used p) : depth ≤ limit := by
  cases h with
  | ref nested => exact nested
  | app nested => exact nested

/-- One proof, when those among its items are read. -/
theorem read_step {m : Int} {n depth : Nat} (hlimit : ¬ limit < depth ↔ depth ≤ m)
    (h : Accepts (read sig limit n (depth + 1)) (Spells sig m (depth + 1))) :
    Accepts (read sig limit (n + 1) depth) (Spells sig m depth) where
  sound {s p s'} hr := by
    rw [read] at hr
    obtain ⟨_, _, hpeek, hr⟩ := reader_bind_eq_ok_iff.mp hr
    cases hpeek
    split at hr
    · cases hr
    rename_i hshallow
    have hnested := hlimit.mp hshallow
    split at hr
    · rename_i word
      obtain ⟨_, _, hadvance, hr⟩ := reader_bind_eq_ok_iff.mp hr
      cases hadvance
      split at hr
      · cases hr
      · rename_i named
        cases hr
        obtain ⟨_ | ⟨t, ts⟩, stop⟩ := s
        · cases word
        · exact ⟨[t], .ref hnested word named, rfl⟩
    · obtain ⟨_, ⟨opening, label, closing, inner, items, rfl, hopening, hlabel, hinner, hclosing,
        rfl⟩, rfl⟩ := (application_accepts _ h).sound hr
      exact ⟨_, .app hnested hopening hlabel hinner hclosing, rfl⟩
  complete {used p} hused s := by
    have hshallow := hlimit.mpr hused.nested
    rw [read]
    cases hused with
    | @ref _ name _ word named =>
      refine reader_bind_eq_ok_iff.mpr ⟨name, _, rfl, ?_⟩
      rw [if_neg hshallow, if_pos word]
      refine reader_bind_eq_ok_iff.mpr ⟨name, s, rfl, ?_⟩
      rw [if_neg named]
      rfl
    | @app _ opening label closing inner items _ opens word spelled closes =>
      have hword : ¬ opening.isWord = true := by
        rw [Token.isMark, Bool.and_eq_true, decide_eq_true_eq] at opens
        simp [Token.isWord, opens.1]
      refine reader_bind_eq_ok_iff.mpr ⟨opening, _, rfl, ?_⟩
      rw [if_neg hshallow, if_neg hword]
      exact (application_accepts opening.position h).complete
        ⟨opening, label, closing, inner, items, rfl, opens, word, spelled, closes, rfl⟩ s

/-- Proofs are read to the depth that the limit asks for, within what is worked on. -/
theorem read_accepts (sig : Signature) (limit : Int) (n depth : Nat)
    (hn : n + depth = nestingLimit) :
    Accepts (read sig limit n depth) (Spells sig (min limit (nestingLimit - 1)) depth) := by
  induction n generalizing depth with
  | zero =>
    refine ⟨nofun, fun hused _ => ?_⟩
    have := hused.nested
    omega
  | succ n ih => exact read_step (by omega) (ih (depth + 1) (by omega))

end ProofTerm

/-- Tokens of a statement with a proof. -/
inductive ProofDecl.Spells (sig : Signature) (limit : Int) : List Token → ProofDecl → Prop
  | proof {keyword label equals semicolon : Token} {inner : List Token} {p : ProofTerm}
      (introduced : keyword.isKeyword "proof" = true) (word : label.isWord = true)
      (equated : equals.isMark "=" = true) (spelled : p.Spells sig limit 0 inner)
      (closes : semicolon.isMark ";" = true) :
      Spells sig limit (keyword :: label :: equals :: (inner ++ [semicolon]))
        ⟨label.text, p, label.position.line⟩

/-- What a file has for a statement. -/
def ProofDecl.entry (d : ProofDecl) : Name × ProofDecl := (d.label, d)

theorem ProofDecl.nodup_keys_iff {ds : List ProofDecl} :
    ((ds.map ProofDecl.entry).map Prod.fst).Nodup ↔ (ds.map ProofDecl.label).Nodup := by
  have hkeys : (ds.map ProofDecl.entry).map Prod.fst = (ds.map ProofDecl.label).map Name.text := by
    rw [List.map_map, List.map_map]
    rfl
  rw [hkeys, List.nodup_map_iff fun _ _ h => Name.text.inj h]

/-- A statement uses up a token, so that fewer are left for the others. -/
theorem ProofDecl.Spells.length_le {sig : Signature} {limit : Int} {front rest : List Token}
    {d : ProofDecl} (h : d.Spells sig limit front) {n : Nat}
    (hn : (front ++ rest).length ≤ n + 1) : rest.length ≤ n := by
  cases h
  simp only [List.length_append, List.length_cons] at hn
  omega

namespace ProofFile

/-- Tokens of statements one after the other. -/
inductive Spells (sig : Signature) (limit : Int) : List Token → List ProofDecl → Prop
  | nil : Spells sig limit [] []
  | cons {front rest : List Token} {d : ProofDecl} {ds : List ProofDecl}
      (first : d.Spells sig limit front) (more : Spells sig limit rest ds) :
      Spells sig limit (front ++ rest) (d :: ds)

variable {sig : Signature} {limit : Int}

theorem statement_accepts (proofs : ProofFile) :
    Accepts (statement sig limit proofs) fun used proofs' => ∃ d : ProofDecl,
      d.Spells sig (min limit (nestingLimit - 1)) used ∧ proofs.contains d.label = false ∧
      proofs' = proofs.insert d.label d := by
  have hproof := ProofTerm.read_accepts sig limit nestingLimit 0 rfl
  refine (Accepts.keyword_bind fun keyword => Accepts.word_bind fun label =>
    Accepts.mark_bind fun equals => hproof.bind fun p => Accepts.mark_bind fun semicolon =>
      Accepts.pure.fail_if).of_iff fun used proofs' => ⟨?_, ?_⟩
  · rintro ⟨keyword, _, rfl, hkeyword, label, _, rfl, hlabel, equals, _, rfl, hequals, inner, p, _,
      rfl, hp, semicolon, _, rfl, hsemicolon, hnew, rfl, rfl⟩
    exact ⟨_, .proof hkeyword hlabel hequals hp hsemicolon, hnew, rfl⟩
  · rintro ⟨_, hspelled, hnew, rfl⟩
    cases hspelled with
    | @proof keyword label equals semicolon inner p introduced word equated spelled closes =>
      exact ⟨keyword, _, rfl, introduced, label, _, rfl, word, equals, _, rfl, equated, inner, p, _,
        rfl, spelled, semicolon, _, rfl, closes, hnew, rfl, rfl⟩

theorem Spells.cases_first {used : List Token} {ds : List ProofDecl}
    (h : Spells sig limit used ds) : used = [] ∧ ds = [] ∨ ∃ front d rest ds',
      used = front ++ rest ∧ ds = d :: ds' ∧ d.Spells sig limit front ∧
        Spells sig limit rest ds' := by
  cases h with
  | nil => exact .inl ⟨rfl, rfl⟩
  | cons first more => exact .inr ⟨_, _, _, _, rfl, rfl, first, more⟩

theorem finished_iff_spells {proofs proofs' : ProofFile} :
    .ok proofs = (.ok proofs' : Except ParseError ProofFile) ↔
      ∃ ds, Spells sig limit [] ds ∧ proofs'.entries = proofs.entries ++ ds.map ProofDecl.entry := by
  constructor
  · intro h
    cases h
    exact ⟨[], .nil, (List.append_nil _).symm⟩
  · rintro ⟨ds, hspelled, hentries⟩
    rcases hspelled.cases_first with ⟨_, rfl⟩ | ⟨_, _, _, _, hnil, _, hd, _⟩
    · rw [List.map_nil, List.append_nil] at hentries
      exact congrArg _ (Registry.eq_of_entries hentries.symm)
    · cases hd
      cases hnil

theorem entries_insert_cons {proofs : ProofFile} {d : ProofDecl} {ds : List ProofDecl}
    (hnew : proofs.contains d.label = false) :
    (proofs.insert d.label d).entries ++ ds.map ProofDecl.entry =
      proofs.entries ++ (d :: ds).map ProofDecl.entry := by
  rw [Registry.entries_insert (Registry.contains_eq_false_iff.mp hnew), List.append_assoc]
  rfl

/-- Labels are pairwise different, so that those to come are new. -/
theorem contains_eq_false_of_entries {proofs proofs' : ProofFile} {d : ProofDecl}
    {ds : List ProofDecl}
    (h : proofs'.entries = proofs.entries ++ (d :: ds).map ProofDecl.entry) :
    proofs.contains d.label = false := by
  have hnodup := proofs'.nodup
  rw [h, List.map_append] at hnodup
  refine Registry.contains_eq_false_iff.mpr fun hmem => ?_
  exact (List.nodup_append.mp hnodup).2.2 _ hmem _ List.mem_cons_self rfl

/-- As many statements as there are tokens are enough for all of them. -/
theorem read_iff_spells {n : Nat} {proofs proofs' : ProofFile} {s : TokenStream}
    (hn : s.pending.length ≤ n) : read sig limit n proofs s = .ok proofs' ↔
      ∃ ds, Spells sig (min limit (nestingLimit - 1)) s.pending ds ∧
        proofs'.entries = proofs.entries ++ ds.map ProofDecl.entry := by
  induction n generalizing proofs s with
  | zero =>
    rw [read, List.eq_nil_of_length_eq_zero (Nat.le_zero.mp hn)]
    exact finished_iff_spells
  | succ n ih =>
    rw [read]
    split
    · rename_i hend
      rw [List.isEmpty_iff.mp hend]
      exact finished_iff_spells
    · rename_i hmore
      constructor
      · intro hr
        split at hr
        · cases hr
        · rename_i proofs₁ s₁ hstatement
          obtain ⟨front, ⟨d, hd, hnew, rfl⟩, rfl⟩ := (statement_accepts proofs).sound hstatement
          obtain ⟨ds, hds, hentries⟩ := (ih (hd.length_le hn)).mp hr
          refine ⟨d :: ds, .cons hd hds, ?_⟩
          rw [hentries, entries_insert_cons hnew]
      · rintro ⟨ds, hspelled, hentries⟩
        obtain ⟨pending, stop⟩ := s
        rcases hspelled.cases_first with ⟨hnil, _⟩ | ⟨front, d, rest, ds, rfl, rfl, hd, hds⟩
        · exact absurd (List.isEmpty_iff.mpr hnil) hmore
        · have hnew := contains_eq_false_of_entries hentries
          have hstatement := (statement_accepts proofs).complete ⟨d, hd, hnew, rfl⟩ ⟨rest, stop⟩
          change statement sig limit proofs ⟨front ++ rest, stop⟩ = _ at hstatement
          rw [hstatement]
          refine (ih (hd.length_le hn)).mpr ⟨ds, hds, ?_⟩
          rw [hentries, entries_insert_cons hnew]

/-- A text is read if and only if its tokens spell statements with pairwise different labels, whose
proofs are nested no deeper than the limit, within what is worked on; what is read then are these
statements in their order. -/
theorem parse_iff_spells (text : String) (sig : Signature) (limit : Int) :
    ((∃ proofs, parse text sig limit = .ok proofs) ↔
      ∃ s ds, tokenize text = .ok s ∧ Spells sig (min limit (nestingLimit - 1)) s.pending ds ∧
        (ds.map ProofDecl.label).Nodup) ∧
    ∀ proofs, parse text sig limit = .ok proofs ↔
      ∃ s ds, tokenize text = .ok s ∧ Spells sig (min limit (nestingLimit - 1)) s.pending ds ∧
        proofs.entries = ds.map ProofDecl.entry := by
  have hparse (proofs : ProofFile) : parse text sig limit = .ok proofs ↔
      ∃ s ds, tokenize text = .ok s ∧ Spells sig (min limit (nestingLimit - 1)) s.pending ds ∧
        proofs.entries = ds.map ProofDecl.entry := by
    constructor
    · intro h
      rw [parse] at h
      split at h
      · cases h
      · rename_i s hs
        obtain ⟨ds, hds, hentries⟩ := (read_iff_spells (Nat.le_refl _)).mp h
        exact ⟨s, ds, hs, hds, hentries⟩
    · rintro ⟨s, ds, hs, hds, hentries⟩
      rw [parse, hs]
      exact (read_iff_spells (Nat.le_refl _)).mpr ⟨ds, hds, hentries⟩
  refine ⟨⟨?_, ?_⟩, hparse⟩
  · rintro ⟨proofs, hproofs⟩
    obtain ⟨s, ds, hs, hds, hentries⟩ := (hparse proofs).mp hproofs
    have hnodup := proofs.nodup
    rw [hentries, ProofDecl.nodup_keys_iff] at hnodup
    exact ⟨s, ds, hs, hds, hnodup⟩
  · rintro ⟨s, ds, hs, hds, hnodup⟩
    rw [← ProofDecl.nodup_keys_iff] at hnodup
    exact ⟨⟨ds.map ProofDecl.entry, hnodup⟩, (hparse _).mpr ⟨s, ds, hs, hds, rfl⟩⟩

end ProofFile
end Deductive
