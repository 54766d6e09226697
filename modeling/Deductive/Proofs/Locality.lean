import Deductive.Proofs.Declaring
import Deductive.Proofs.Joining
import Deductive.Proofs.Results
import Deductive.Proofs.Spelling

/-!
Statements are read from their own tokens. A reader that leaves a token to stop at would read the
same with more tokens after it, and a statement stops at its semicolon, whatever comes then.
-/
namespace Deductive

open TokenReader

/-- What the reader uses up stands at the front. As long as it leaves a token to stop at, it does
not depend on what comes after all tokens. -/
def Local {α : Type} (r : TokenReader α) : Prop :=
  ∀ ts stop a s, r ⟨ts, stop⟩ = .ok a s → ∃ used, ts = used ++ s.pending ∧ s.stop = stop ∧
    (s.pending ≠ [] → ∀ more stop', r ⟨ts ++ more, stop'⟩ = .ok a ⟨s.pending ++ more, stop'⟩)

/-- The reader looks at no token at all. -/
def Blind {α : Type} (r : TokenReader α) (P : α → Prop) : Prop :=
  ∀ s a s', r s = .ok a s' → P a ∧ s' = s ∧ ∀ s, r s = .ok a s

/-- The last token that the reader uses up is a semicolon, and it looks at nothing after that. -/
def Closes {α : Type} (r : TokenReader α) (P : α → Prop) : Prop :=
  ∀ ts stop a s, r ⟨ts, stop⟩ = .ok a s → P a ∧ ∃ used semicolon,
    ts = used ++ semicolon :: s.pending ∧ semicolon.isMark ";" = true ∧ s.stop = stop ∧
      ∀ more stop', r ⟨ts ++ more, stop'⟩ = .ok a ⟨s.pending ++ more, stop'⟩

namespace Blind

variable {α β : Type} {r : TokenReader α} {k : α → TokenReader β} {P : α → Prop} {Q : β → Prop}

theorem pure {a : α} (h : P a) : Blind (pure a) P := by
  intro s a' s' hr
  obtain ⟨rfl, rfl⟩ := reader_pure_eq_ok_iff.mp hr
  exact ⟨h, rfl, fun _ => rfl⟩

theorem fail {position : Position} {cause : ParseCause} :
    Blind (TokenReader.fail position cause : TokenReader α) P :=
  fun _ _ _ hr => nomatch hr

theorem bind (h : Blind r P) (hk : ∀ a, P a → Blind (k a) Q) : Blind (r >>= k) Q := by
  intro s b s' hr
  obtain ⟨a, s₁, hr, hrest⟩ := reader_bind_eq_ok_iff.mp hr
  obtain ⟨ha, rfl, hall⟩ := h s a s₁ hr
  obtain ⟨hb, rfl, hball⟩ := hk a ha _ b s' hrest
  exact ⟨hb, rfl, fun s => reader_bind_eq_ok_iff.mpr ⟨a, s, hall s, hball s⟩⟩

theorem isLocal (h : Blind r P) : Local r := by
  intro ts stop a s hr
  obtain ⟨_, rfl, hall⟩ := h _ a s hr
  exact ⟨[], rfl, rfl, fun _ more stop' => hall _⟩

end Blind

namespace Local

variable {α β : Type} {r : TokenReader α} {k : α → TokenReader β}

theorem pure {a : α} : Local (pure a : TokenReader α) :=
  (Blind.pure (P := fun _ => True) trivial).isLocal

theorem fail {position : Position} {cause : ParseCause} :
    Local (TokenReader.fail position cause : TokenReader α) :=
  fun _ _ _ _ hr => nomatch hr

theorem bind (h : Local r) (hk : ∀ a, Local (k a)) : Local (r >>= k) := by
  intro ts stop b s hr
  obtain ⟨a, ⟨ts₁, stop₁⟩, hr, hb⟩ := reader_bind_eq_ok_iff.mp hr
  obtain ⟨used, rfl, rfl, hmore⟩ := h _ _ _ _ hr
  obtain ⟨used', rfl, rfl, hmore'⟩ := hk a _ _ _ _ hb
  refine ⟨used ++ used', (List.append_assoc ..).symm, rfl, fun hs more stop' => ?_⟩
  refine reader_bind_eq_ok_iff.mpr ⟨a, _, hmore ?_ more stop', hmore' hs more stop'⟩
  exact List.append_ne_nil_of_right_ne_nil _ hs

theorem peek : Local TokenReader.peek := by
  intro ts stop t s hr
  cases hr
  refine ⟨[], rfl, rfl, fun hs more stop' => ?_⟩
  obtain ⟨t, ts, rfl⟩ := List.exists_cons_of_ne_nil hs
  rfl

theorem advance : Local TokenReader.advance := by
  intro ts stop t s hr
  cases hr
  cases ts with
  | nil => exact ⟨[], rfl, rfl, fun hs => absurd rfl hs⟩
  | cons t ts => exact ⟨[t], rfl, rfl, fun _ _ _ => rfl⟩

theorem expect {test : Token → Bool} {what : String} : Local (TokenReader.expect test what) := by
  refine advance.bind fun t => ?_
  split
  · exact pure
  · exact fail

/-- Words end at the token that is left. -/
theorem words : Local TokenReader.words := by
  intro ts stop ws s hr
  cases hr
  refine ⟨_, List.takeWhile_append_dropWhile.symm, rfl, fun hs more stop' => ?_⟩
  dsimp only at hs ⊢
  have hwords : ∀ t ∈ ts.takeWhile Token.isWord, t.isWord = true :=
    List.all_eq_true.mp List.all_takeWhile
  obtain ⟨t, rest, hrest⟩ := List.exists_cons_of_ne_nil hs
  have hend : ∀ t ∈ (ts.dropWhile Token.isWord ++ more).head?, t.isWord = false := by
    have hhead := List.head?_dropWhile_not Token.isWord ts
    rw [hrest] at hhead ⊢
    intro t' ht'
    cases ht'
    exact hhead
  have hts : ts ++ more = ts.takeWhile Token.isWord ++ (ts.dropWhile Token.isWord ++ more) := by
    rw [← List.append_assoc, List.takeWhile_append_dropWhile]
  rw [TokenReader.words, hts, takeWhile_append_of_head hwords hend,
    dropWhile_append_of_head hwords hend]

section

variable {test : Token → Bool} {item : Token → TokenReader α}

/-- The items all begin with a token that passes the test, so that there are no more of them than
tokens, however many tokens come later. -/
theorem whileNext (hitem : ∀ t, Local (item t))
    (htest : ∀ stop, test ⟨.finish, "", stop⟩ = false) {n : Nat} {ts : List Token}
    {stop : Position} {as : List α} {s : TokenStream} (hn : ts.length < n)
    (hr : TokenReader.whileNext test (TokenReader.advance >>= item) n ⟨ts, stop⟩ = .ok as s) :
    ∃ used, ts = used ++ s.pending ∧ s.stop = stop ∧ (s.pending ≠ [] → ∀ more stop' m,
      (ts ++ more).length < m →
        TokenReader.whileNext test (TokenReader.advance >>= item) m ⟨ts ++ more, stop'⟩ =
          .ok as ⟨s.pending ++ more, stop'⟩) := by
  induction n generalizing ts stop as s with
  | zero => exact absurd hn (Nat.not_lt_zero _)
  | succ n ih =>
    rw [TokenReader.whileNext] at hr
    obtain ⟨next, _, hpeek, hr⟩ := reader_bind_eq_ok_iff.mp hr
    cases hpeek
    split at hr
    · rename_i hnext
      cases ts with
      | nil => exact absurd (hnext.symm.trans (htest stop)) nofun
      | cons t ts =>
        obtain ⟨a, ⟨ts₁, stop₁⟩, hitem', hr⟩ := reader_bind_eq_ok_iff.mp hr
        obtain ⟨as', s', hmany, hr⟩ := reader_bind_eq_ok_iff.mp hr
        obtain ⟨rfl, rfl⟩ := reader_pure_eq_ok_iff.mp hr
        obtain ⟨_, _, hadvance, hk⟩ := reader_bind_eq_ok_iff.mp hitem'
        cases hadvance
        obtain ⟨used, rfl, rfl, hmore⟩ := hitem t ts stop a _ hk
        obtain ⟨used', rfl, rfl, hmore'⟩ := ih (by simp at hn; omega) hmany
        refine ⟨t :: (used ++ used'), by simp, rfl, fun hs more stop' m hm => ?_⟩
        obtain ⟨m, rfl⟩ := Nat.exists_eq_succ_of_ne_zero (Nat.ne_zero_of_lt hm)
        rw [TokenReader.whileNext]
        refine reader_bind_eq_ok_iff.mpr ⟨t, _, rfl, ?_⟩
        have hnext : test t = true := hnext
        rw [if_pos hnext]
        have hleft : used' ++ s'.pending ≠ [] := List.append_ne_nil_of_right_ne_nil _ hs
        have hrest : (used' ++ s'.pending ++ more).length < m := by
          simp only [List.cons_append, List.length_cons, List.length_append] at hm ⊢
          omega
        exact reader_bind_eq_ok_iff.mpr ⟨a, _, reader_bind_eq_ok_iff.mpr
          ⟨t, _, rfl, hmore hleft more stop'⟩, reader_bind_eq_ok_iff.mpr
          ⟨as', _, hmore' hs more stop' m hrest, rfl⟩⟩
    · rename_i hnext
      obtain ⟨rfl, rfl⟩ := reader_pure_eq_ok_iff.mp hr
      refine ⟨[], rfl, rfl, fun hs more stop' m hm => ?_⟩
      obtain ⟨m, rfl⟩ := Nat.exists_eq_succ_of_ne_zero (Nat.ne_zero_of_lt hm)
      obtain ⟨t, ts, rfl⟩ := List.exists_cons_of_ne_nil hs
      rw [TokenReader.whileNext]
      refine reader_bind_eq_ok_iff.mpr ⟨t, _, rfl, ?_⟩
      have hnext : ¬ test t = true := hnext
      rw [if_neg hnext]
      rfl

theorem manyWhile (hitem : ∀ t, Local (item t))
    (htest : ∀ stop, test ⟨.finish, "", stop⟩ = false) :
    Local (TokenReader.manyWhile test (TokenReader.advance >>= item)) := by
  intro ts stop as s hr
  obtain ⟨used, hts, hstop, hmore⟩ := whileNext hitem htest (Nat.lt_succ_self _) hr
  exact ⟨used, hts, hstop, fun hs more stop' => hmore hs more stop' _ (Nat.lt_succ_self _)⟩

end

end Local

namespace Closes

variable {α β : Type} {r : TokenReader α} {k : α → TokenReader β} {P : α → Prop} {Q : β → Prop}

theorem fail {position : Position} {cause : ParseCause} :
    Closes (TokenReader.fail position cause : TokenReader α) P :=
  fun _ _ _ _ hr => nomatch hr

/-- The semicolon is a token that the reader before it has left. -/
theorem bind (h : Local r) (hk : ∀ a, Closes (k a) Q) : Closes (r >>= k) Q := by
  intro ts stop b s hr
  obtain ⟨a, ⟨ts₁, stop₁⟩, hr, hrest⟩ := reader_bind_eq_ok_iff.mp hr
  obtain ⟨used, rfl, rfl, hmore⟩ := h _ _ _ _ hr
  obtain ⟨hb, used', semicolon, rfl, hmark, rfl, hmore'⟩ := hk a _ _ _ _ hrest
  refine ⟨hb, used ++ used', semicolon, (List.append_assoc ..).symm, hmark, rfl,
    fun more stop' => ?_⟩
  refine reader_bind_eq_ok_iff.mpr ⟨a, _, hmore ?_ more stop', hmore' more stop'⟩
  simp

theorem semicolon {k : Token → TokenReader β} (hk : ∀ t, Blind (k t) Q) :
    Closes (TokenReader.expectMark ";" >>= k) Q := by
  intro ts stop b s hr
  obtain ⟨t, _, ht, hrest⟩ := reader_bind_eq_ok_iff.mp hr
  obtain ⟨hb, rfl, hall⟩ := hk t _ b s hrest
  obtain ⟨_, _, hadvance, ht⟩ := reader_bind_eq_ok_iff.mp ht
  cases hadvance
  split at ht
  · rename_i hmark
    obtain ⟨rfl, rfl⟩ := reader_pure_eq_ok_iff.mp ht
    cases ts with
    | nil => exact absurd hmark nofun
    | cons t ts =>
      refine ⟨hb, [], t, rfl, hmark, rfl, fun more stop' => ?_⟩
      refine reader_bind_eq_ok_iff.mpr ⟨t, _, reader_bind_eq_ok_iff.mpr ⟨t, _, rfl, ?_⟩, hall _⟩
      exact (congrFun (if_pos hmark) _).trans rfl
  · cases ht

end Closes

namespace Declaration

variable {sig : Signature}

/-- What is declared is under a name that is not taken; delimiters are single characters. -/
def IsNew (sig : Signature) : Declaration → Prop
  | .sort decl => sig.sorts.contains decl.name = false
  | .term decl => sig.terms.contains decl.name = false
  | .notated n => sig.notations.contains n.token = false
  | .delimiters more =>
    (more.strayLeft = [] ∧ more.strayRight = []) ∧
      ∀ s, s ∈ more.left ∨ s ∈ more.right → ∃ c, s = String.singleton c ∧ Text.isBlank c = false
  | .assertion _ => True

theorem formula_blind {t : Token} : Blind (formula sig t) fun _ => True := by
  intro s e s' hr
  unfold formula at hr ⊢
  split at hr
  · rename_i e' hparse
    cases hr
    exact ⟨trivial, rfl, fun s => rfl⟩
  · cases hr

theorem typeSpec_local : Local (typeSpec sig) := by
  refine Local.peek.bind fun t => ?_
  split
  · exact Local.advance.bind fun _ => formula_blind.isLocal.bind fun _ => .pure
  · exact Local.expect.bind fun _ => Local.words.bind fun _ => .pure

theorem arrowType_local : Local (arrowType sig) :=
  typeSpec_local.bind fun _ =>
    (Local.manyWhile (fun _ => typeSpec_local) fun _ => rfl).bind fun _ => .pure

theorem binderEntries_local : Local (binderEntries sig) := by
  refine (Local.manyWhile (fun opening => ?_) fun _ => rfl).bind fun _ => .pure
  refine Local.expect.bind fun _ => Local.words.bind fun _ => Local.expect.bind fun _ => ?_
  refine typeSpec_local.bind fun type => Local.expect.bind fun _ => ?_
  dsimp only
  split <;> split <;> first | exact .fail | exact .pure

theorem sortOf_local {cause : ParseCause} {t : TypeSpec} : Local (sortOf cause t) := by
  unfold sortOf
  split
  · exact .fail
  · exact .pure

theorem sortedBinders_local (es : List BinderEntry) : Local (sortedBinders es) := by
  induction es with
  | nil => exact .pure
  | cons e es ih => exact sortOf_local.bind fun _ => ih.bind fun _ => .pure

theorem arrowBinders_local (ts : List TypeSpec) (n : Nat) : Local (arrowBinders n ts) := by
  induction ts generalizing n with
  | nil => exact .pure
  | cons t ts ih => exact sortOf_local.bind fun _ => (ih _).bind fun _ => .pure

theorem modifierRun_local (n : Nat) (m : SortModifiers) : Local (modifierRun n m) := by
  induction n generalizing m with
  | zero => exact .pure
  | succ n ih =>
    refine Local.peek.bind fun t => ?_
    split
    · exact .pure
    · refine Local.advance.bind fun _ => ?_
      split
      · exact .fail
      · exact ih _

theorem sortStatement_closes : Closes (sortStatement sig) (IsNew sig) := by
  refine .bind (modifierRun_local _ _) fun _ => .bind .expect fun _ => .bind .expect fun name => ?_
  refine .semicolon fun _ => ?_
  split
  · exact .fail
  · rename_i hnew
    exact .pure (Bool.eq_false_iff.mpr hnew)

theorem newTerm_blind {name : Token} {decl : TermDecl} (hname : decl.name = name.text) :
    Blind (newTerm sig name decl) (IsNew sig) := by
  unfold newTerm
  split
  · exact .fail
  · rename_i hnew
    rw [← hname] at hnew
    exact .pure (Bool.eq_false_iff.mpr hnew)

theorem termStatement_closes : Closes (termStatement sig) (IsNew sig) := by
  refine .bind .advance fun _ => .bind .expect fun name => .bind binderEntries_local fun es => ?_
  refine .bind (sortedBinders_local es) fun _ => .bind .expect fun _ => ?_
  refine .bind arrowType_local fun arrow => .bind (arrowBinders_local arrow.arguments 1) fun _ => ?_
  exact .bind sortOf_local fun _ => .semicolon fun _ => newTerm_blind rfl

theorem definitionBody_local : Local (definitionBody sig) := by
  refine Local.peek.bind fun t => ?_
  split
  · exact Local.advance.bind fun _ => Local.expect.bind fun _ =>
      formula_blind.isLocal.bind fun _ => .pure
  · exact .pure

theorem definitionStatement_closes : Closes (definitionStatement sig) (IsNew sig) := by
  refine .bind .advance fun _ => .bind .expect fun name => .bind binderEntries_local fun es => ?_
  refine .bind (sortedBinders_local es) fun _ => .bind .expect fun _ => ?_
  refine .bind typeSpec_local fun type => .bind sortOf_local fun _ => ?_
  exact .bind definitionBody_local fun _ => .semicolon fun _ => newTerm_blind rfl

theorem statementOf_local {kind : AssertionKind} {label : String} {t : TypeSpec} :
    Local (statementOf kind label t) := by
  unfold statementOf
  split
  · exact .pure
  · exact .fail

theorem arrowHypotheses_local {kind : AssertionKind} {label : String} (ts : List TypeSpec) :
    Local (arrowHypotheses kind label ts) := by
  induction ts with
  | nil => exact .pure
  | cons t ts ih => exact statementOf_local.bind fun _ => ih.bind fun _ => .pure

theorem assertionStatement_closes {kind : AssertionKind} :
    Closes (assertionStatement sig kind) (IsNew sig) := by
  refine .bind .advance fun _ => .bind .expect fun label => .bind binderEntries_local fun es => ?_
  refine .bind .expect fun _ => .bind arrowType_local fun arrow => ?_
  refine .bind (arrowHypotheses_local arrow.arguments) fun _ => ?_
  exact .bind statementOf_local fun _ => .semicolon fun _ => .pure trivial

theorem precedence_local : Local precedence := by
  refine Local.advance.bind fun t => ?_
  split
  · refine Local.bind ?_ fun _ => .pure
    unfold decimalOf
    dsimp only
    split
    · exact .fail
    · exact .pure
  · split
    · exact .pure
    · exact .fail

theorem levelOf_blind {position : Position} (written : Option Nat) :
    Blind (levelOf position written) fun _ => True := by
  unfold levelOf
  split
  · exact .pure trivial
  · split
    · exact .fail
    · exact .pure trivial

theorem notationStatement_closes {fixity : Fixity} :
    Closes (notationStatement sig fixity) (IsNew sig) := by
  refine .bind .advance fun _ => .bind .expect fun term => .bind .expect fun _ => ?_
  refine .bind .expect fun math => ?_
  dsimp only
  split
  · exact .fail
  refine .bind .expect fun _ => .bind .peek fun level => .bind precedence_local fun written => ?_
  refine .semicolon fun _ => ?_
  split
  · exact .fail
  · rename_i hnew
    exact (levelOf_blind written).bind fun _ _ => .pure (Bool.eq_false_iff.mpr hnew)

theorem charsOf_isCharacter {text s : String} (h : s ∈ Delimiters.charsOf text) :
    ∃ c, s = String.singleton c ∧ Text.isBlank c = false := by
  obtain ⟨c, hc, rfl⟩ := List.mem_map.mp (StringSet.mem_ofList.mp h)
  exact ⟨c, rfl, by simpa using (List.mem_filter.mp hc).2⟩

theorem delimiterStatement_closes : Closes delimiterStatement (IsNew sig) := by
  refine .bind .advance fun _ => .bind .expect fun left => .bind .peek fun t => ?_
  have hnew (right : Token) : IsNew sig (.delimiters
      { left := Delimiters.charsOf left.text, right := Delimiters.charsOf right.text }) :=
    ⟨⟨rfl, rfl⟩, fun _ hs => hs.elim charsOf_isCharacter charsOf_isCharacter⟩
  split
  · exact .bind .expect fun right => .semicolon fun _ => .pure (hnew right)
  · exact .bind .pure fun right => .semicolon fun _ => .pure (hnew right)

/-- A statement is read up to its semicolon, and declares something new. -/
theorem statement_closes : Closes (statement sig) (IsNew sig) := by
  refine .bind .peek fun t => ?_
  split
  · exact .fail
  split
  · exact sortStatement_closes
  split
  · exact termStatement_closes
  split
  · exact definitionStatement_closes
  split
  · exact delimiterStatement_closes
  split
  · exact assertionStatement_closes
  · exact notationStatement_closes
  · split
    · exact .fail
    · exact .fail

end Declaration
end Deductive
