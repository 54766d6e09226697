import Deductive.Proofs.Accepting
import Deductive.Proofs.Locality

/-!
The tokens that a statement is read from, and what they say of the declaration: its kind is that of
the keyword, and its name stands after it. A statement of delimiters says all that is declared.
-/
namespace Deductive

open TokenReader

/-- The tokens that the reader uses up stand in the relation to the value. -/
def Uses {α : Type} (r : TokenReader α) (R : List Token → α → Prop) : Prop :=
  ∀ s a s', r s = .ok a s' → ∃ used, s = s'.push used ∧ R used a

/-- The same where `t` is the first token. -/
def UsesFrom {α : Type} (t : Token) (r : TokenReader α) (R : List Token → α → Prop) : Prop :=
  ∀ ts stop a s', r ⟨t :: ts, stop⟩ = .ok a s' →
    ∃ used, ⟨t :: ts, stop⟩ = s'.push used ∧ R used a

namespace Uses

variable {α β : Type} {r : TokenReader α} {k : α → TokenReader β} {R : List Token → α → Prop}
  {Q : List Token → β → Prop}

theorem pure {b : β} (h : Q [] b) : Uses (pure b) Q := by
  intro s b' s' hr
  obtain ⟨rfl, rfl⟩ := reader_pure_eq_ok_iff.mp hr
  exact ⟨[], rfl, h⟩

theorem fail {position : Position} {cause : ParseCause} :
    Uses (TokenReader.fail position cause : TokenReader β) Q :=
  fun _ _ _ hr => nomatch hr

theorem bind (h : Uses r R) (hk : ∀ front a, R front a → Uses (k a) fun rest => Q (front ++ rest)) :
    Uses (r >>= k) Q := by
  intro s b s' hr
  obtain ⟨a, s₁, hr, hrest⟩ := reader_bind_eq_ok_iff.mp hr
  obtain ⟨front, rfl, ha⟩ := h s a s₁ hr
  obtain ⟨rest, rfl, hb⟩ := hk front a ha s₁ b s' hrest
  exact ⟨front ++ rest, (TokenStream.push_append ..).symm, hb⟩

theorem mono {R' : List Token → α → Prop} (h : Uses r R) (h' : ∀ used a, R used a → R' used a) :
    Uses r R' := by
  intro s a s' hr
  obtain ⟨used, hs, ha⟩ := h s a s' hr
  exact ⟨used, hs, h' used a ha⟩

theorem of_local (h : Local r) : Uses r fun _ _ => True := by
  intro ⟨ts, stop⟩ a s' hr
  obtain ⟨used, rfl, rfl, _⟩ := h ts stop a s' hr
  exact ⟨used, rfl, trivial⟩

/-- Some tokens of which nothing is said. -/
theorem skip (h : Local r) (hk : ∀ front a, Uses (k a) fun rest => Q (front ++ rest)) :
    Uses (r >>= k) Q :=
  (of_local h).bind fun front a _ => hk front a

theorem peek {k : Token → TokenReader β} (hk : ∀ t, Uses (k t) Q) :
    Uses (TokenReader.peek >>= k) Q := by
  intro s b s' hr
  obtain ⟨t, _, hpeek, hrest⟩ := reader_bind_eq_ok_iff.mp hr
  cases hpeek
  exact hk _ _ b s' hrest

theorem expect {test : Token → Bool} {what : String} {k : Token → TokenReader β}
    (hfinish : ∀ p, test ⟨.finish, "", p⟩ = false)
    (hk : ∀ t, test t = true → Uses (k t) fun rest => Q (t :: rest)) :
    Uses (TokenReader.expect test what >>= k) Q := by
  refine Uses.bind (R := fun used t => used = [t] ∧ test t = true) ?_ ?_
  · intro s t s' hr
    obtain ⟨used, hused, hs⟩ := (Accepts.expect hfinish).sound hr
    exact ⟨used, hs, hused⟩
  · rintro _ t ⟨rfl, ht⟩
    exact hk t ht

/-- It is enough to know what is used up where there is a first token. -/
theorem of_first (hfinish : ∀ stop a s', r ⟨[], stop⟩ = .ok a s' → s' = ⟨[], stop⟩ ∧ R [] a)
    (h : ∀ t, UsesFrom t r R) : Uses r R := by
  intro ⟨ts, stop⟩ a s' hr
  cases ts with
  | nil =>
    obtain ⟨rfl, ha⟩ := hfinish stop a s' hr
    exact ⟨[], rfl, ha⟩
  | cons t ts => exact h t ts stop a s' hr

end Uses

namespace UsesFrom

variable {β : Type} {t : Token} {k : Token → TokenReader β} {Q : List Token → β → Prop}

theorem of_uses {r : TokenReader β} (h : Uses r Q) : UsesFrom t r Q :=
  fun _ _ a s' hr => h _ a s' hr

theorem peek (hk : UsesFrom t (k t) Q) : UsesFrom t (TokenReader.peek >>= k) Q := by
  intro ts stop b s' hr
  obtain ⟨_, _, hpeek, hrest⟩ := reader_bind_eq_ok_iff.mp hr
  cases hpeek
  exact hk ts stop b s' hrest

theorem advance (hk : Uses (k t) fun rest => Q (t :: rest)) :
    UsesFrom t (TokenReader.advance >>= k) Q := by
  intro ts stop b s' hr
  obtain ⟨_, _, hadvance, hrest⟩ := reader_bind_eq_ok_iff.mp hr
  cases hadvance
  obtain ⟨used, hs, hb⟩ := hk _ b s' hrest
  exact ⟨t :: used, congrArg (TokenStream.push [t]) hs, hb⟩

end UsesFrom

/-- Tokens of a statement that declares the notation. The highest level is written as a word, and
every number is below it. -/
inductive Notation.IsStatedBy (n : Notation) : List Token → Prop
  | statement {keyword term colon math prec level semicolon : Token}
      (introduced : keyword.text = n.fixity.keyword) (named : n.term = term.text)
      (stands : n.token = Text.strip math.text)
      (written : level.isKeyword "max" = true ∧ n.prec = maxPrec ∨
        level.kind = .number ∧ n.prec < maxPrec) :
      IsStatedBy n [keyword, term, colon, math, prec, level, semicolon]

/-- The set has the characters of the text that are no white space. -/
def StringSet.HoldsCharsOf (set : StringSet) (text : String) : Prop :=
  ∀ s, s ∈ set ↔ ∃ c ∈ text.toList, Text.isBlank c = false ∧ s = String.singleton c

/-- Tokens of a statement that makes the declaration. Where one string of delimiters is given, it is for
both sides. -/
inductive Declaration.IsStatedBy : Declaration → List Token → Prop
  | sort {decl : SortDecl} {front : List Token} {modifiers : List SortModifiers}
      {keyword name semicolon : Token}
      (modified : front.map (fun t => SortModifiers.ofKeyword? t.text) = modifiers.map some ∧
        decl.modifiers = modifiers.foldl SortModifiers.union .empty)
      (introduced : keyword.text = "sort") (named : decl.name = name.text) :
      IsStatedBy (.sort decl) (front ++ [keyword, name, semicolon])
  | term {decl : TermDecl} {keyword name : Token} {rest : List Token}
      (introduced : keyword.text = if decl.isDef.holds then "def" else "term")
      (named : decl.name = name.text) : IsStatedBy (.term decl) (keyword :: name :: rest)
  | assertion {a : Assertion} {keyword label : Token} {rest : List Token}
      (introduced : keyword.text = a.kind.keyword) (named : a.label = label.text) :
      IsStatedBy (.assertion a) (keyword :: label :: rest)
  | notated {n : Notation} {used : List Token} (stated : n.IsStatedBy used) :
      IsStatedBy (.notated n) used
  | delimiters {more : Delimiters} {keyword both semicolon : Token}
      (introduced : keyword.text = "delimiter") (holdsLeft : more.left.HoldsCharsOf both.text)
      (holdsRight : more.right.HoldsCharsOf both.text) :
      IsStatedBy (.delimiters more) [keyword, both, semicolon]
  | sidedDelimiters {more : Delimiters} {keyword left right semicolon : Token}
      (introduced : keyword.text = "delimiter") (holdsLeft : more.left.HoldsCharsOf left.text)
      (holdsRight : more.right.HoldsCharsOf right.text) :
      IsStatedBy (.delimiters more) [keyword, left, right, semicolon]

namespace Declaration

variable {sig : Signature} {keyword : Token}

theorem modifierRun_uses (n : Nat) (m : SortModifiers) :
    Uses (modifierRun n m) fun used m' => ∃ modifiers : List SortModifiers,
      used.map (fun t => SortModifiers.ofKeyword? t.text) = modifiers.map some ∧
        m' = modifiers.foldl SortModifiers.union m := by
  induction n generalizing m with
  | zero => exact .pure ⟨[], rfl, rfl⟩
  | succ n ih =>
    refine .of_first (fun stop m' s' h => ?_) fun t => .peek ?_
    · obtain ⟨rfl, rfl⟩ := reader_pure_eq_ok_iff.mp h
      exact ⟨rfl, [], rfl, rfl⟩
    split
    · exact .of_uses (.pure ⟨[], rfl, rfl⟩)
    · rename_i modifier hmodifier
      have hword : SortModifiers.ofKeyword? t.text = some modifier := by
        split at hmodifier
        · exact hmodifier
        · cases hmodifier
      refine .advance ?_
      split
      · exact .fail
      · refine (ih _).mono fun used m' h => ?_
        obtain ⟨modifiers, hused, hm⟩ := h
        exact ⟨modifier :: modifiers, congrArg₂ List.cons hword hused, hm⟩

theorem sortStatement_uses : Uses (sortStatement sig) fun used d => d.IsStatedBy used := by
  refine (modifierRun_uses _ _).bind fun front m hm => .expect (fun _ => rfl) fun keyword hsort => ?_
  refine .expect (fun _ => rfl) fun name _ => .expect (fun _ => rfl) fun semicolon _ => ?_
  split
  · exact .fail
  · obtain ⟨modifiers, hfront, rfl⟩ := hm
    rw [Token.isKeyword, Bool.and_eq_true, decide_eq_true_eq, decide_eq_true_eq] at hsort
    exact .pure (.sort ⟨hfront, rfl⟩ hsort.2 rfl)

theorem newTerm_uses {name : Token} {decl : TermDecl} {Q : List Token → Declaration → Prop}
    (h : Q [] (.term decl)) : Uses (newTerm sig name decl) Q := by
  unfold newTerm
  split
  · exact .fail
  · exact .pure h

theorem termStatement_uses (hkeyword : keyword.text = "term") :
    UsesFrom keyword (termStatement sig) fun used d => d.IsStatedBy used := by
  refine .advance (.expect (fun _ => rfl) fun name _ => ?_)
  refine .skip binderEntries_local fun _ es => .skip (sortedBinders_local es) fun _ _ => ?_
  refine .skip .expect fun _ _ => .skip arrowType_local fun _ arrow => ?_
  refine .skip (arrowBinders_local arrow.arguments 1) fun _ _ => .skip sortOf_local fun _ _ => ?_
  exact .skip .expect fun _ _ => newTerm_uses (.term hkeyword rfl)

theorem definitionStatement_uses (hkeyword : keyword.text = "def") :
    UsesFrom keyword (definitionStatement sig) fun used d => d.IsStatedBy used := by
  refine .advance (.expect (fun _ => rfl) fun name _ => ?_)
  refine .skip binderEntries_local fun _ es => .skip (sortedBinders_local es) fun _ _ => ?_
  refine .skip .expect fun _ _ => .skip typeSpec_local fun _ type => ?_
  refine .skip sortOf_local fun _ _ => .skip definitionBody_local fun _ _ => ?_
  exact .skip .expect fun _ _ => newTerm_uses (.term hkeyword rfl)

theorem assertionStatement_uses {kind : AssertionKind} (hkeyword : keyword.text = kind.keyword) :
    UsesFrom keyword (assertionStatement sig kind) fun used d => d.IsStatedBy used := by
  refine .advance (.expect (fun _ => rfl) fun label _ => ?_)
  refine .skip binderEntries_local fun _ es => .skip .expect fun _ _ => ?_
  refine .skip arrowType_local fun _ arrow => ?_
  refine .skip (arrowHypotheses_local arrow.arguments) fun _ _ => ?_
  refine .skip statementOf_local fun _ _ => .skip .expect fun _ _ => ?_
  exact .pure (.assertion hkeyword rfl)

theorem decimalOf_uses {t : Token} : Uses (decimalOf t) fun used _ => used = [] := by
  unfold decimalOf
  dsimp only
  split
  · exact .fail
  · exact .pure rfl

theorem precedence_uses : Uses precedence fun used written => ∃ level, used = [level] ∧
    match written with
    | none => level.isKeyword "max" = true
    | some _ => level.kind = .number := by
  refine .of_first nofun fun level => .advance ?_
  split
  · rename_i hnumber
    refine decimalOf_uses.bind fun _ n hnone => .pure ⟨level, ?_, hnumber⟩
    rw [hnone]
    rfl
  · split
    · exact .pure ⟨level, rfl, ‹_›⟩
    · exact .fail

theorem levelOf_uses {p : Position} {written : Option Nat} :
    Uses (levelOf p written) fun used prec => used = [] ∧ match written with
      | none => prec = maxPrec
      | some _ => prec < maxPrec := by
  cases written with
  | none => exact .pure ⟨rfl, rfl⟩
  | some n =>
    rw [levelOf]
    split
    · exact .fail
    · exact .pure ⟨rfl, Int.not_le.mp ‹_›⟩

theorem notationStatement_uses {fixity : Fixity} (hkeyword : keyword.text = fixity.keyword) :
    UsesFrom keyword (notationStatement sig fixity) fun used d => d.IsStatedBy used := by
  refine .advance (.expect (fun _ => rfl) fun term _ => ?_)
  refine .expect (fun _ => rfl) fun colon _ => .expect (fun _ => rfl) fun math _ => ?_
  dsimp only
  split
  · exact .fail
  refine .expect (fun _ => rfl) fun prec _ => .peek fun next => ?_
  refine precedence_uses.bind fun _ written hwritten => ?_
  obtain ⟨level, rfl, hform⟩ := hwritten
  refine .expect (fun _ => rfl) fun semicolon _ => ?_
  split
  · exact .fail
  refine levelOf_uses.bind fun _ value hvalue => ?_
  obtain ⟨rfl, hvalue⟩ := hvalue
  refine .pure (.notated (.statement hkeyword rfl rfl ?_))
  cases written with
  | none => exact .inl ⟨hform, hvalue⟩
  | some written => exact .inr ⟨hform, hvalue⟩

theorem charsOf_holdsCharsOf (text : String) : (Delimiters.charsOf text).HoldsCharsOf text := by
  intro s
  refine StringSet.mem_ofList.trans (List.mem_map.trans ⟨?_, ?_⟩)
  · intro ⟨c, hc, hs⟩
    obtain ⟨hc, hblank⟩ := List.mem_filter.mp hc
    exact ⟨c, hc, by simpa using hblank, hs.symm⟩
  · intro ⟨c, hc, hblank, hs⟩
    exact ⟨c, List.mem_filter.mpr ⟨hc, by simpa using hblank⟩, hs.symm⟩

theorem delimiterStatement_uses (hkeyword : keyword.text = "delimiter") :
    UsesFrom keyword delimiterStatement fun used d => d.IsStatedBy used := by
  refine .advance (.expect (fun _ => rfl) fun left _ => .peek fun next => ?_)
  have holds := charsOf_holdsCharsOf
  split
  · refine .expect (fun _ => rfl) fun right _ => .expect (fun _ => rfl) fun semicolon _ => ?_
    exact .pure (.sidedDelimiters hkeyword (holds _) (holds _))
  · refine .expect (fun _ => rfl) fun semicolon _ => ?_
    exact .pure (.delimiters hkeyword (holds _) (holds _))

/-- What a statement declares is what its tokens say. -/
theorem statement_uses : Uses (statement sig) fun used d => d.IsStatedBy used := by
  refine .of_first (fun stop d s' h => ?_) fun keyword => .peek ?_
  · obtain ⟨_, _, hpeek, h⟩ := reader_bind_eq_ok_iff.mp h
    cases hpeek
    split at h
    · cases h
    · rename_i hword
      exact absurd rfl hword
  split
  · exact .of_uses .fail
  split
  · exact .of_uses sortStatement_uses
  split
  · exact termStatement_uses ‹_›
  split
  · exact definitionStatement_uses ‹_›
  split
  · exact delimiterStatement_uses ‹_›
  split
  · rename_i hkind
    have hkeyword := List.find?_some hkind
    exact assertionStatement_uses (of_decide_eq_true hkeyword).symm
  · rename_i hfixity
    have hkeyword := List.find?_some hfixity
    exact notationStatement_uses (of_decide_eq_true hkeyword).symm
  · split
    · exact .of_uses .fail
    · exact .of_uses .fail

end Declaration
end Deductive
