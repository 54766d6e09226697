import Deductive.Formula.Token
import Deductive.Text.Identifier

/-!
The grammar of formulas. It is ambiguous: where an infix token follows, the operand before it may
go on or leave the token to an operand around it. An operand is maximal if it always goes on. Every
formula of the grammar has exactly one reading in which all operands are maximal, and these are the
longest operands that there are.
-/
namespace Deductive.Grammar

variable (sig : Signature)

/-- What may be read as an operand at a level: the tokens up to a rest, with a value. -/
abbrev OperandRelation := Int → List MathToken → Expr → List MathToken → Prop

/-- The token is an infix token that binds as tightly as the level at least. -/
def Infix (level : Int) (t : MathToken) (op : Notation) : Prop :=
  sig.notations.get? t.text = some op ∧ op.fixity.isInfix = true ∧ level ≤ op.prec

section

variable (operand : OperandRelation)

/-- Some operands at the highest level, one after the other. -/
inductive Arguments : Nat → List MathToken → List Expr → List MathToken → Prop
  | none {ts : List MathToken} : Arguments 0 ts [] ts
  | more {n : Nat} {ts mid rest : List MathToken} {e : Expr} {es : List Expr}
      (first : operand maxPrec ts e mid) (others : Arguments n mid es rest) :
      Arguments (n + 1) ts (e :: es) rest

/-- An operand that does not begin with another operand. -/
inductive Primary (level : Int) : List MathToken → Expr → List MathToken → Prop
  | parenthesized {opening closing : MathToken} {ts rest : List MathToken} {e : Expr}
      (opens : opening.text = "(") (inner : operand 0 ts e (closing :: rest))
      (closes : closing.text = ")") : Primary level (opening :: ts) e rest
  | prefixed {t : MathToken} {n : Notation} {ts rest : List MathToken} {e : Expr}
      (notated : sig.notations.get? t.text = some n) (fixity : n.fixity.isInfix = false)
      (binds : level ≤ n.prec) (inner : operand n.prec ts e rest) :
      Primary level (t :: ts) (.app n.term [e]) rest
  | name {t : MathToken} {rest : List MathToken}
      (plain : sig.notations.get? t.text = none) (undeclared : sig.terms.get? t.text = none)
      (identifier : Text.isIdentifier t.text = true) : Primary level (t :: rest) (.var t.text) rest
  | constant {t : MathToken} {term : TermDecl} {rest : List MathToken}
      (plain : sig.notations.get? t.text = none) (declared : sig.terms.get? t.text = some term)
      (arity : term.arity = 0) : Primary level (t :: rest) (.app term.name []) rest
  | application {t : MathToken} {term : TermDecl} {ts rest : List MathToken} {args : List Expr}
      (plain : sig.notations.get? t.text = none) (declared : sig.terms.get? t.text = some term)
      (low : level < maxPrec) (arguments : Arguments operand term.arity ts args rest) :
      Primary level (t :: ts) (.app term.name args) rest

/-- Infix tokens with the operands on their right, folded to the left. -/
inductive Climb (level : Int) : Expr → List MathToken → Expr → List MathToken → Prop
  | done {lhs : Expr} {ts : List MathToken} : Climb level lhs ts lhs ts
  | more {lhs rhs e : Expr} {t : MathToken} {op : Notation} {ts mid rest : List MathToken}
      (operator : Infix sig level t op) (right : operand op.rightLevel ts rhs mid)
      (next : Climb level (.app op.term [lhs, rhs]) mid e rest) : Climb level lhs (t :: ts) e rest

end

/-- With at most `n` operands around one another; `ends` says what may follow an operand. -/
def Operand (ends : Int → List MathToken → Prop) : Nat → OperandRelation
  | 0, _, _, _, _ => False
  | n + 1, level, ts, e, rest =>
    ∃ lhs mid, Primary sig (Operand ends n) level ts lhs mid ∧
      Climb sig (Operand ends n) level lhs mid e rest ∧ ends level rest

/-- Anything may follow an operand. -/
def Derivable : Nat → OperandRelation := Operand sig fun _ _ => True

/-- No infix token is next that an operand at the level could go on with. -/
def Ended (level : Int) (ts : List MathToken) : Prop :=
  ∀ t rest op, ts = t :: rest → ¬ Infix sig level t op

/-- Every operand goes on as long as it can. -/
def Maximal : Nat → OperandRelation := Operand sig (Ended sig)

variable {sig}

/-! More operands around one another allow more readings. -/

section

variable {operand operand' : OperandRelation}

theorem Arguments.mono (h : ∀ level ts e rest, operand level ts e rest → operand' level ts e rest)
    {n : Nat} {ts rest : List MathToken} {es : List Expr}
    (ha : Arguments operand n ts es rest) : Arguments operand' n ts es rest := by
  induction ha with
  | none => exact .none
  | more first _ ih => exact .more (h _ _ _ _ first) ih

theorem Arguments.of_zero {ts rest : List MathToken} {es : List Expr}
    (h : Arguments operand 0 ts es rest) : es = [] ∧ ts = rest := by
  cases h
  exact ⟨rfl, rfl⟩

theorem Primary.mono (h : ∀ level ts e rest, operand level ts e rest → operand' level ts e rest)
    {level : Int} {ts rest : List MathToken} {e : Expr}
    (hp : Primary sig operand level ts e rest) : Primary sig operand' level ts e rest := by
  cases hp with
  | parenthesized opens inner closes => exact .parenthesized opens (h _ _ _ _ inner) closes
  | prefixed notated fixity binds inner => exact .prefixed notated fixity binds (h _ _ _ _ inner)
  | name plain undeclared identifier => exact .name plain undeclared identifier
  | constant plain declared arity => exact .constant plain declared arity
  | application plain declared low arguments =>
    exact .application plain declared low (arguments.mono h)

theorem Climb.mono (h : ∀ level ts e rest, operand level ts e rest → operand' level ts e rest)
    {level : Int} {ts rest : List MathToken} {lhs e : Expr}
    (hc : Climb sig operand level lhs ts e rest) : Climb sig operand' level lhs ts e rest := by
  induction hc with
  | done => exact .done
  | more operator right _ ih => exact .more operator (h _ _ _ _ right) ih

end

theorem Operand.succ {ends : Int → List MathToken → Prop} {n : Nat} :
    ∀ level ts e rest, Operand sig ends n level ts e rest →
      Operand sig ends (n + 1) level ts e rest := by
  induction n with
  | zero => nofun
  | succ n ih =>
    intro level ts e rest ⟨lhs, mid, hprimary, hclimb, hend⟩
    exact ⟨lhs, mid, hprimary.mono ih, hclimb.mono ih, hend⟩

theorem Operand.mono {ends : Int → List MathToken → Prop} {m n : Nat} (h : m ≤ n) :
    ∀ level ts e rest, Operand sig ends m level ts e rest →
      Operand sig ends n level ts e rest := by
  induction h with
  | refl => exact fun _ _ _ _ ho => ho
  | step _ ih => exact fun level ts e rest ho => Operand.succ level ts e rest (ih _ _ _ _ ho)

theorem Maximal.derivable {n : Nat} :
    ∀ level ts e rest, Maximal sig n level ts e rest → Derivable sig n level ts e rest := by
  induction n with
  | zero => nofun
  | succ n ih =>
    intro level ts e rest ⟨lhs, mid, hprimary, hclimb, _⟩
    exact ⟨lhs, mid, hprimary.mono ih, hclimb.mono ih, trivial⟩

/-! What is read becomes shorter. -/

theorem Arguments.length_le {operand : OperandRelation}
    (h : ∀ level ts e rest, operand level ts e rest → rest.length < ts.length)
    {n : Nat} {ts rest : List MathToken} {es : List Expr}
    (ha : Arguments operand n ts es rest) : rest.length ≤ ts.length := by
  induction ha with
  | none => exact Nat.le_refl _
  | more first _ ih => exact Nat.le_trans ih (Nat.le_of_lt (h _ _ _ _ first))

theorem Primary.length_lt {operand : OperandRelation}
    (h : ∀ level ts e rest, operand level ts e rest → rest.length < ts.length)
    {level : Int} {ts rest : List MathToken} {e : Expr}
    (hp : Primary sig operand level ts e rest) : rest.length < ts.length := by
  cases hp with
  | parenthesized _ inner _ =>
    have := h _ _ _ _ inner
    simp only [List.length_cons] at this ⊢
    omega
  | prefixed _ _ _ inner => exact Nat.lt_succ_of_lt (h _ _ _ _ inner)
  | name => exact Nat.lt_succ_self _
  | constant => exact Nat.lt_succ_self _
  | application _ _ _ arguments => exact Nat.lt_succ_of_le (arguments.length_le h)

theorem Climb.length_le {operand : OperandRelation}
    (h : ∀ level ts e rest, operand level ts e rest → rest.length < ts.length)
    {level : Int} {ts rest : List MathToken} {lhs e : Expr}
    (hc : Climb sig operand level lhs ts e rest) : rest.length ≤ ts.length := by
  induction hc with
  | done => exact Nat.le_refl _
  | more _ right _ ih => exact Nat.le_trans ih (Nat.le_succ_of_le (Nat.le_of_lt (h _ _ _ _ right)))

theorem Operand.length_lt {ends : Int → List MathToken → Prop} {n : Nat} :
    ∀ level ts e rest, Operand sig ends n level ts e rest → rest.length < ts.length := by
  induction n with
  | zero => nofun
  | succ n ih =>
    intro level ts e rest ⟨lhs, mid, hprimary, hclimb, _⟩
    exact Nat.lt_of_le_of_lt (hclimb.length_le ih) (hprimary.length_lt ih)

/-! What comes after an operand. -/

theorem Infix.mono {p q : Int} {t : MathToken} {op : Notation} (h : Infix sig q t op)
    (hpq : p ≤ q) : Infix sig p t op :=
  ⟨h.1, h.2.1, Int.le_trans hpq h.2.2⟩

theorem Infix.unique {p q : Int} {t : MathToken} {op op' : Notation} (h : Infix sig p t op)
    (h' : Infix sig q t op') : op = op' :=
  Option.some.inj (h.1.symm.trans h'.1)

theorem Infix.le_rightLevel {p : Int} {t : MathToken} {op : Notation} (h : Infix sig p t op) :
    p ≤ op.rightLevel := by
  obtain ⟨_, _, hprec⟩ := h
  unfold Notation.rightLevel
  split
  · omega
  · exact hprec

theorem Ended.mono {p q : Int} {ts : List MathToken} (h : Ended sig p ts) (hpq : p ≤ q) :
    Ended sig q ts :=
  fun t rest op hts hop => h t rest op hts (hop.mono hpq)

theorem ended_nil {p : Int} : Ended sig p [] := nofun

theorem ended_of_plain {p : Int} {t : MathToken} {ts : List MathToken}
    (h : sig.notations.get? t.text = none) : Ended sig p (t :: ts) := by
  intro t' rest op hts hop
  cases hts
  obtain ⟨hget, _⟩ := hop
  rw [h] at hget
  cases hget

variable (sig) in
/-- Parentheses are neither notations nor terms. -/
structure PlainParentheses : Prop where
  opening : sig.notations.get? "(" = none
  closing : sig.notations.get? ")" = none
  openingTerm : sig.terms.get? "(" = none
  closingTerm : sig.terms.get? ")" = none

theorem PlainParentheses.ne_of_notated (hp : PlainParentheses sig) {s : String} {n : Notation}
    (h : sig.notations.get? s = some n) : s ≠ "(" ∧ s ≠ ")" := by
  constructor
  · rintro rfl
    rw [hp.opening] at h
    cases h
  · rintro rfl
    rw [hp.closing] at h
    cases h

theorem PlainParentheses.ne_of_declared (hp : PlainParentheses sig) {s : String} {term : TermDecl}
    (h : sig.terms.get? s = some term) : s ≠ "(" ∧ s ≠ ")" := by
  constructor
  · rintro rfl
    rw [hp.openingTerm] at h
    cases h
  · rintro rfl
    rw [hp.closingTerm] at h
    cases h

/-- An operand does not begin with an infix token. -/
theorem Primary.ended (hp : PlainParentheses sig) {operand : OperandRelation} {level q : Int}
    {ts rest : List MathToken} {e : Expr} (h : Primary sig operand level ts e rest) :
    Ended sig q ts := by
  cases h with
  | parenthesized opens _ _ => exact ended_of_plain (by rw [opens]; exact hp.opening)
  | name plain _ _ => exact ended_of_plain plain
  | constant plain _ _ => exact ended_of_plain plain
  | application plain _ _ _ => exact ended_of_plain plain
  | prefixed notated fixity _ _ =>
    intro t rest op hts hop
    cases hts
    obtain ⟨hget, hinfix, _⟩ := hop
    rw [notated] at hget
    cases hget
    rw [fixity] at hinfix
    cases hinfix

theorem Arguments.ended (hp : PlainParentheses sig) {ends : Int → List MathToken → Prop}
    {n k : Nat} {q : Int} {ts rest : List MathToken} {es : List Expr}
    (h : Arguments (Operand sig ends n) (k + 1) ts es rest) : Ended sig q ts := by
  cases h with
  | more first _ =>
    cases n with
    | zero => cases first
    | succ n =>
      obtain ⟨_, _, hprimary, _⟩ := first
      exact hprimary.ended hp

/-! The operand before an infix token may take the token, and what comes after it, from an operand
around it: the tokens of both stay the same, but for the place where the one ends. -/

theorem Climb.trans {operand : OperandRelation} {p : Int} {l e e' : Expr}
    {ts mid rest : List MathToken} (h : Climb sig operand p l ts e mid)
    (h' : Climb sig operand p e mid e' rest) : Climb sig operand p l ts e' rest := by
  induction h with
  | done => exact h'
  | more operator right _ ih => exact .more operator right (ih h')

/-- The tokens are cut before the first infix token that binds less tightly than `q`. -/
theorem Climb.split {operand : OperandRelation} {p : Int} {l e : Expr} {ts rest : List MathToken}
    (h : Climb sig operand p l ts e rest) (q : Int) (l' : Expr) :
    ∃ mid e', Climb sig operand q l' ts e' mid ∧
      (∃ lhs e'', Climb sig operand p lhs mid e'' rest) ∧ (mid = rest ∨ Ended sig q mid) := by
  induction h generalizing l' with
  | done => exact ⟨_, l', .done, ⟨l', l', .done⟩, .inl rfl⟩
  | more operator right next ih =>
    rename_i lhs rhs e t op ts mid rest
    by_cases hq : q ≤ op.prec
    · obtain ⟨mid', e', hclimb, hrest, hend⟩ := ih (.app op.term [l', rhs])
      exact ⟨mid', e', .more ⟨operator.1, operator.2.1, hq⟩ right hclimb, hrest, hend⟩
    · refine ⟨t :: ts, l', .done, ⟨lhs, e, .more operator right next⟩, .inr ?_⟩
      intro t' rest' op' hts hop'
      cases hts
      obtain rfl := hop'.unique operator
      exact hq hop'.2.2

theorem Derivable.extend {n : Nat} {q : Int} {ts mid rest : List MathToken} {e e' : Expr}
    (h : Derivable sig n q ts e mid) (hc : Climb sig (Derivable sig n) q e mid e' rest) :
    Derivable sig (n + 1) q ts e' rest := by
  cases n with
  | zero => cases h
  | succ n =>
    obtain ⟨lhs, m, hprimary, hclimb, _⟩ := h
    exact ⟨lhs, m, hprimary.mono Operand.succ, (hclimb.mono Operand.succ).trans hc, trivial⟩

/-- An operand at `q` that is followed by more of an operand at a lower level, up to `rest`, takes
as much of it as it can. -/
theorem Derivable.absorb {n : Nat} {p q : Int} {l e e' : Expr} {ts mid rest : List MathToken}
    (h : Derivable sig n q ts e mid) (hc : Climb sig (Derivable sig n) p l mid e' rest) :
    ∃ mid' e'', Derivable sig (n + 1) q ts e'' mid' ∧
      (∃ l' e₁, Climb sig (Derivable sig n) p l' mid' e₁ rest) ∧
      (mid' = rest ∨ Ended sig q mid') := by
  obtain ⟨mid', e'', hclimb, hrest, hend⟩ := hc.split q e
  exact ⟨mid', e'', h.extend hclimb, hrest, hend⟩

/-! Every formula of the grammar has a reading with maximal operands. The induction is on the
number of tokens: an operand is made longer by `Derivable.absorb` before its own reading is made
maximal, so that the induction is not on the derivation. -/

section

variable {b : Nat}

/-- Operands with fewer than `b` tokens before the end of the text can be read with maximal
operands. -/
def Settles (sig : Signature) (b : Nat) : Prop :=
  ∀ ts : List MathToken, ts.length < b → ∀ n q e rest, Derivable sig n q ts e rest →
    Ended sig q rest → ∃ m e', Maximal sig m q ts e' rest

theorem Settles.operand (hs : Settles sig b) {n : Nat} {p q : Int} {l e e' : Expr}
    {ts mid rest : List MathToken} (hb : ts.length < b) (hpq : p ≤ q)
    (h : Derivable sig n q ts e mid) (hc : Climb sig (Derivable sig n) p l mid e' rest)
    (hend : Ended sig p rest) :
    ∃ m e'' mid', Maximal sig m q ts e'' mid' ∧
      ∃ l' e₁, Climb sig (Derivable sig n) p l' mid' e₁ rest := by
  obtain ⟨mid', e'', hd, hclimb, hmid⟩ := h.absorb hc
  have hend' : Ended sig q mid' := by
    rcases hmid with rfl | hmid
    · exact hend.mono hpq
    · exact hmid
  obtain ⟨m, e₂, hmax⟩ := hs ts hb _ _ _ _ hd hend'
  exact ⟨m, e₂, mid', hmax, hclimb⟩

/-- Arguments but for the last one are followed by an operand, which ends them. -/
theorem Settles.arguments (hp : PlainParentheses sig) (hs : Settles sig b) {k n : Nat} {p : Int}
    {l e : Expr} {es : List Expr} {ts mid rest : List MathToken} (hb : ts.length < b)
    (hlow : p ≤ maxPrec) (h : Arguments (Derivable sig n) k ts es mid)
    (hc : Climb sig (Derivable sig n) p l mid e rest) (hend : Ended sig p rest) :
    ∃ m es' mid', Arguments (Maximal sig m) k ts es' mid' ∧
      ∃ l' e', Climb sig (Derivable sig n) p l' mid' e' rest := by
  induction h with
  | none => exact ⟨0, [], _, .none, l, e, hc⟩
  | more first others ih =>
    rename_i k ts mid₁ mid e₁ es
    have hlt := Operand.length_lt _ _ _ _ first
    cases others with
    | none =>
      obtain ⟨m, e₂, mid', hmax, hclimb⟩ := hs.operand hb hlow first hc hend
      exact ⟨m, [e₂], mid', .more hmax .none, hclimb⟩
    | more second others =>
      have hend₁ : Ended sig maxPrec mid₁ := Arguments.ended hp (.more second others)
      obtain ⟨m₁, e₂, hmax⟩ := hs ts hb _ _ _ _ first hend₁
      obtain ⟨m₂, es', mid', hargs, hclimb⟩ := ih (Nat.lt_trans hlt hb) hc
      refine ⟨max m₁ m₂, e₂ :: es', mid', .more ?_ (hargs.mono ?_), hclimb⟩
      · exact Operand.mono (Nat.le_max_left m₁ m₂) _ _ _ _ hmax
      · exact Operand.mono (Nat.le_max_right m₁ m₂)

theorem Settles.primary (hp : PlainParentheses sig) (hs : Settles sig b) {n : Nat} {p : Int}
    {l e : Expr} {ts mid rest : List MathToken} (hb : ts.length ≤ b)
    (h : Primary sig (Derivable sig n) p ts l mid)
    (hc : Climb sig (Derivable sig n) p l mid e rest) (hend : Ended sig p rest) :
    ∃ m l' mid', Primary sig (Maximal sig m) p ts l' mid' ∧
      ∃ l'' e', Climb sig (Derivable sig n) p l'' mid' e' rest := by
  cases h with
  | parenthesized opens inner closes =>
    obtain ⟨m, e', hmax⟩ := hs _ hb _ _ _ _ inner
      (ended_of_plain (by rw [closes]; exact hp.closing))
    exact ⟨m, e', mid, .parenthesized opens hmax closes, l, e, hc⟩
  | prefixed notated fixity binds inner =>
    obtain ⟨m, e', mid', hmax, hclimb⟩ := hs.operand hb binds inner hc hend
    exact ⟨m, _, mid', .prefixed notated fixity binds hmax, hclimb⟩
  | name plain undeclared identifier =>
    exact ⟨0, _, mid, .name plain undeclared identifier, _, e, hc⟩
  | constant plain declared arity =>
    exact ⟨0, _, mid, .constant plain declared arity, _, e, hc⟩
  | application plain declared low arguments =>
    obtain ⟨m, es', mid', hargs, hclimb⟩ :=
      hs.arguments hp hb (Int.le_of_lt low) arguments hc hend
    exact ⟨m, _, mid', .application plain declared low hargs, hclimb⟩

theorem Settles.climb (hs : Settles sig b) {n : Nat} {p : Int} {rest : List MathToken}
    (hend : Ended sig p rest) :
    ∀ k (ts : List MathToken), ts.length ≤ k → ts.length ≤ b → ∀ l e,
      Climb sig (Derivable sig n) p l ts e rest →
      ∃ m, ∀ l', ∃ e', Climb sig (Maximal sig m) p l' ts e' rest := by
  intro k
  induction k with
  | zero =>
    intro ts hk _ l e h
    cases h with
    | done => exact ⟨0, fun l' => ⟨l', .done⟩⟩
    | more => cases hk
  | succ k ih =>
    intro ts hk hb l e h
    cases h with
    | done => exact ⟨0, fun l' => ⟨l', .done⟩⟩
    | more operator right next =>
      obtain ⟨m₁, rhs', mid', hmax, l₁, e₁, hclimb⟩ :=
        hs.operand hb operator.le_rightLevel right next hend
      have hlt := Operand.length_lt _ _ _ _ hmax
      simp only [List.length_cons] at hk hb
      obtain ⟨m₂, hrest⟩ := ih mid' (by omega) (by omega) l₁ e₁ hclimb
      refine ⟨max m₁ m₂, fun l' => ?_⟩
      obtain ⟨e', he'⟩ := hrest (.app _ [l', rhs'])
      exact ⟨e', .more operator (Operand.mono (Nat.le_max_left m₁ m₂) _ _ _ _ hmax)
        (he'.mono (Operand.mono (Nat.le_max_right m₁ m₂)))⟩

theorem settles (hp : PlainParentheses sig) : Settles sig b := by
  induction b with
  | zero => nofun
  | succ b ih =>
    intro ts hb n p e rest hd hend
    cases n with
    | zero => cases hd
    | succ n =>
      obtain ⟨lhs, mid, hprimary, hclimb, _⟩ := hd
      have hb := Nat.le_of_lt_succ hb
      obtain ⟨m₁, l', mid', hmax, l₁, e₁, hrest⟩ := ih.primary hp hb hprimary hclimb hend
      have hlt := hmax.length_lt Operand.length_lt
      obtain ⟨m₂, hclimbs⟩ :=
        ih.climb hend _ mid' (Nat.le_refl _) (Nat.le_trans (Nat.le_of_lt hlt) hb) l₁ e₁ hrest
      obtain ⟨e', he'⟩ := hclimbs l'
      exact ⟨max m₁ m₂ + 1, e', l', mid',
        hmax.mono (Operand.mono (Nat.le_max_left m₁ m₂)),
        he'.mono (Operand.mono (Nat.le_max_right m₁ m₂)), hend⟩

end

/-- An operand that no infix token goes on has a reading in which all operands are maximal. -/
theorem Derivable.exists_maximal (hp : PlainParentheses sig) {n : Nat} {p : Int} {e : Expr}
    {ts rest : List MathToken} (h : Derivable sig n p ts e rest) (hend : Ended sig p rest) :
    ∃ m e', Maximal sig m p ts e' rest :=
  settles hp ts (Nat.lt_succ_self _) n p e rest h hend

end Deductive.Grammar
