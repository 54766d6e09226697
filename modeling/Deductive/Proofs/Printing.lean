import Deductive.Formula.Writer
import Deductive.Proofs.Joining
import Deductive.Proofs.Reading
import Deductive.Proofs.Registry

/-!
Formulas are read back from the text that they are written as. The operand that is read for a
written one ends where that ends: nothing that follows binds tightly enough to go on its last
operand.
-/
namespace Deductive

open Grammar

theorem Notation.rightLevel_eq (n : Notation) (h : n.fixity ≠ .leftAssoc) :
    n.rightLevel = n.prec := by
  unfold rightLevel
  split
  · exact absurd (by assumption) h
  · rfl

theorem Notation.le_leftLevel (n : Notation) : n.prec ≤ n.leftLevel := by
  unfold leftLevel
  split <;> omega

theorem Notation.le_rightLevel (n : Notation) : n.prec ≤ n.rightLevel := by
  unfold rightLevel
  split <;> omega

namespace Layout

/-- The level of the last operand, which an infix token goes on that binds as tightly. -/
def edge : Layout → Int
  | between n => n.rightLevel
  | before n => n.rightLevel
  | _ => maxPrec

/-- The operands around one another in an application from those in its arguments. The operand
before an infix token is read as the beginning of the one that goes on with it. -/
def nesting : Layout → List Nat → Nat
  | between _, [l, r] => max l (r + 1)
  | _, args => args.foldr max 0 + 1

theorem level_le_edge (layout : Layout) : layout.level ≤ layout.edge := by
  cases layout with
  | constant => decide
  | named => decide
  | between n => exact n.le_rightLevel
  | before n => exact n.le_rightLevel

theorem nesting_pos (layout : Layout) (args : List Nat) : 0 < layout.nesting args := by
  unfold nesting
  split <;> omega

/-- The tokens of an application at a level from those that it has without parentheses. -/
def enclose (layout : Layout) (level : Int) (tokens : List String) : List String :=
  if layout.level < level then parenthesize tokens else tokens

end Layout

mutual

/-- The operands around one another when an expression that is written at a level is read. -/
def Expr.nesting (sig : Signature) (level : Int) : Expr → Nat
  | .var _ => 1
  | .app term args =>
    let layout := sig.layout term args.length
    let inner := layout.nesting (Expr.nestings sig layout 0 args)
    if layout = .constant then inner
    else if layout.level < level then inner + 1
    else inner

/-- The nesting of each argument of an application, the first being the one at place `i`. -/
def Expr.nestings (sig : Signature) (layout : Layout) (i : Nat) : List Expr → List Nat
  | [] => []
  | e :: es => e.nesting sig (layout.argumentLevel i) :: Expr.nestings sig layout (i + 1) es

end

namespace Signature

variable {sig : Signature} {f : Name} {n : Notation} {k : Nat}

theorem writtenAs?_eq_some (h : sig.writtenAs? f = some n) :
    n ∈ sig.notations.values ∧ n.term = f :=
  ⟨List.mem_of_find?_eq_some h, by simpa using List.find?_some h⟩

theorem layout_constant_iff : sig.layout f k = .constant ↔ k = 0 := by
  unfold layout
  constructor
  · intro h
    split at h
    · assumption
    · split at h
      · cases h
      · split at h
        · split at h <;> cases h
        · cases h
  · intro h
    rw [if_pos h]

theorem layout_eq_between (h : sig.layout f k = .between n) :
    sig.writtenAs? f = some n ∧ n.fixity.isInfix = true ∧ k = 2 := by
  unfold layout at h
  split at h
  · cases h
  split at h
  · cases h
  · split at h
    · split at h
      · rename_i harity hbinary
        cases h
        exact ⟨by assumption, hbinary, by simpa [Fixity.arity, hbinary] using harity.symm⟩
      · cases h
    · cases h

theorem layout_eq_before (h : sig.layout f k = .before n) :
    sig.writtenAs? f = some n ∧ n.fixity.isInfix = false ∧ k = 1 := by
  unfold layout at h
  split at h
  · cases h
  split at h
  · cases h
  · split at h
    · split at h
      · cases h
      · rename_i harity hbinary
        cases h
        have hprefix := Bool.eq_false_iff.mpr hbinary
        exact ⟨by assumption, hprefix, by simpa [Fixity.arity, hprefix] using harity.symm⟩
    · cases h

/-- A token without a notation. -/
structure IsPlain (sig : Signature) (s : String) : Prop where
  token : sig.delimiters.IsToken s
  plain : sig.notations.get? s = none

/-- A notation that its own token stands for. -/
structure IsNotated (sig : Signature) (n : Notation) (s : String) : Prop where
  named : n.token = s
  token : sig.delimiters.IsToken s
  notated : sig.notations.get? s = some n
  prec : 0 ≤ n.prec

end Signature

namespace Expr

variable {sig : Signature} {f : Name} {p : Int}

theorem tokens_app {args : List Expr} {layout : Layout} (hl : sig.layout f args.length = layout)
    (hne : layout ≠ .constant) :
    (app f args).tokens sig p = layout.enclose p
      (layout.assemble (toString (layout.symbol f)) (tokensAll sig layout 0 args)) := by
  rw [tokens, hl, if_neg hne, Layout.enclose]

theorem tokens_before {n : Notation} {s : String} {arg : Expr} (hl : sig.layout f 1 = .before n)
    (hs : sig.IsNotated n s) :
    (app f [arg]).tokens sig p =
      (Layout.before n).enclose p (s :: arg.tokens sig n.rightLevel) := by
  rw [tokens_app hl (by simp), Layout.symbol, hs.named]
  simp only [Layout.assemble, tokensAll, List.flatten_cons, List.flatten_nil, List.append_nil]
  rfl

theorem tokens_between {n : Notation} {s : String} {l r : Expr} (hl : sig.layout f 2 = .between n)
    (hs : sig.IsNotated n s) :
    (app f [l, r]).tokens sig p = (Layout.between n).enclose p
      (l.tokens sig n.leftLevel ++ s :: r.tokens sig n.rightLevel) := by
  rw [tokens_app hl (by simp), Layout.symbol, hs.named]
  rfl

/-- How an application with arguments is written that stands at the level without parentheses. -/
def openLayout? (sig : Signature) (level : Int) : Expr → Option Layout
  | .var _ => none
  | .app term args =>
    let layout := sig.layout term args.length
    if layout = .constant ∨ layout.level < level then none else some layout

/-- Every part of the expression is written as tokens that stand for it, and no operand before an
infix token ends with one that the token binds as tightly as. -/
inductive Legible (sig : Signature) : Expr → Prop
  | var {x : String} (symbol : sig.IsPlain x) (undeclared : sig.terms.get? x = none)
      (identifier : Text.isIdentifier x = true) : Legible sig (.var x)
  | constant {f : String} {term : TermDecl} (symbol : sig.IsPlain f)
      (declared : sig.terms.get? f = some term) (named : term.name = f) (arity : term.arity = 0) :
      Legible sig (.app f [])
  | named {f : String} {term : TermDecl} {args : List Expr}
      (layout : sig.layout f args.length = .named) (symbol : sig.IsPlain f)
      (declared : sig.terms.get? f = some term) (named : term.name = f)
      (arity : term.arity = args.length) (arguments : ∀ a ∈ args, Legible sig a) :
      Legible sig (.app f args)
  | before {f : Name} {n : Notation} {s : String} {arg : Expr}
      (layout : sig.layout f 1 = .before n) (symbol : sig.IsNotated n s)
      (argument : Legible sig arg) : Legible sig (.app f [arg])
  | between {f : Name} {n : Notation} {s : String} {l r : Expr}
      (layout : sig.layout f 2 = .between n) (symbol : sig.IsNotated n s)
      (left : Legible sig l) (right : Legible sig r)
      (parted : ∀ layout, l.openLayout? sig n.leftLevel = some layout → n.prec < layout.edge) :
      Legible sig (.app f [l, r])

end Expr

namespace Grammar

variable {sig : Signature} {n : Nat} {p p₀ : Int} {e : Expr} {ts rest : List MathToken}

/-- An operand that might go on. -/
def Begins (sig : Signature) (n : Nat) (level : Int) (ts : List MathToken) (e : Expr)
    (rest : List MathToken) : Prop :=
  ∃ lhs mid, Primary sig (Maximal sig n) level ts lhs mid ∧
    Climb sig (Maximal sig n) level lhs mid e rest

theorem Begins.maximal (h : Begins sig n p ts e rest) (hend : Ended sig p rest) :
    Maximal sig (n + 1) p ts e rest := by
  obtain ⟨lhs, mid, hprimary, hclimb⟩ := h
  exact ⟨lhs, mid, hprimary, hclimb, hend⟩

/-- The texts are read as the expression, at the level or a lower one, where nothing follows that goes
on its last operand. -/
def ReadsFrom (sig : Signature) (e : Expr) (p : Int) (texts : List String) : Prop :=
  ∀ n p₀ ts rest, p₀ ≤ p → ts.map MathToken.text = texts → e.nesting sig p ≤ n + 1 →
    (∀ layout, e.openLayout? sig p = some layout → Ended sig layout.edge rest) →
    Begins sig n p₀ (ts ++ rest) e rest

/-- What the expression is written as is read as the expression. -/
def ReadsBack (sig : Signature) (e : Expr) : Prop := ∀ p, ReadsFrom sig e p (e.tokens sig p)

theorem ended_edge {layout : Layout} (hend : Ended sig p rest)
    (ho : e.openLayout? sig p = some layout) : Ended sig layout.edge rest := by
  cases e with
  | var x => cases ho
  | app f args =>
    simp only [Expr.openLayout?] at ho
    split at ho
    · cases ho
    · rename_i hopen
      cases ho
      exact hend.mono (Int.le_trans (Int.not_lt.mp fun h => hopen (.inr h)) (Layout.level_le_edge _))

theorem nesting_pos : 0 < e.nesting sig p := by
  cases e with
  | var x =>
    rw [Expr.nesting]
    exact Nat.one_pos
  | app f args =>
    have := (sig.layout f args.length).nesting_pos (Expr.nestings sig (sig.layout f args.length) 0 args)
    simp only [Expr.nesting]
    split
    · exact this
    · split <;> omega

/-- At a higher level parentheses may be around the expression. -/
theorem nesting_mono {q : Int} (h : p ≤ q) : e.nesting sig p ≤ e.nesting sig q := by
  cases e with
  | var x => exact Nat.le_refl _
  | app f args =>
    simp only [Expr.nesting]
    split
    · exact Nat.le_refl _
    · split
      · rename_i hp
        rw [if_pos (Int.lt_of_lt_of_le hp h)]
      · split <;> omega

theorem ReadsFrom.operand {texts : List String} (h : ReadsFrom sig e p texts)
    (ht : ts.map MathToken.text = texts) (hn : e.nesting sig p ≤ n) (hend : Ended sig p rest) :
    Maximal sig n p (ts ++ rest) e rest := by
  cases n with
  | zero => exact absurd hn (Nat.not_le_of_lt nesting_pos)
  | succ n => exact (h n p ts rest (Int.le_refl p) ht hn fun _ => ended_edge hend).maximal hend

theorem ReadsFrom.arguments (hp : PlainParentheses sig) {args : List Expr}
    {texts : List (List String)} (h : List.Forall₂ (ReadsFrom sig · maxPrec ·) args texts) {i : Nat}
    (ht : ts.map MathToken.text = texts.flatten)
    (hn : (Expr.nestings sig .named i args).foldr max 0 ≤ n) (hend : Ended sig maxPrec rest) :
    Arguments (Maximal sig n) args.length (ts ++ rest) args rest := by
  induction h generalizing i ts with
  | nil =>
    rw [List.flatten_nil, List.map_eq_nil_iff] at ht
    rw [ht]
    exact .none
  | @cons a _ args _ ha _ ih =>
    rw [List.flatten_cons, List.map_eq_append_iff] at ht
    obtain ⟨ts₁, ts₂, rfl, ht₁, ht₂⟩ := ht
    rw [Expr.nestings, List.foldr_cons, Nat.max_le] at hn
    have others := ih ht₂ hn.2
    rw [List.append_assoc]
    refine .more (ha.operand ht₁ hn.1 ?_) others
    -- The argument is ended by the next one or by what follows the last one.
    cases args with
    | nil =>
      rw [(Arguments.of_zero others).2]
      exact hend
    | cons a' args => exact others.ended hp

/-- An application is read with its parentheses if it is read without them. -/
theorem ReadsFrom.of_open (hp : PlainParentheses sig) {f : Name} {args : List Expr} {layout : Layout}
    (hl : sig.layout f args.length = layout) (hne : layout ≠ .constant) (hlevel : 0 ≤ layout.level)
    {bare : List String}
    (h : ∀ n p₀ ts rest, p₀ ≤ layout.level → ts.map MathToken.text = bare →
      layout.nesting (Expr.nestings sig layout 0 args) ≤ n + 1 → Ended sig layout.edge rest →
      Begins sig n p₀ (ts ++ rest) (.app f args) rest) :
    ReadsFrom sig (.app f args) p (layout.enclose p bare) := by
  intro n p₀ ts rest hp₀ ht hn hend
  simp only [Expr.nesting, hl, if_neg hne] at hn
  by_cases hopen : layout.level < p
  · rw [Layout.enclose, if_pos hopen, parenthesize, List.cons_append, List.map_eq_cons_iff] at ht
    obtain ⟨opening, ts', rfl, hopening, ht⟩ := ht
    obtain ⟨inner, last, rfl, hinner, hlast⟩ := List.map_eq_append_iff.mp ht
    obtain ⟨closing, rfl, hclosing⟩ := List.map_eq_singleton_iff.mp hlast
    rw [if_pos hopen] at hn
    have hclosed (q : Int) : Ended sig q (closing :: rest) :=
      ended_of_plain (by rw [hclosing]; exact hp.closing)
    cases n with
    | zero =>
      have := layout.nesting_pos (Expr.nestings sig layout 0 args)
      omega
    | succ n =>
      have hbegins := h n 0 inner (closing :: rest) hlevel hinner (by omega) (hclosed _)
      rw [List.cons_append, List.append_assoc]
      exact ⟨_, _, .parenthesized hopening (hbegins.maximal (hclosed 0)) hclosing, .done⟩
  · rw [Layout.enclose, if_neg hopen] at ht
    rw [if_neg hopen] at hn
    refine h n p₀ ts rest (Int.le_trans hp₀ (Int.not_lt.mp hopen)) ht hn (hend layout ?_)
    simp only [Expr.openLayout?, hl, hne, hopen, or_self, ↓reduceIte]

theorem ReadsFrom.named (hp : PlainParentheses sig) {f : String} {term : TermDecl}
    {args : List Expr} (hl : sig.layout f args.length = .named) (hf : sig.IsPlain f)
    (ht : sig.terms.get? f = some term) (hname : term.name = f) (harity : term.arity = args.length)
    {texts : List (List String)} (h : List.Forall₂ (ReadsFrom sig · maxPrec ·) args texts) :
    ReadsFrom sig (.app f args) p (Layout.named.enclose p (f :: texts.flatten)) := by
  refine .of_open hp hl nofun (by decide) fun n p₀ ts rest hp₀ htexts hn hend => ?_
  obtain ⟨t, ts, rfl, htext, hargs⟩ := List.map_eq_cons_iff.mp htexts
  have hlow : p₀ < maxPrec := Int.lt_of_le_of_lt hp₀ (by decide)
  have arguments := ReadsFrom.arguments hp h hargs (Nat.le_of_succ_le_succ hn) hend
  rw [← harity] at arguments
  rw [← hname]
  exact ⟨_, _, .application (by rw [htext]; exact hf.plain) (by rw [htext]; exact ht) hlow arguments,
    .done⟩

theorem ReadsFrom.before (hp : PlainParentheses sig) {f : Name} {op : Notation} {s : String}
    {arg : Expr} (hl : sig.layout f 1 = .before op) (hs : sig.IsNotated op s) {texts : List String}
    (h : ReadsFrom sig arg op.rightLevel texts) :
    ReadsFrom sig (.app f [arg]) p ((Layout.before op).enclose p (s :: texts)) := by
  obtain ⟨hwritten, hfix, _⟩ := Signature.layout_eq_before hl
  have hright : op.rightLevel = op.prec := by
    apply op.rightLevel_eq
    intro hleft
    rw [hleft] at hfix
    cases hfix
  have hlevel : 0 ≤ (Layout.before op).level := hs.prec
  refine .of_open hp hl (by simp) hlevel fun n p₀ ts rest hp₀ htexts hn hend => ?_
  obtain ⟨t, ts, rfl, htext, harg⟩ := List.map_eq_cons_iff.mp htexts
  simp only [Expr.nestings, Layout.nesting, Layout.argumentLevel] at hn
  have inner := h.operand harg (n := n) (by simpa using hn) hend
  rw [hright] at inner
  rw [← (Signature.writtenAs?_eq_some hwritten).2]
  exact ⟨_, _, .prefixed (by rw [htext]; exact hs.notated) hfix hp₀ inner, .done⟩

/-- The operand before an infix token may be written at a lower level than it usually is, as long as
it does not end with an operand that the token goes on. -/
theorem ReadsFrom.between (hp : PlainParentheses sig) {f : Name} {op : Notation} {s : String}
    {l r : Expr} (hl : sig.layout f 2 = .between op) (hs : sig.IsNotated op s) {q : Int}
    (hq : op.prec ≤ q) (hq' : q ≤ op.leftLevel)
    (hparted : ∀ layout, l.openLayout? sig q = some layout → op.prec < layout.edge)
    {left right : List String} (hleft : ReadsFrom sig l q left)
    (hright : ReadsFrom sig r op.rightLevel right) :
    ReadsFrom sig (.app f [l, r]) p ((Layout.between op).enclose p (left ++ s :: right)) := by
  obtain ⟨hwritten, hfix, _⟩ := Signature.layout_eq_between hl
  have hlevel : 0 ≤ (Layout.between op).level := hs.prec
  refine .of_open hp hl (by simp) hlevel fun n p₀ ts rest hp₀ htexts hn hend => ?_
  obtain ⟨ts₁, ts', rfl, htexts₁, htexts'⟩ := List.map_eq_append_iff.mp htexts
  obtain ⟨t, ts₂, rfl, htext, htexts₂⟩ := List.map_eq_cons_iff.mp htexts'
  obtain ⟨hn₁, hn₂⟩ := Nat.max_le.mp hn
  have hn₁ : l.nesting sig q ≤ n + 1 := Nat.le_trans (nesting_mono hq') hn₁
  have hop : Infix sig p₀ t op := ⟨by rw [htext]; exact hs.notated, hfix, hp₀⟩
  have hend₁ : ∀ layout, l.openLayout? sig q = some layout →
      Ended sig layout.edge (t :: (ts₂ ++ rest)) := by
    intro layout ho t' rest' op' he hop'
    cases he
    obtain rfl := hop'.unique hop
    exact Int.not_le.mpr (hparted layout ho) hop'.2.2
  obtain ⟨lhs, mid, hprimary, hclimb⟩ :=
    hleft n p₀ ts₁ (t :: (ts₂ ++ rest)) (Int.le_trans hp₀ hq) htexts₁ hn₁ hend₁
  have right := hright.operand htexts₂ (Nat.le_of_succ_le_succ hn₂) hend
  rw [List.append_assoc, List.cons_append, ← (Signature.writtenAs?_eq_some hwritten).2]
  exact ⟨lhs, mid, hprimary, hclimb.trans (.more hop right .done)⟩

theorem forall₂_tokensAll {args : List Expr} (h : ∀ a ∈ args, ReadsBack sig a) {i : Nat} :
    List.Forall₂ (ReadsFrom sig · maxPrec ·) args (Expr.tokensAll sig .named i args) := by
  induction args generalizing i with
  | nil => exact .nil
  | cons a args ih =>
    obtain ⟨ha, hargs⟩ := List.forall_mem_cons.mp h
    exact .cons (ha maxPrec) (ih hargs)

end Grammar

/-- What is legible is read back. -/
theorem Expr.Legible.readsBack {sig : Signature} (hp : PlainParentheses sig) {e : Expr}
    (h : e.Legible sig) : ReadsBack sig e := by
  induction h with
  | @var x symbol undeclared identifier =>
    intro p n p₀ ts rest _ ht _ _
    obtain ⟨t, rfl, htext⟩ := List.map_eq_singleton_iff.mp ht
    obtain rfl : t.text = x := htext
    exact ⟨_, _, .name symbol.plain undeclared identifier, .done⟩
  | @constant f term symbol declared named arity =>
    intro p n p₀ ts rest _ ht _ _
    obtain ⟨t, rfl, htext⟩ := List.map_eq_singleton_iff.mp ht
    obtain rfl : t.text = f := htext
    rw [← named]
    exact ⟨_, _, .constant symbol.plain declared arity, .done⟩
  | named layout symbol declared named arity _ ih =>
    intro p
    rw [tokens_app layout nofun]
    exact .named hp layout symbol declared named arity (forall₂_tokensAll ih)
  | before layout symbol _ ih =>
    intro p
    rw [tokens_before layout symbol]
    exact .before hp layout symbol (ih _)
  | @between f n s l r layout symbol _ _ parted ihl ihr =>
    intro p
    rw [tokens_between layout symbol]
    exact .between hp layout symbol n.le_leftLevel (Int.le_refl _) parted (ihl _) (ihr _)

namespace Expr

variable {sig : Signature} {e : Expr}

theorem mem_tokensAll {layout : Layout} {i : Nat} {es : List Expr} {ts : List String}
    (h : ts ∈ tokensAll sig layout i es) : ∃ e ∈ es, ∃ p, ts = e.tokens sig p := by
  induction es generalizing i with
  | nil => cases h
  | cons e es ih =>
    rw [tokensAll] at h
    rcases List.mem_cons.mp h with rfl | h
    · exact ⟨e, List.mem_cons_self, _, rfl⟩
    · obtain ⟨e', he', hp⟩ := ih h
      exact ⟨e', List.mem_cons_of_mem _ he', hp⟩

/-- Beside its symbol and parentheses, an application has the tokens of its arguments. -/
theorem mem_tokens_app {f : Name} {args : List Expr} {p : Int} {t : String}
    (h : t ∈ (Expr.app f args).tokens sig p) :
    t = "(" ∨ t = ")" ∨ t = toString ((sig.layout f args.length).symbol f) ∨
      ∃ a ∈ args, ∃ q, t ∈ a.tokens sig q := by
  have hassemble {layout : Layout} {s : String} {tokens : List (List String)}
      (h : t ∈ layout.assemble s tokens) : t = s ∨ ∃ ts ∈ tokens, t ∈ ts := by
    unfold Layout.assemble at h
    split at h
    · simpa [or_left_comm] using h
    · simpa using h
  have hbare {layout : Layout} {s : String} (h : t ∈ layout.assemble s (tokensAll sig layout 0 args)) :
      t = s ∨ ∃ a ∈ args, ∃ q, t ∈ a.tokens sig q := by
    rcases hassemble h with rfl | ⟨ts, hts, ht⟩
    · exact .inl rfl
    · obtain ⟨a, ha, q, rfl⟩ := mem_tokensAll hts
      exact .inr ⟨a, ha, q, ht⟩
  simp only [tokens] at h
  split at h
  · exact .inr (.inr (hbare h))
  split at h
  · simp only [parenthesize, List.cons_append, List.mem_cons, List.mem_append, List.not_mem_nil,
      or_false] at h
    rcases h with rfl | h | rfl
    · exact .inl rfl
    · exact .inr (.inr (hbare h))
    · exact .inr (.inl rfl)
  · exact .inr (.inr (hbare h))

/-- Parentheses, variables, plain names of terms and tokens of notations are all tokens that a legible
expression is written with. -/
theorem Legible.forall_tokens {P : String → Prop} (hopening : P "(") (hclosing : P ")")
    (hvar : ∀ x, sig.IsPlain x → Text.isIdentifier x = true → P x)
    (hterm : ∀ f term, sig.IsPlain f → sig.terms.get? f = some term → P f)
    (hnotated : ∀ n s, sig.IsNotated n s → P s) (h : e.Legible sig) {p : Int} :
    ∀ t ∈ e.tokens sig p, P t := by
  -- Beside the symbol of an application, its arguments remain.
  have happ {f : Name} {args : List Expr} {p : Int}
      (hs : P (toString ((sig.layout f args.length).symbol f)))
      (ha : ∀ a ∈ args, ∀ {q : Int}, ∀ t ∈ a.tokens sig q, P t) :
      ∀ t ∈ (Expr.app f args).tokens sig p, P t := by
    intro t ht
    rcases mem_tokens_app ht with rfl | rfl | rfl | ⟨a, hm, q, ht⟩
    · exact hopening
    · exact hclosing
    · exact hs
    · exact ha a hm t ht
  induction h generalizing p with
  | var symbol _ identifier =>
    intro t ht
    obtain rfl := List.mem_singleton.mp ht
    exact hvar _ symbol identifier
  | constant symbol declared _ _ => exact happ (hterm _ _ symbol declared) nofun
  | named layout symbol declared _ _ _ ih =>
    exact happ (layout ▸ hterm _ _ symbol declared) ih
  | before layout symbol _ ih =>
    refine happ ?_ (List.forall_mem_singleton.mpr ih)
    rw [List.length_singleton, layout, Layout.symbol, symbol.named]
    exact hnotated _ _ symbol
  | between layout symbol _ _ _ ihl ihr =>
    refine happ ?_ (List.forall_mem_cons.mpr ⟨ihl, List.forall_mem_singleton.mpr ihr⟩)
    change P (toString ((sig.layout _ 2).symbol _))
    rw [layout, Layout.symbol, symbol.named]
    exact hnotated _ _ symbol

theorem Legible.isToken (h : e.Legible sig) {p : Int} :
    ∀ t ∈ e.tokens sig p, sig.delimiters.IsToken t :=
  forall_tokens Delimiters.isToken_opening Delimiters.isToken_closing (fun _ hplain _ => hplain.token)
    (fun _ _ hplain _ => hplain.token) (fun _ _ hnotated => hnotated.token) h

/-- The text of a legible expression, also with white space around it, is read as the expression,
or given up as too deeply nested. -/
theorem Legible.parseMath (hp : PlainParentheses sig) (hd : sig.delimiters.AreCharacters)
    (h : e.Legible sig) {text : String} {before after : List Char} (start : Position)
    (htext : text.toList = before ++ ((e.format sig).toList ++ after))
    (hbefore : ∀ c ∈ before, Text.isBlank c = true) (hafter : ∀ c ∈ after, Text.isBlank c = true) :
    (e.nesting sig 0 ≤ nestingLimit → Deductive.parseMath text sig start = .ok e) ∧
      (Deductive.parseMath text sig start = .ok e ∨
        Deductive.parseMath text sig start = .error ⟨start, .mathTooDeep⟩) := by
  have htokens : (tokenizeMath text sig.delimiters start).map MathToken.text = e.tokens sig 0 := by
    rw [tokenizeMath, htext]
    exact mathTokens_joinMath hd h.isToken hbefore hafter
  have hmax {n : Nat} (hn : e.nesting sig 0 ≤ n) :
      Maximal sig n 0 (tokenizeMath text sig.delimiters start) e [] := by
    have := (h.readsBack hp 0).operand htokens hn ended_nil
    rwa [List.append_nil] at this
  have hlt := Operand.length_lt _ _ _ _ (hmax (Nat.le_refl _))
  unfold Deductive.parseMath
  cases ht : tokenizeMath text sig.delimiters start with
  | nil =>
    rw [ht] at hlt
    cases hlt
  | cons t ts =>
    rw [ht] at hmax
    dsimp only
    constructor
    · intro hn
      have hread := (MathContext.whole_eq_ok_iff ⟨sig, start, start.right text.length⟩ hp).mpr
        ⟨hmax hn, rfl⟩
      rw [hread]
    · rcases MathContext.whole_of_maximal ⟨sig, start, start.right text.length⟩ hp
        (hmax (Nat.le_refl _)) with hread | ⟨rest, hread⟩
      · exact .inl (by rw [hread])
      · exact .inr (by rw [hread])

end Expr

/-! What a signature and an expression have to be like to be legible. -/

namespace Signature

/-- The name is one token, and no parenthesis. -/
def IsSymbol (sig : Signature) (name : Name) : Prop :=
  ∃ s : String, name = s ∧ sig.delimiters.IsToken s ∧ s ≠ "(" ∧ s ≠ ")"

theorem IsSymbol.of_chars {sig : Signature} {s : String} (hne : s.toList ≠ [])
    (hsolid : s.toList.all (fun c => !Text.isBlank c) = true)
    (hwhole : (∃ c, s.toList = [c] ∧ sig.delimiters.separates c = true) ∨
      s.toList.all (fun c => !sig.delimiters.separates c) = true)
    (hs : s ≠ "(" ∧ s ≠ ")") : sig.IsSymbol s :=
  ⟨s, rfl, .of_chars hne hsolid hwhole, hs⟩

/-- Notations and names of terms are different tokens, and no infix notation to the left binds just
as tightly as a notation of another fixity. -/
structure Printable (sig : Signature) : Prop where
  notations : ∀ token n, sig.notations.get? token = some n →
    n.token = token ∧ 0 ≤ n.prec ∧ sig.IsSymbol token ∧
      ∃ term, sig.terms.get? n.term = some term ∧ term.arity = n.fixity.arity
  terms : ∀ name term, sig.terms.get? name = some term →
    term.name = name ∧ sig.IsSymbol name ∧ sig.notations.get? name = none
  delimiters : sig.delimiters.AreCharacters
  parted : ∀ f g m n, sig.writtenAs? f = some m → sig.writtenAs? g = some n →
    m.fixity = .leftAssoc → n.fixity ≠ .leftAssoc → m.prec ≠ n.prec

variable {sig : Signature}

theorem Printable.plainParentheses (h : sig.Printable) : PlainParentheses sig := by
  have hsymbol {s : String} (hs : s = "(" ∨ s = ")") : sig.notations.get? s = none := by
    cases hn : sig.notations.get? s with
    | none => rfl
    | some n =>
      obtain ⟨_, _, ⟨s', he, _, hopening, hclosing⟩, _⟩ := h.notations _ _ hn
      cases he
      exact absurd hs (not_or.mpr ⟨hopening, hclosing⟩)
  have hterm {s : String} (hs : s = "(" ∨ s = ")") : sig.terms.get? s = none := by
    cases ht : sig.terms.get? s with
    | none => rfl
    | some term =>
      obtain ⟨_, ⟨s', he, _, hopening, hclosing⟩, _⟩ := h.terms _ _ ht
      cases he
      exact absurd hs (not_or.mpr ⟨hopening, hclosing⟩)
  exact ⟨hsymbol (.inl rfl), hsymbol (.inr rfl), hterm (.inl rfl), hterm (.inr rfl)⟩

theorem Printable.isPlain (h : sig.Printable) {f : Name} {term : TermDecl}
    (ht : sig.terms.get? f = some term) : ∃ s : String, f = s ∧ sig.IsPlain s := by
  obtain ⟨_, ⟨s, rfl, htoken, _⟩, hplain⟩ := h.terms _ _ ht
  exact ⟨s, rfl, htoken, hplain⟩

theorem Printable.isNotated (h : sig.Printable) {f : Name} {n : Notation}
    (hn : sig.writtenAs? f = some n) : ∃ s, sig.IsNotated n s := by
  obtain ⟨token, htoken⟩ := Registry.mem_values_iff.mp (writtenAs?_eq_some hn).1
  obtain ⟨rfl, hprec, ⟨s, hs, hone, _⟩, _⟩ := h.notations _ _ htoken
  exact ⟨s, hs, hone, hs ▸ htoken, hprec⟩

/-- The operand before an infix token ends with one that the token does not go on. -/
theorem Printable.parted_left (h : sig.Printable) {f : Name} {n : Notation} {e : Expr}
    {layout : Layout} (hn : sig.writtenAs? f = some n) (hbinary : n.fixity.isInfix = true)
    (ho : e.openLayout? sig n.leftLevel = some layout) : n.prec < layout.edge := by
  cases e with
  | var x => cases ho
  | app g args =>
    simp only [Expr.openLayout?] at ho
    split at ho
    · cases ho
    rename_i hopen
    obtain ⟨hne, hlevel⟩ := not_or.mp hopen
    obtain rfl := Option.some.inj ho
    have hlevel := Int.not_lt.mp hlevel
    have hedge := (sig.layout g args.length).level_le_edge
    by_cases hleft : n.fixity = .leftAssoc
    · rw [show n.leftLevel = n.prec by simp [Notation.leftLevel, hleft]] at hlevel
      have hapart {m : Notation} (hm : sig.writtenAs? g = some m) (hfix : m.fixity ≠ .leftAssoc)
          (hprec : n.prec ≤ m.prec) : n.prec < m.rightLevel := by
        have := h.parted _ _ _ _ hn hm hleft hfix
        unfold Notation.rightLevel
        split <;> omega
      cases hl : sig.layout g args.length with
      | constant => exact absurd hl hne
      | named =>
        rw [hl] at hlevel
        exact Int.lt_of_le_of_lt hlevel (by decide)
      | before m =>
        rw [hl] at hlevel
        obtain ⟨hm, hprefix, _⟩ := layout_eq_before hl
        refine hapart hm (fun hmleft => ?_) hlevel
        rw [hmleft] at hprefix
        cases hprefix
      | between m =>
        rw [hl] at hlevel
        obtain ⟨hm, _, _⟩ := layout_eq_between hl
        by_cases hmleft : m.fixity = .leftAssoc
        · have : m.rightLevel = m.prec + 1 := by simp [Notation.rightLevel, hmleft]
          change n.prec < m.rightLevel
          change n.prec ≤ m.prec at hlevel
          omega
        · exact hapart hm hmleft hlevel
    · have hright : n.fixity = .rightAssoc := by
        cases hfix : n.fixity with
        | prefixed => simp [hfix, Fixity.isInfix] at hbinary
        | leftAssoc => exact absurd hfix hleft
        | rightAssoc => rfl
      have : n.leftLevel = n.prec + 1 := by simp [Notation.leftLevel, hright]
      omega

end Signature

namespace Expr

/-- Applications are of declared terms to as many arguments as they take, and variables are
identifiers that stand for nothing else. -/
inductive Printable (sig : Signature) : Expr → Prop
  | var {x : String} (identifier : Text.isIdentifier x = true) (undeclared : sig.terms.get? x = none)
      (plain : sig.notations.get? x = none) (token : sig.delimiters.IsToken x) :
      Printable sig (.var x)
  | app {f : Name} {term : TermDecl} {args : List Expr} (declared : sig.terms.get? f = some term)
      (arity : args.length = term.arity) (arguments : ∀ a ∈ args, Printable sig a) :
      Printable sig (.app f args)

variable {sig : Signature} {e : Expr}

theorem Printable.of_isSymbol {x : String} (identifier : Text.isIdentifier x = true)
    (undeclared : sig.terms.get? x = none) (plain : sig.notations.get? x = none)
    (symbol : sig.IsSymbol x) : (Expr.var x).Printable sig := by
  obtain ⟨_, he, htoken, _⟩ := symbol
  cases he
  exact .var identifier undeclared plain htoken

theorem Printable.legible (hs : sig.Printable) (h : e.Printable sig) : e.Legible sig := by
  induction h with
  | var identifier undeclared plain token => exact .var ⟨token, plain⟩ undeclared identifier
  | @app f term args declared arity _ ih =>
    cases hl : sig.layout f args.length with
    | constant =>
      obtain rfl := List.eq_nil_of_length_eq_zero (Signature.layout_constant_iff.mp hl)
      obtain ⟨s, rfl, hplain⟩ := hs.isPlain declared
      exact .constant hplain declared (hs.terms _ _ declared).1 arity.symm
    | named =>
      obtain ⟨s, rfl, hplain⟩ := hs.isPlain declared
      exact .named hl hplain declared (hs.terms _ _ declared).1 arity.symm ih
    | before n =>
      obtain ⟨hwritten, _, hlength⟩ := Signature.layout_eq_before hl
      obtain ⟨a, rfl⟩ := List.length_eq_one_iff.mp hlength
      obtain ⟨s, hsymbol⟩ := hs.isNotated hwritten
      exact .before hl hsymbol (ih a List.mem_cons_self)
    | between n =>
      obtain ⟨hwritten, hbinary, hlength⟩ := Signature.layout_eq_between hl
      obtain ⟨s, hsymbol⟩ := hs.isNotated hwritten
      obtain ⟨l, args, rfl⟩ := List.exists_cons_of_length_eq_add_one hlength
      obtain ⟨r, rfl⟩ := List.length_eq_one_iff.mp (Nat.succ.inj hlength)
      exact .between hl hsymbol (ih l (by simp)) (ih r (by simp)) fun _ =>
        hs.parted_left hwritten hbinary

/-- What is printed is read back: the text of an expression as the expression, and its tokens at any
level as an operand at the level, which ends where the tokens end. A text is at most given up as too
deeply nested, never read as another expression. -/
theorem Printable.reads_back (hs : sig.Printable) (h : e.Printable sig) :
    (∀ start, e.nesting sig 0 ≤ nestingLimit → parseMath (e.format sig) sig start = .ok e) ∧
      (∀ start, parseMath (e.format sig) sig start = .ok e ∨
        parseMath (e.format sig) sig start = .error ⟨start, .mathTooDeep⟩) ∧
      ∀ start stop n level ts rest, ts.map MathToken.text = e.tokens sig level →
        e.nesting sig level ≤ n → Ended sig level rest →
          MathContext.operand ⟨sig, start, stop⟩ n level (ts ++ rest) = .ok e rest := by
  have hp := hs.plainParentheses
  have hlegible := h.legible hs
  have hwhole : (e.format sig).toList = [] ++ ((e.format sig).toList ++ []) := by simp
  have htext (start : Position) := hlegible.parseMath hp hs.delimiters start hwhole nofun nofun
  refine ⟨fun start => (htext start).1, fun start => (htext start).2, ?_⟩
  intro start stop n level ts rest ht hn hend
  exact (MathContext.operand_readsAs hp n _ _ _ _).mpr ((hlegible.readsBack hp level).operand ht hn hend)

end Expr

namespace Implication

theorem mem_delimiters {s : String} (h : s ∈ signature.delimiters.left ∨ s ∈ signature.delimiters.right) :
    s = "(" ∨ s = "~" ∨ s = ")" := by
  rcases h with h | h
  · simpa [or_assoc] using (.inl (StringSet.mem_ofList.mp h) : s ∈ ["(", "~"] ∨ s = ")")
  · simpa [or_assoc] using (.inr (List.mem_singleton.mp (StringSet.mem_ofList.mp h)) :
      s ∈ ["(", "~"] ∨ s = ")")

theorem signature_printable : signature.Printable where
  notations := by
    intro token n h
    have hmem := Registry.mem_of_get?_ofList h
    simp only [notations, List.map_cons, List.map_nil, List.mem_cons, List.not_mem_nil, or_false,
      Prod.mk.injEq] at hmem
    rcases hmem with ⟨rfl, rfl⟩ | ⟨rfl, rfl⟩
    · exact ⟨rfl, by decide, .of_chars (by decide) (by decide) (.inr (by decide)) (by decide),
        _, rfl, rfl⟩
    · exact ⟨rfl, by decide, .of_chars (by decide) (by decide) (.inl ⟨'~', rfl, by decide⟩) (by decide),
        _, rfl, rfl⟩
  terms := by
    intro name term h
    have hmem := Registry.mem_of_get?_ofList h
    simp only [terms, List.map_cons, List.map_nil, List.mem_cons, List.not_mem_nil, or_false,
      Prod.mk.injEq] at hmem
    rcases hmem with ⟨rfl, rfl⟩ | ⟨rfl, rfl⟩
    · exact ⟨rfl, .of_chars (by decide) (by decide) (.inr (by decide)) (by decide), rfl⟩
    · exact ⟨rfl, .of_chars (by decide) (by decide) (.inr (by decide)) (by decide), rfl⟩
  delimiters := by
    intro s h
    rcases mem_delimiters h with rfl | rfl | rfl
    · exact ⟨'(', rfl⟩
    · exact ⟨'~', rfl⟩
    · exact ⟨')', rfl⟩
  parted := by
    intro f g m n hm _ hleft
    have hmem := (Signature.writtenAs?_eq_some hm).1
    have hright : ∀ n ∈ signature.notations.values, n.fixity ≠ .leftAssoc := by decide
    exact absurd hleft (hright m hmem)

def nested : Expr :=
  .app "im" [.app "im" [.app "not" [.var "p"], .var "q"], .var "r"]

theorem nested_printable : nested.Printable signature := by
  have hp : (Expr.var "p").Printable signature := .of_isSymbol (by decide +kernel) rfl rfl
    (.of_chars (by decide) (by decide) (.inr (by decide)) (by decide))
  have hq : (Expr.var "q").Printable signature := .of_isSymbol (by decide +kernel) rfl rfl
    (.of_chars (by decide) (by decide) (.inr (by decide)) (by decide))
  have hr : (Expr.var "r").Printable signature := .of_isSymbol (by decide +kernel) rfl rfl
    (.of_chars (by decide) (by decide) (.inr (by decide)) (by decide))
  have himp : signature.terms.get? "im" = some terms[0] := rfl
  have hneg : signature.terms.get? "not" = some terms[1] := rfl
  have hnot : (Expr.app "not" [.var "p"]).Printable signature :=
    .app hneg rfl (List.forall_mem_singleton.mpr hp)
  have him : (Expr.app "im" [.app "not" [.var "p"], .var "q"]).Printable signature :=
    .app himp rfl (List.forall_mem_cons.mpr ⟨hnot, List.forall_mem_singleton.mpr hq⟩)
  exact .app himp rfl (List.forall_mem_cons.mpr ⟨him, List.forall_mem_singleton.mpr hr⟩)

theorem nested_reads_back :
    nested.format signature = "(~p -> q) -> r" ∧
      parseMath "(~p -> q) -> r" signature .start = .ok nested := by
  have hformat : nested.format signature = "(~p -> q) -> r" := by decide +kernel
  refine ⟨hformat, ?_⟩
  rw [← hformat]
  exact (nested_printable.reads_back signature_printable).1 .start (by decide +kernel)

end Implication

end Deductive
