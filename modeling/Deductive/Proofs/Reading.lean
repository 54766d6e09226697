import Deductive.Formula.Reader
import Deductive.Proofs.Grammar
import Deductive.Proofs.Results

/-!
The reader of formulas against their grammar: it finds the reading with maximal operands, and it
finds one wherever there is any reading, as far as it goes into the formula at all.
-/
namespace Deductive

namespace MathContext

open Grammar

variable {ctx : MathContext}

theorem next_eq_ok_iff {t : MathToken} {ts rest : List MathToken} :
    ctx.next ts = .ok t rest ↔ ts = t :: rest := by
  cases ts with
  | nil => simp [next]
  | cons t' ts => simp [next]

@[simp] theorem fail_ne_ok {α : Type} {p : Position} {cause : ParseCause}
    {ts rest : List MathToken} {a : α} : fail p cause ts ≠ .ok a rest := nofun

theorem infixAt?_eq_some_iff {level : Int} {t : MathToken} {op : Notation} :
    ctx.infixAt? level t = some op ↔ Infix ctx.signature level t op := by
  simp [infixAt?, Infix, Option.filter_eq_some_iff]

/-- The reader of operands reads what the relation says. -/
def ReadsAs (operand : Int → MathReader Expr) (relation : OperandRelation) : Prop :=
  ∀ level ts e rest, operand level ts = .ok e rest ↔ relation level ts e rest

section

variable {operand : Int → MathReader Expr} {relation : OperandRelation}

theorem ReadsAs.arguments (h : ReadsAs operand relation) {n : Nat} {ts rest : List MathToken}
    {es : List Expr} :
    MathContext.arguments operand n ts = .ok es rest ↔ Arguments relation n ts es rest := by
  induction n generalizing ts es rest with
  | zero =>
    rw [MathContext.arguments, reader_pure_eq_ok_iff]
    constructor
    · rintro ⟨rfl, rfl⟩
      exact .none
    · intro ha
      cases ha
      exact ⟨rfl, rfl⟩
  | succ n ih =>
    simp only [MathContext.arguments, reader_bind_eq_ok_iff, reader_pure_eq_ok_iff, h _ _ _ _, ih]
    constructor
    · rintro ⟨e, mid, first, es', _, others, rfl, rfl⟩
      exact .more first others
    · intro ha
      cases ha with
      | more first others => exact ⟨_, _, first, _, _, others, rfl, rfl⟩

theorem ReadsAs.parenthesized (h : ReadsAs operand relation) {ts rest : List MathToken} {e : Expr} :
    ctx.parenthesized operand ts = .ok e rest ↔
      ∃ closing, relation 0 ts e (closing :: rest) ∧ closing.text = ")" := by
  simp only [MathContext.parenthesized, reader_bind_eq_ok_iff, next_eq_ok_iff, h _ _ _ _]
  constructor
  · rintro ⟨e', _, inner, closing, rest', rfl, hclose⟩
    split at hclose
    · rename_i hc
      obtain ⟨rfl, rfl⟩ := reader_pure_eq_ok_iff.mp hclose
      exact ⟨closing, inner, hc⟩
    · exact absurd hclose fail_ne_ok
  · rintro ⟨closing, inner, hc⟩
    exact ⟨e, _, inner, closing, rest, rfl, by rw [if_pos hc]; rfl⟩

theorem ReadsAs.prefixed (h : ReadsAs operand relation) {level : Int} {t : MathToken} {n : Notation}
    {ts rest : List MathToken} {e : Expr} :
    MathContext.prefixed operand level t n ts = .ok e rest ↔
      n.fixity.isInfix = false ∧ level ≤ n.prec ∧
        ∃ arg, relation n.prec ts arg rest ∧ .app n.term [arg] = e := by
  unfold MathContext.prefixed
  by_cases hfix : n.fixity.isInfix = true
  · simp [hfix]
  by_cases hprec : n.prec < level
  · simp [hfix, hprec, Int.not_le.mpr hprec]
  rw [if_neg hfix, if_neg hprec]
  simp only [reader_bind_eq_ok_iff, reader_pure_eq_ok_iff, h _ _ _ _]
  constructor
  · rintro ⟨arg, _, inner, rfl, rfl⟩
    exact ⟨Bool.eq_false_iff.mpr hfix, Int.not_lt.mp hprec, arg, inner, rfl⟩
  · rintro ⟨_, _, arg, inner, rfl⟩
    exact ⟨arg, rest, inner, rfl, rfl⟩

theorem ReadsAs.application (h : ReadsAs operand relation) {level : Int} {t : MathToken}
    {term : TermDecl} {ts rest : List MathToken} {e : Expr} :
    MathContext.application operand level t term ts = .ok e rest ↔
      (term.arity = 0 ∧ .app term.name [] = e ∧ ts = rest) ∨
        (term.arity ≠ 0 ∧ level < maxPrec ∧
          ∃ args, Arguments relation term.arity ts args rest ∧ .app term.name args = e) := by
  unfold MathContext.application
  by_cases harity : term.arity = 0
  · simp [TermDecl.isConstant, harity, reader_pure_eq_ok_iff]
  by_cases hlevel : maxPrec ≤ level
  · simp [TermDecl.isConstant, harity, hlevel, Int.not_lt.mpr hlevel]
  rw [if_neg (by simpa [TermDecl.isConstant] using harity), if_neg hlevel]
  simp only [reader_bind_eq_ok_iff, reader_pure_eq_ok_iff, h.arguments, harity, false_and,
    false_or]
  constructor
  · rintro ⟨args, _, hargs, rfl, rfl⟩
    exact ⟨harity, Int.not_le.mp hlevel, args, hargs, rfl⟩
  · rintro ⟨_, _, args, hargs, rfl⟩
    exact ⟨args, rest, hargs, rfl, rfl⟩

theorem ne_of_identifier {s : String} (h : Text.isIdentifier s = true) : s ≠ "(" ∧ s ≠ ")" := by
  constructor
  · rintro rfl
    exact absurd h (by decide +kernel)
  · rintro rfl
    exact absurd h (by decide +kernel)

theorem ReadsAs.primary_sound (h : ReadsAs operand relation) {level : Int} {t : MathToken}
    {ts rest : List MathToken} {e : Expr} (hread : ctx.primary operand level (t :: ts) = .ok e rest) :
    Primary ctx.signature relation level (t :: ts) e rest := by
  obtain ⟨_, _, hnext, hread⟩ := reader_bind_eq_ok_iff.mp hread
  cases hnext
  by_cases hopen : t.text = "("
  · rw [if_pos hopen] at hread
    obtain ⟨closing, inner, hclose⟩ := h.parenthesized.mp hread
    exact .parenthesized hopen inner hclose
  by_cases hclose : t.text = ")"
  · rw [if_neg hopen, if_pos hclose] at hread
    exact absurd hread fail_ne_ok
  rw [if_neg hopen, if_neg hclose] at hread
  cases hn : ctx.signature.notations.get? t.text with
  | some n =>
    rw [hn] at hread
    obtain ⟨hfix, hprec, arg, inner, rfl⟩ := h.prefixed.mp hread
    exact .prefixed hn hfix hprec inner
  | none =>
    rw [hn] at hread
    cases ht : ctx.signature.terms.get? t.text with
    | some term =>
      rw [ht] at hread
      rcases h.application.mp hread with ⟨harity, rfl, rfl⟩ | ⟨_, hlow, args, hargs, rfl⟩
      · exact .constant hn ht harity
      · exact .application hn ht hlow hargs
    | none =>
      rw [ht] at hread
      by_cases hid : Text.isIdentifier t.text = true
      · obtain ⟨rfl, rfl⟩ := reader_pure_eq_ok_iff.mp (if_pos hid ▸ hread)
        exact .name hn ht hid
      · exact absurd (if_neg hid ▸ hread) fail_ne_ok

/-- What is read for a token that is no parenthesis. -/
theorem primary_of_plain {level : Int} {t : MathToken} {ts : List MathToken}
    (hplain : t.text ≠ "(" ∧ t.text ≠ ")") :
    ctx.primary operand level (t :: ts) =
      (match ctx.signature.notations.get? t.text with
        | some n => prefixed operand level t n
        | none =>
          match ctx.signature.terms.get? t.text with
          | some term => application operand level t term
          | none =>
            if Text.isIdentifier t.text then pure (.var t.text)
            else fail t.position (.unknownToken t.text)) ts := by
  change (if t.text = "(" then ctx.parenthesized operand
    else if t.text = ")" then fail t.position .closingParenthesis else _) ts = _
  exact congrFun ((if_neg hplain.1).trans (if_neg hplain.2)) ts

theorem ReadsAs.primary_complete (hp : PlainParentheses ctx.signature) (h : ReadsAs operand relation)
    {level : Int} {ts rest : List MathToken} {e : Expr}
    (hprimary : Primary ctx.signature relation level ts e rest) :
    ctx.primary operand level ts = .ok e rest := by
  cases hprimary with
  | parenthesized opens inner closes =>
    refine reader_bind_eq_ok_iff.mpr ⟨_, _, rfl, ?_⟩
    rw [if_pos opens]
    exact h.parenthesized.mpr ⟨_, inner, closes⟩
  | prefixed notated fixity binds inner =>
    rw [primary_of_plain (hp.ne_of_notated notated), notated]
    exact h.prefixed.mpr ⟨fixity, binds, _, inner, rfl⟩
  | name plain undeclared identifier =>
    rw [primary_of_plain (ne_of_identifier identifier), plain, undeclared]
    simp only [identifier, ↓reduceIte]
    rfl
  | constant plain declared arity =>
    rw [primary_of_plain (hp.ne_of_declared declared), plain, declared]
    exact h.application.mpr (.inl ⟨arity, rfl, rfl⟩)
  | @application t term ts _ args plain declared low arguments =>
    rw [primary_of_plain (hp.ne_of_declared declared), plain, declared]
    apply h.application.mpr
    by_cases harity : term.arity = 0
    · rw [harity] at arguments
      obtain ⟨rfl, rfl⟩ := arguments.of_zero
      exact .inl ⟨harity, rfl, rfl⟩
    · exact .inr ⟨harity, low, args, arguments, rfl⟩

theorem ReadsAs.primary (hp : PlainParentheses ctx.signature) (h : ReadsAs operand relation)
    {level : Int} {ts rest : List MathToken} {e : Expr} :
    ctx.primary operand level ts = .ok e rest ↔
      Primary ctx.signature relation level ts e rest := by
  constructor
  · intro hread
    cases ts with
    | nil => cases hread
    | cons t ts => exact h.primary_sound hread
  · exact h.primary_complete hp

theorem climb_of_none {level : Int} {n : Nat} {lhs : Expr} {t : MathToken} {ts : List MathToken}
    (hop : ctx.infixAt? level t = none) :
    ctx.climb operand level (n + 1) lhs (t :: ts) = .ok lhs (t :: ts) := by
  simp only [MathContext.climb, hop]

theorem climb_of_some {level : Int} {n : Nat} {lhs : Expr} {t : MathToken} {op : Notation}
    {ts : List MathToken} (hop : ctx.infixAt? level t = some op) :
    ctx.climb operand level (n + 1) lhs (t :: ts) =
      (operand op.rightLevel >>= fun rhs =>
        ctx.climb operand level n (.app op.term [lhs, rhs])) ts := by
  simp only [MathContext.climb, hop]

/-- The infix tokens are counted by the tokens that are left, of which every operand uses some. -/
theorem ReadsAs.climb (h : ReadsAs operand relation)
    (hlt : ∀ level ts e rest, relation level ts e rest → rest.length < ts.length)
    {level : Int} {n : Nat} {lhs e : Expr} {ts rest : List MathToken} (hn : ts.length ≤ n) :
    ctx.climb operand level n lhs ts = .ok e rest ↔
      Climb ctx.signature relation level lhs ts e rest ∧ Ended ctx.signature level rest := by
  induction n generalizing lhs ts with
  | zero =>
    obtain rfl := List.eq_nil_of_length_eq_zero (Nat.le_zero.mp hn)
    rw [MathContext.climb, reader_pure_eq_ok_iff]
    constructor
    · rintro ⟨rfl, rfl⟩
      exact ⟨.done, ended_nil⟩
    · rintro ⟨hclimb, _⟩
      cases hclimb
      exact ⟨rfl, rfl⟩
  | succ n ih =>
    cases ts with
    | nil =>
      constructor
      · intro hread
        cases hread
        exact ⟨.done, ended_nil⟩
      · rintro ⟨hclimb, _⟩
        cases hclimb
        rfl
    | cons t ts =>
      cases hop : ctx.infixAt? level t with
      | none =>
        rw [climb_of_none hop]
        have hnone (op : Notation) : ¬ Infix ctx.signature level t op := fun hbinary => by
          rw [infixAt?_eq_some_iff.mpr hbinary] at hop
          cases hop
        constructor
        · intro hread
          cases hread
          refine ⟨.done, fun t' rest' op hts => ?_⟩
          cases hts
          exact hnone op
        · rintro ⟨hclimb, _⟩
          cases hclimb with
          | done => rfl
          | more operator _ _ => exact absurd operator (hnone _)
      | some op =>
        have hbinary := infixAt?_eq_some_iff.mp hop
        rw [climb_of_some hop, reader_bind_eq_ok_iff]
        simp only [h _ _ _ _]
        constructor
        · rintro ⟨rhs, mid, right, hread⟩
          have hmid : mid.length ≤ n :=
            Nat.le_trans (Nat.le_of_lt (hlt _ _ _ _ right)) (Nat.le_of_succ_le_succ hn)
          obtain ⟨hclimb, hend⟩ := (ih hmid).mp hread
          exact ⟨.more hbinary right hclimb, hend⟩
        · rintro ⟨hclimb, hend⟩
          cases hclimb with
          | done => exact absurd hbinary (hend t ts op rfl)
          | more operator right next =>
            obtain rfl := operator.unique hbinary
            have hmid := Nat.le_trans (Nat.le_of_lt (hlt _ _ _ _ right))
              (Nat.le_of_succ_le_succ hn)
            exact ⟨_, _, right, (ih hmid).mpr ⟨next, hend⟩⟩

end

/-- The reader finds the maximal readings. -/
theorem operand_readsAs (hp : PlainParentheses ctx.signature) (n : Nat) :
    ReadsAs (ctx.operand n) (Maximal ctx.signature n) := by
  induction n with
  | zero =>
    intro level ts e rest
    exact iff_of_false fail_ne_ok nofun
  | succ n ih =>
    intro level ts e rest
    simp only [operand, reader_bind_eq_ok_iff, infixes, ih.primary hp,
      ih.climb Operand.length_lt (Nat.le_refl _)]
    exact ⟨fun ⟨lhs, mid, hprimary, hclimb, hend⟩ => ⟨lhs, mid, hprimary, hclimb, hend⟩,
      fun ⟨lhs, mid, hprimary, hclimb, hend⟩ => ⟨lhs, mid, hprimary, hclimb, hend⟩⟩

/-! A reader with a lower bound on nesting stops at the bound, or does what one with a higher bound
does. -/

/-- `x` says what `y` says, or that a formula is nested too deeply. -/
def Approximates {α : Type} (ctx : MathContext) (x y : MathReader α) : Prop :=
  ∀ ts, x ts = y ts ∨ ∃ rest, x ts = .error ⟨ctx.start, .mathTooDeep⟩ rest

theorem Approximates.refl {α : Type} (x : MathReader α) : ctx.Approximates x x :=
  fun _ => .inl rfl

theorem Approximates.bind {α β : Type} {x y : MathReader α} {f g : α → MathReader β}
    (h : ctx.Approximates x y) (hf : ∀ a, ctx.Approximates (f a) (g a)) :
    ctx.Approximates (x >>= f) (y >>= g) := by
  intro ts
  change EStateM.bind x f ts = EStateM.bind y g ts ∨ ∃ rest, EStateM.bind x f ts = _
  unfold EStateM.bind
  rcases h ts with he | ⟨rest, he⟩
  · rw [he]
    cases y ts with
    | ok a rest => exact hf a rest
    | error err rest => exact .inl rfl
  · rw [he]
    exact .inr ⟨rest, rfl⟩

section

variable {f g : Int → MathReader Expr}

theorem Approximates.arguments (h : ∀ level, ctx.Approximates (f level) (g level)) (n : Nat) :
    ctx.Approximates (MathContext.arguments f n) (MathContext.arguments g n) := by
  induction n with
  | zero => exact .refl _
  | succ n ih => exact (h maxPrec).bind fun e => ih.bind fun es => .refl _

theorem Approximates.primary (h : ∀ level, ctx.Approximates (f level) (g level)) (level : Int) :
    ctx.Approximates (ctx.primary f level) (ctx.primary g level) := by
  unfold MathContext.primary
  refine (Approximates.refl _).bind fun t => ?_
  split
  · exact (h 0).bind fun _ => .refl _
  split
  · exact .refl _
  split
  · unfold MathContext.prefixed
    split
    · exact .refl _
    split
    · exact .refl _
    · exact (h _).bind fun _ => .refl _
  split
  · unfold MathContext.application
    split
    · exact .refl _
    split
    · exact .refl _
    · exact (Approximates.arguments h _).bind fun _ => .refl _
  · exact .refl _

theorem Approximates.climb (h : ∀ level, ctx.Approximates (f level) (g level)) (level : Int)
    (n : Nat) (lhs : Expr) :
    ctx.Approximates (ctx.climb f level n lhs) (ctx.climb g level n lhs) := by
  induction n generalizing lhs with
  | zero => exact .refl _
  | succ n ih =>
    intro ts
    cases ts with
    | nil => exact .inl rfl
    | cons t ts =>
      cases hop : ctx.infixAt? level t with
      | none => exact .inl (by rw [climb_of_none hop, climb_of_none hop])
      | some op =>
        rw [climb_of_some hop, climb_of_some hop]
        exact (h _).bind (fun rhs => ih (.app op.term [lhs, rhs])) ts

end

theorem operand_approximates (n : Nat) (level : Int) :
    ctx.Approximates (ctx.operand n level) (ctx.operand (n + 1) level) := by
  induction n generalizing level with
  | zero => exact fun ts => .inr ⟨ts, rfl⟩
  | succ n ih =>
    refine (Approximates.primary ih level).bind fun lhs ts => ?_
    exact Approximates.climb ih level ts.length lhs ts

theorem operand_approximates_of_le {m n : Nat} (h : m ≤ n) (level : Int) :
    ctx.Approximates (ctx.operand m level) (ctx.operand n level) := by
  induction h with
  | refl => exact .refl _
  | step _ ih =>
    intro ts
    rcases ih ts with he | he
    · rw [he]
      exact operand_approximates _ level ts
    · exact .inr he

end MathContext

namespace Grammar

open MathContext

variable {sig : Signature}

/-- A reading with maximal operands is the one that the reader finds. -/
theorem Maximal.unique (hp : PlainParentheses sig) {m n : Nat} {p : Int} {e e' : Expr}
    {ts rest rest' : List MathToken} (h : Maximal sig m p ts e rest)
    (h' : Maximal sig n p ts e' rest') : e = e' ∧ rest = rest' := by
  have hread (k : Nat) : ReadsAs (operand ⟨sig, .start, .start⟩ k) (Maximal sig k) :=
    operand_readsAs hp k
  have h₁ := (hread _ _ _ _ _).mpr (Operand.mono (Nat.le_max_left m n) _ _ _ _ h)
  have h₂ := (hread _ _ _ _ _).mpr (Operand.mono (Nat.le_max_right m n) _ _ _ _ h')
  rw [h₁] at h₂
  cases h₂
  exact ⟨rfl, rfl⟩

/-! A maximal operand is a longest one. An operand that is shorter at first, with what follows it,
either ends before the maximal one does or leaves just as many tokens to what follows. -/

section

variable {relation : OperandRelation} {level : Int} {t : MathToken} {ts rest : List MathToken}
  {e : Expr}

theorem Primary.of_opening (hp : PlainParentheses sig) (opens : t.text = "(")
    (h : Primary sig relation level (t :: ts) e rest) :
    ∃ closing, relation 0 ts e (closing :: rest) ∧ closing.text = ")" := by
  have hsymbol := hp.opening
  have hterm := hp.openingTerm
  rw [← opens] at hsymbol hterm
  cases h with
  | parenthesized _ inner closes => exact ⟨_, inner, closes⟩
  | prefixed notated => simp [hsymbol] at notated
  | name _ _ identifier => exact absurd opens (ne_of_identifier identifier).1
  | constant _ declared => simp [hterm] at declared
  | application _ declared => simp [hterm] at declared

theorem Primary.of_notated (hp : PlainParentheses sig) {n : Notation}
    (hn : sig.notations.get? t.text = some n) (h : Primary sig relation level (t :: ts) e rest) :
    ∃ arg, relation n.prec ts arg rest := by
  cases h with
  | parenthesized opens =>
    rw [opens, hp.opening] at hn
    cases hn
  | prefixed notated _ _ inner =>
    obtain rfl := Option.some.inj (hn.symm.trans notated)
    exact ⟨_, inner⟩
  | name plain => simp [hn] at plain
  | constant plain => simp [hn] at plain
  | application plain => simp [hn] at plain

theorem Primary.of_identifier (hn : sig.notations.get? t.text = none)
    (ht : sig.terms.get? t.text = none) (identifier : Text.isIdentifier t.text = true)
    (h : Primary sig relation level (t :: ts) e rest) : rest = ts := by
  cases h with
  | parenthesized opens => exact absurd opens (ne_of_identifier identifier).1
  | prefixed notated => simp [hn] at notated
  | name => rfl
  | constant _ declared => simp [ht] at declared
  | application _ declared => simp [ht] at declared

theorem Primary.of_declared (hp : PlainParentheses sig) {term : TermDecl}
    (hn : sig.notations.get? t.text = none) (ht : sig.terms.get? t.text = some term)
    (h : Primary sig relation level (t :: ts) e rest) :
    ∃ args, Arguments relation term.arity ts args rest := by
  cases h with
  | parenthesized opens =>
    rw [opens, hp.openingTerm] at ht
    cases ht
  | prefixed notated => simp [hn] at notated
  | name _ undeclared => simp [ht] at undeclared
  | constant _ declared arity =>
    obtain rfl := Option.some.inj (ht.symm.trans declared)
    exact ⟨[], arity ▸ .none⟩
  | application _ declared _ arguments =>
    obtain rfl := Option.some.inj (ht.symm.trans declared)
    exact ⟨_, arguments⟩

end

section

variable {b m n : Nat} {p q : Int} {l l' e e₁ e₂ : Expr} {ts mid mid' rest rest' : List MathToken}

/-- Of fewer than `b` tokens no operand takes more than a maximal one. -/
def Longest (sig : Signature) (b : Nat) : Prop :=
  ∀ ts : List MathToken, ts.length < b → ∀ m n q e e' rest rest',
    Maximal sig m q ts e rest → Derivable sig n q ts e' rest' → rest.length ≤ rest'.length

theorem Longest.operand (hp : PlainParentheses sig) (hl : Longest sig b) (hb : ts.length < b)
    (hmax : Maximal sig m q ts e mid') (h : Derivable sig n q ts e₁ mid)
    (hc : Climb sig (Derivable sig n) p l mid e₂ rest) :
    mid'.length ≤ rest.length ∨ ∃ l' e', Climb sig (Derivable sig n) p l' mid' e' rest := by
  obtain ⟨mid₂, e', hd, hclimb, rfl | hend⟩ := h.absorb hc
  · exact .inl (hl ts hb _ _ _ _ _ _ _ hmax hd)
  · obtain ⟨k, e'', hmax'⟩ := hd.exists_maximal hp hend
    obtain ⟨_, rfl⟩ := hmax.unique hp hmax'
    exact .inr hclimb

theorem Longest.arguments (hp : PlainParentheses sig) (hl : Longest sig b) {k : Nat}
    {es es' : List Expr} (hb : ts.length < b)
    (hmax : Arguments (Maximal sig m) k ts es mid') (h : Arguments (Derivable sig n) k ts es' mid)
    (hc : Climb sig (Derivable sig n) p l mid e rest) :
    mid'.length ≤ rest.length ∨ ∃ l' e', Climb sig (Derivable sig n) p l' mid' e' rest := by
  induction hmax generalizing es' with
  | none =>
    obtain ⟨_, rfl⟩ := h.of_zero
    exact .inr ⟨l, e, hc⟩
  | more first others ih =>
    cases h with
    | more first' others' =>
      cases others' with
      | none =>
        obtain ⟨_, rfl⟩ := others.of_zero
        exact hl.operand hp hb first first' hc
      | more second others' =>
        have hend : Ended sig maxPrec _ := Arguments.ended hp (.more second others')
        obtain ⟨k', e', hmax'⟩ := first'.exists_maximal hp hend
        obtain ⟨_, rfl⟩ := first.unique hp hmax'
        exact ih (Nat.lt_trans (Operand.length_lt _ _ _ _ first) hb) (.more second others')

theorem Longest.primary (hp : PlainParentheses sig) (hl : Longest sig b) (hb : ts.length ≤ b)
    (hmax : Primary sig (Maximal sig m) p ts l' mid')
    (h : Primary sig (Derivable sig n) p ts l mid)
    (hc : Climb sig (Derivable sig n) p l mid e rest) :
    mid'.length ≤ rest.length ∨ ∃ l' e', Climb sig (Derivable sig n) p l' mid' e' rest := by
  cases hmax with
  | parenthesized opens inner closes =>
    obtain ⟨closing, inner', closes'⟩ := h.of_opening hp opens
    obtain ⟨k, e', hmax'⟩ := inner'.exists_maximal hp
      (ended_of_plain (by rw [closes']; exact hp.closing))
    obtain ⟨_, he⟩ := inner.unique hp hmax'
    cases he
    exact .inr ⟨l, e, hc⟩
  | prefixed notated _ _ inner =>
    obtain ⟨arg, inner'⟩ := h.of_notated hp notated
    exact hl.operand hp hb inner inner' hc
  | name plain undeclared identifier =>
    obtain rfl := h.of_identifier plain undeclared identifier
    exact .inr ⟨l, e, hc⟩
  | constant plain declared arity =>
    obtain ⟨args, hargs⟩ := h.of_declared hp plain declared
    obtain ⟨_, rfl⟩ := Arguments.of_zero (arity ▸ hargs)
    exact .inr ⟨l, e, hc⟩
  | application plain declared _ arguments =>
    obtain ⟨args, hargs⟩ := h.of_declared hp plain declared
    exact hl.arguments hp hb arguments hargs hc

theorem Longest.climb (hp : PlainParentheses sig) (hl : Longest sig b)
    (hend : Ended sig p rest) :
    ∀ k (ts : List MathToken), ts.length ≤ k → ts.length ≤ b → ∀ l l' e e',
      Climb sig (Maximal sig m) p l ts e rest → Climb sig (Derivable sig n) p l' ts e' rest' →
      rest.length ≤ rest'.length := by
  intro k
  induction k with
  | zero =>
    intro ts hk _ l l' e e' hmax _
    have := hmax.length_le Operand.length_lt
    omega
  | succ k ih =>
    intro ts hk hb l l' e e' hmax h
    cases h with
    | done => exact hmax.length_le Operand.length_lt
    | more operator right next =>
      cases hmax with
      | done => exact absurd operator (hend _ _ _ rfl)
      | more operator' right' next' =>
        obtain rfl := operator.unique operator'
        simp only [List.length_cons] at hk hb
        have hlt := Operand.length_lt _ _ _ _ right'
        rcases hl.operand hp hb right' right next with hle | ⟨l₁, e₁, hclimb⟩
        · exact Nat.le_trans (next'.length_le Operand.length_lt) hle
        · exact ih _ (by omega) (by omega) _ _ _ _ next' hclimb

theorem longest (hp : PlainParentheses sig) : Longest sig b := by
  induction b with
  | zero => nofun
  | succ b ih =>
    intro ts hb m n p e e' rest rest' hmax h
    have hb := Nat.le_of_lt_succ hb
    cases m with
    | zero => cases hmax
    | succ m =>
      cases n with
      | zero => cases h
      | succ n =>
        obtain ⟨l, mid, hprimary, hclimb, hend⟩ := hmax
        obtain ⟨l', mid', hprimary', hclimb', _⟩ := h
        have hlt := hprimary.length_lt Operand.length_lt
        rcases ih.primary hp hb hprimary hprimary' hclimb' with hle | ⟨l₁, e₁, hrest⟩
        · exact Nat.le_trans (hclimb.length_le Operand.length_lt) hle
        · exact ih.climb hp hend _ mid (Nat.le_refl _) (Nat.le_trans (Nat.le_of_lt hlt) hb)
            _ _ _ _ hclimb hrest

end

/-- No operand at the same level takes more tokens than a maximal one. -/
theorem Maximal.longest (hp : PlainParentheses sig) {m n : Nat} {p : Int} {e e' : Expr}
    {ts rest rest' : List MathToken} (h : Maximal sig m p ts e rest)
    (h' : Derivable sig n p ts e' rest') : rest.length ≤ rest'.length :=
  Grammar.longest hp ts (Nat.lt_succ_self _) m n p e e' rest rest' h h'

end Grammar

namespace MathContext

open Grammar

variable (ctx : MathContext)

theorem whole_eq_ok_iff (hp : PlainParentheses ctx.signature) {e : Expr}
    {ts rest : List MathToken} :
    ctx.whole ts = .ok e rest ↔
      Maximal ctx.signature nestingLimit 0 ts e [] ∧ rest = [] := by
  refine reader_bind_eq_ok_iff.trans ?_
  simp only [operand_readsAs hp nestingLimit _ _ _ _]
  constructor
  · rintro ⟨e', left, hmax, hend⟩
    cases left with
    | nil =>
      cases hend
      exact ⟨hmax, rfl⟩
    | cons t left => cases hend
  · rintro ⟨hmax, rfl⟩
    exact ⟨e, [], hmax, rfl⟩

/-- The formula is given up as too deeply nested. -/
def GivesUp (ts : List MathToken) : Prop :=
  ∃ rest, ctx.whole ts = .error ⟨ctx.start, .mathTooDeep⟩ rest

theorem whole_of_maximal (hp : PlainParentheses ctx.signature) {n : Nat} {e : Expr}
    {ts : List MathToken} (h : Maximal ctx.signature n 0 ts e []) :
    ctx.whole ts = .ok e [] ∨ ctx.GivesUp ts := by
  have hread := (operand_readsAs hp (max nestingLimit n) _ _ _ _).mpr
    (Operand.mono (Nat.le_max_right nestingLimit n) _ _ _ _ h)
  rcases operand_approximates_of_le (Nat.le_max_left nestingLimit n) 0 ts with he | ⟨rest, he⟩
  · rw [hread] at he
    exact .inl ((ctx.whole_eq_ok_iff hp).mpr ⟨(operand_readsAs hp _ _ _ _ _).mp he, rfl⟩)
  · refine .inr ⟨rest, ?_⟩
    change EStateM.bind _ _ _ = _
    unfold EStateM.bind
    rw [he]

/-- The reader accepts the grammar: unless it gives up a formula as too deeply nested, it finds a
value just where there is a reading. The value is that of the only reading in which no operand could
go on, and these operands are the longest ones of all readings. -/
theorem whole_accepts_grammar (hp : PlainParentheses ctx.signature) (ts : List MathToken) :
    (ctx.GivesUp ts ∨
      ((∃ e rest, ctx.whole ts = .ok e rest) ↔ ∃ n e, Derivable ctx.signature n 0 ts e [])) ∧
    (∀ e, (∃ rest, ctx.whole ts = .ok e rest) ↔ Maximal ctx.signature nestingLimit 0 ts e []) ∧
    (∀ m n p ts e e' rest rest', Maximal ctx.signature m p ts e rest →
      Maximal ctx.signature n p ts e' rest' → e = e' ∧ rest = rest') ∧
    (∀ m n p ts e e' rest rest', Maximal ctx.signature m p ts e rest →
      Derivable ctx.signature n p ts e' rest' → rest.length ≤ rest'.length) := by
  refine ⟨?_, fun e => ?_, fun _ _ _ _ _ _ _ _ h h' => h.unique hp h',
    fun _ _ _ _ _ _ _ _ h h' => h.longest hp h'⟩
  · by_cases hgive : ctx.GivesUp ts
    · exact .inl hgive
    right
    constructor
    · rintro ⟨e, rest, hread⟩
      exact ⟨nestingLimit, e, ((ctx.whole_eq_ok_iff hp).mp hread).1.derivable _ _ _ _⟩
    · rintro ⟨n, e, hd⟩
      obtain ⟨m, e', hmax⟩ := hd.exists_maximal hp ended_nil
      rcases ctx.whole_of_maximal hp hmax with hread | hgive'
      · exact ⟨e', [], hread⟩
      · exact absurd hgive' hgive
  · constructor
    · rintro ⟨rest, hread⟩
      exact ((ctx.whole_eq_ok_iff hp).mp hread).1
    · exact fun hmax => ⟨[], (ctx.whole_eq_ok_iff hp).mpr ⟨hmax, rfl⟩⟩

end MathContext

namespace Implication

private def wff (name : Name) : Binder := ⟨name, "wff", false, []⟩

def terms : List TermDecl :=
  [⟨"im", [wff "a", wff "b"], "wff", [], false, none⟩, ⟨"not", [wff "a"], "wff", [], false, none⟩]

def notations : List Notation := [⟨"im", "->", .rightAssoc, 25⟩, ⟨"not", "~", .prefixed, 40⟩]

/-- Implications and negations, of which negations bind more tightly. -/
def signature : Signature :=
  .ofDecls [⟨"wff", ⟨false, false, true, false⟩⟩] terms notations
    { left := .ofList ["(", "~"], right := .ofList [")"] }

theorem plainParentheses : Grammar.PlainParentheses signature :=
  ⟨by decide, by decide, by decide, by decide⟩

/-- The tokens of `~ p -> q -> r`, wherever they stand. -/
def chain : List MathToken := ["~", "p", "->", "q", "->", "r"].map fun s => ⟨s, .start⟩

def chainValue : Expr :=
  .app "im" [.app "not" [.var "p"], .app "im" [.var "q", .var "r"]]

/-- The grammar reads the chain, and only with the value that the reader finds are its operands
maximal. -/
theorem chain_accepts_grammar :
    (∃ n e, Grammar.Derivable signature n 0 chain e []) ∧
      ∀ n e rest, Grammar.Maximal signature n 0 chain e rest → e = chainValue ∧ rest = [] := by
  have hread : MathContext.whole ⟨signature, .start, .start⟩ chain = .ok chainValue [] := by rfl
  obtain ⟨haccepts, hvalue, hunique, _⟩ :=
    MathContext.whole_accepts_grammar ⟨signature, .start, .start⟩ plainParentheses chain
  constructor
  · rcases haccepts with ⟨rest, hgive⟩ | haccepts
    · rw [hread] at hgive
      cases hgive
    · exact haccepts.mp ⟨chainValue, [], hread⟩
  · exact fun n e rest h => hunique _ _ _ _ _ _ _ _ h ((hvalue chainValue).mp ⟨[], hread⟩)

end Implication
end Deductive
