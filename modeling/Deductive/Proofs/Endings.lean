import Deductive.Formula.Reader
import Deductive.Proofs.Cutting
import Deductive.Proofs.Results
import Deductive.Proofs.Substitution

/-!
How readers end, with a value or with an error. A formula that is read consists of identifiers and
of terms that are declared or that a notation stands for, and one that is not read is given up at one
of its tokens or at its start; only where it breaks off is the place that of its end.
-/
namespace Deductive

/-- From a state in the invariant the reader ends with a value that has the property, in a state in
the invariant again, or with an error as described. -/
def Ends {ε σ α : Type} (I : σ → Prop) (P : α → Prop) (E : ε → Prop) (r : EStateM ε σ α) : Prop :=
  ∀ s, I s → match r s with
    | .ok a s' => P a ∧ I s'
    | .error e _ => E e

namespace Ends

variable {ε σ α β : Type} {I : σ → Prop} {P : α → Prop} {Q : β → Prop} {E : ε → Prop}
  {r : EStateM ε σ α} {k : α → EStateM ε σ β}

theorem of_ok (h : Ends I P E r) {s s' : σ} {a : α} (hs : I s) (hr : r s = .ok a s') :
    P a ∧ I s' := by
  have := h s hs
  rwa [hr] at this

theorem of_error (h : Ends I P E r) {s s' : σ} {e : ε} (hs : I s) (hr : r s = .error e s') :
    E e := by
  have := h s hs
  rwa [hr] at this

theorem pure {a : α} (h : P a) : Ends I P E (pure a) := fun _ hs => ⟨h, hs⟩

theorem bind (h : Ends I P E r) (hk : ∀ a, P a → Ends I Q E (k a)) : Ends I Q E (r >>= k) := by
  intro s hs
  change match EStateM.bind r k s with
    | .ok b s' => Q b ∧ I s'
    | .error e _ => E e
  unfold EStateM.bind
  cases hr : r s with
  | error e s' => exact h.of_error hs hr
  | ok a s' =>
    obtain ⟨ha, hs'⟩ := h.of_ok hs hr
    exact hk a ha s' hs'

end Ends

/-- A declared term has the name, or a notation stands for it. -/
def Signature.Names (sig : Signature) (f : Name) : Prop :=
  (∃ key term, sig.terms.get? key = some term ∧ term.name = f) ∨
    ∃ token n, sig.notations.get? token = some n ∧ n.term = f

/-- The expression is put together from what the signature knows; its variables are identifiers that
stand for nothing else. -/
structure Expr.IsRead (sig : Signature) (e : Expr) : Prop where
  vars : ∀ x ∈ e.vars, ∃ s : String, x = s ∧ Text.isIdentifier s = true ∧
    sig.terms.get? s = none ∧ sig.notations.get? s = none
  terms : ∀ f ∈ e.terms, sig.Names f

namespace Expr

variable {sig : Signature}

theorem IsRead.app {f : Name} {args : List Expr} (hf : sig.Names f)
    (h : ∀ a ∈ args, a.IsRead sig) : (Expr.app f args).IsRead sig where
  vars := by
    intro x hx
    obtain ⟨a, ha, hx⟩ := mem_varsAll.mp hx
    exact (h a ha).vars x hx
  terms := by
    intro g hg
    rcases List.mem_cons.mp hg with rfl | hg
    · exact hf
    · obtain ⟨a, ha, hg⟩ := mem_termsAll.mp hg
      exact (h a ha).terms g hg

theorem IsRead.var {s : String} (identifier : Text.isIdentifier s = true)
    (undeclared : sig.terms.get? s = none) (plain : sig.notations.get? s = none) :
    (Expr.var s).IsRead sig where
  vars := by
    intro x hx
    exact ⟨s, List.mem_singleton.mp hx, identifier, undeclared, plain⟩
  terms := nofun

end Expr

namespace MathContext

variable {ctx : MathContext} {Q : MathToken → Prop}

variable (ctx Q) in
/-- The error is at a token with the property, at the start or, where the formula breaks off, at the
end; numbers are not its matter. -/
structure IsFault (e : ParseError) : Prop where
  place : e.position = ctx.start ∨ e.position = ctx.stop ∧ e.cause = .unexpectedEnd ∨
    ∃ t, Q t ∧ e.position = t.position
  cause : ∀ n, e.cause ≠ .precTooLong n

/-- A reader of tokens with the property. -/
abbrev Meets {α : Type} (ctx : MathContext) (Q : MathToken → Prop) (P : α → Prop)
    (r : MathReader α) : Prop :=
  Ends (fun ts => ∀ t ∈ ts, Q t) P (ctx.IsFault Q) r

theorem fail_meets {α : Type} {P : α → Prop} {t : MathToken} {cause : ParseCause} (ht : Q t)
    (hcause : ∀ n, cause ≠ .precTooLong n) :
    ctx.Meets Q P (fail t.position cause : MathReader α) :=
  fun _ _ => ⟨.inr (.inr ⟨t, ht, rfl⟩), hcause⟩

theorem next_meets : ctx.Meets Q Q ctx.next := by
  intro ts hts
  cases ts with
  | nil => exact ⟨.inr (.inl ⟨rfl, rfl⟩), nofun⟩
  | cons t ts => exact List.forall_mem_cons.mp hts

section

variable {operand : Int → MathReader Expr}

theorem arguments_meets (h : ∀ level, ctx.Meets Q (Expr.IsRead ctx.signature) (operand level))
    (n : Nat) : ctx.Meets Q (fun es => ∀ e ∈ es, e.IsRead ctx.signature) (arguments operand n) := by
  induction n with
  | zero => exact .pure (List.forall_mem_nil _)
  | succ n ih =>
    apply (h maxPrec).bind
    intro e he
    apply ih.bind
    intro es hes
    exact .pure (List.forall_mem_cons.mpr ⟨he, hes⟩)

theorem parenthesized_meets (h : ∀ level, ctx.Meets Q (Expr.IsRead ctx.signature) (operand level)) :
    ctx.Meets Q (Expr.IsRead ctx.signature) (ctx.parenthesized operand) := by
  apply (h 0).bind
  intro inner hinner
  apply next_meets.bind
  intro close hclose
  split
  · exact .pure hinner
  · exact fail_meets hclose nofun

theorem prefixed_meets (h : ∀ level, ctx.Meets Q (Expr.IsRead ctx.signature) (operand level))
    {level : Int} {t : MathToken} {token : Name} {n : Notation} (ht : Q t)
    (hn : ctx.signature.notations.get? token = some n) :
    ctx.Meets Q (Expr.IsRead ctx.signature) (prefixed operand level t n) := by
  unfold prefixed
  split
  · exact fail_meets ht nofun
  split
  · exact fail_meets ht nofun
  · apply (h n.prec).bind
    intro arg harg
    exact .pure (.app (.inr ⟨token, n, hn, rfl⟩) (List.forall_mem_singleton.mpr harg))

theorem application_meets (h : ∀ level, ctx.Meets Q (Expr.IsRead ctx.signature) (operand level))
    {level : Int} {t : MathToken} {key : Name} {term : TermDecl} (ht : Q t)
    (hterm : ctx.signature.terms.get? key = some term) :
    ctx.Meets Q (Expr.IsRead ctx.signature) (application operand level t term) := by
  have hname : ctx.signature.Names term.name := .inl ⟨key, term, hterm, rfl⟩
  unfold application
  split
  · exact .pure (.app hname (List.forall_mem_nil _))
  split
  · exact fail_meets ht nofun
  · apply (arguments_meets h term.arity).bind
    intro args hargs
    exact .pure (.app hname hargs)

theorem primary_meets (h : ∀ level, ctx.Meets Q (Expr.IsRead ctx.signature) (operand level))
    (level : Int) : ctx.Meets Q (Expr.IsRead ctx.signature) (ctx.primary operand level) := by
  apply next_meets.bind
  intro t ht
  split
  · exact parenthesized_meets h
  split
  · exact fail_meets ht nofun
  split
  · rename_i n hn
    exact prefixed_meets h ht hn
  · rename_i hplain
    split
    · rename_i term hterm
      exact application_meets h ht hterm
    · rename_i hundeclared
      split
      · rename_i hidentifier
        exact .pure (.var hidentifier hundeclared hplain)
      · exact fail_meets ht nofun

theorem climb_meets (h : ∀ level, ctx.Meets Q (Expr.IsRead ctx.signature) (operand level))
    (level : Int) (n : Nat) {lhs : Expr} (hlhs : lhs.IsRead ctx.signature) :
    ctx.Meets Q (Expr.IsRead ctx.signature) (ctx.climb operand level n lhs) := by
  induction n generalizing lhs with
  | zero => exact .pure hlhs
  | succ n ih =>
    intro ts hts
    cases ts with
    | nil => exact ⟨hlhs, hts⟩
    | cons t ts =>
      cases hop : ctx.infixAt? level t with
      | none => simpa only [climb, hop] using ⟨hlhs, hts⟩
      | some op =>
        simp only [climb, hop]
        have hname : ctx.signature.Names op.term :=
          .inr ⟨_, op, (Option.filter_eq_some_iff.mp hop).1, rfl⟩
        refine (h op.rightLevel).bind (fun rhs hrhs => ih ?_) ts (List.forall_mem_cons.mp hts).2
        exact .app hname (List.forall_mem_cons.mpr ⟨hlhs, List.forall_mem_singleton.mpr hrhs⟩)

end

theorem operand_meets (n : Nat) (level : Int) :
    ctx.Meets Q (Expr.IsRead ctx.signature) (ctx.operand n level) := by
  induction n generalizing level with
  | zero => exact fun _ _ => ⟨.inl rfl, nofun⟩
  | succ n ih =>
    apply (primary_meets ih level).bind
    intro lhs hlhs ts hts
    exact climb_meets ih level ts.length hlhs ts hts

theorem whole_meets : ctx.Meets Q (Expr.IsRead ctx.signature) ctx.whole := by
  apply (operand_meets nestingLimit 0).bind
  intro e he ts hts
  cases ts with
  | nil => exact ⟨he, hts⟩
  | cons t ts => exact ⟨.inr (.inr ⟨t, (List.forall_mem_cons.mp hts).1, rfl⟩), nofun⟩

end MathContext

/-- Every token of a math string stands where as many characters are before it. -/
theorem mathTokens_position {d : Delimiters} {p : Position} {cs : List Char} {t : MathToken}
    (ht : t ∈ mathTokens d p cs) : ∃ before, before <+: cs ∧ t.position = p.advance before := by
  obtain ⟨front, back, hts⟩ := List.append_of_mem ht
  obtain ⟨before, after, hcs, hcut⟩ := mathTokens_isCutInto.pieces front t back hts
  exact ⟨before, ⟨_, hcs.symm⟩, hcut.placed⟩

/-- What a math string is read as, or where it is given up: its end is the only place that is not
found by counting its lines. -/
theorem parseMath_ends (text : String) (sig : Signature) (start : Position) :
    match parseMath text sig start with
    | .ok e => e.IsRead sig
    | .error err => ((∃ before, before <+: text.toList ∧ err.position = start.advance before) ∨
        err.position = start.right text.length ∧ err.cause = .unexpectedEnd) ∧
      ∀ n, err.cause ≠ .precTooLong n := by
  unfold parseMath
  have htokens (t : MathToken) (ht : t ∈ tokenizeMath text sig.delimiters start) :
      ∃ before, before <+: text.toList ∧ t.position = start.advance before :=
    mathTokens_position ht
  cases hts : tokenizeMath text sig.delimiters start with
  | nil => exact ⟨.inl ⟨[], List.nil_prefix, rfl⟩, nofun⟩
  | cons t ts =>
    rw [hts] at htokens
    let ctx : MathContext := ⟨sig, start, start.right text.length⟩
    have hends := (MathContext.whole_meets : ctx.Meets _ _ _) _ htokens
    dsimp only
    cases hread : ctx.whole (t :: ts) with
    | ok e rest =>
      rw [hread] at hends
      exact hends.1
    | error err rest =>
      rw [hread] at hends
      refine ⟨?_, hends.cause⟩
      rcases hends.place with hstart | hend | ⟨t, ⟨before, hbefore, ht⟩, hposition⟩
      · exact .inl ⟨[], List.nil_prefix, hstart⟩
      · exact .inr hend
      · exact .inl ⟨before, hbefore, hposition.trans ht⟩

end Deductive
