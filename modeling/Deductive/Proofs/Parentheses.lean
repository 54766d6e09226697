import Deductive.Proofs.Printing
import Deductive.Proofs.Substitution
import Mathlib.Algebra.Ring.Nat

/-!
All parentheses of a formula that is written are needed, unless an application with its name stands
before an infix token that binds next to the highest level. Every other reading of an expression from
the tokens that stand for its parts uses up as many parentheses as are written, so that after the loss
of a pair the tokens are read as something else, or not at all.
-/
namespace Deductive

open Grammar

/-- The token stands for what is written as it: its notation is the one in which the term of the
notation is written, and its term is written with its name. -/
structure Signature.IsOwn (sig : Signature) (s : String) : Prop where
  notated : ∀ n, sig.notations.get? s = some n → sig.writtenAs? n.term = some n
  named : ∀ term, sig.terms.get? s = some term →
    sig.layout term.name term.arity = .constant ∨ sig.layout term.name term.arity = .named

namespace Expr

variable {sig : Signature} {e : Expr}

/-- The opening parentheses of the expression when it is written at a level. -/
def pairs (sig : Signature) (level : Int) (e : Expr) : Nat := (e.tokens sig level).count "("

/-- The opening parentheses in the arguments of an application, the first being the one at place
`i`. -/
def innerPairs (sig : Signature) (layout : Layout) (i : Nat) (args : List Expr) : Nat :=
  ((tokensAll sig layout i args).map fun ts => ts.count "(").sum

theorem innerPairs_cons {layout : Layout} {i : Nat} {a : Expr} {args : List Expr} :
    innerPairs sig layout i (a :: args) =
      a.pairs sig (layout.argumentLevel i) + innerPairs sig layout (i + 1) args := by
  simp [innerPairs, tokensAll, pairs]

theorem count_assemble {layout : Layout} {s : String} (hs : s ≠ "(") (tokens : List (List String)) :
    (layout.assemble s tokens).count "(" = (tokens.map fun ts => ts.count "(").sum := by
  unfold Layout.assemble
  split
  · simp [hs]
  · simp [hs, List.count_flatten]

theorem count_parenthesize (tokens : List String) :
    (parenthesize tokens).count "(" = tokens.count "(" + 1 := by
  simp [parenthesize]

/-- Another level makes a difference of one pair at most. -/
theorem pairs_le_succ (p q : Int) : e.pairs sig q ≤ e.pairs sig p + 1 := by
  cases e with
  | var x => exact Nat.le_succ _
  | app f args =>
    simp only [pairs, tokens]
    split
    · exact Nat.le_succ _
    · split
      · split
        · simp only [count_parenthesize]
          exact Nat.le_succ _
        · exact Nat.le_of_eq (count_parenthesize _)
      · split
        · rw [count_parenthesize]
          omega
        · exact Nat.le_succ _

theorem openLayout?_app_iff {f : Name} {args : List Expr} {layout : Layout} {p : Int} :
    (app f args).openLayout? sig p = some layout ↔
      sig.layout f args.length = layout ∧ layout ≠ .constant ∧ p ≤ layout.level := by
  simp only [openLayout?]
  constructor
  · intro h
    split at h
    · cases h
    · rename_i hopen
      obtain ⟨hconstant, hlevel⟩ := not_or.mp hopen
      cases h
      exact ⟨rfl, hconstant, Int.not_lt.mp hlevel⟩
  · rintro ⟨rfl, hconstant, hlevel⟩
    rw [if_neg (not_or.mpr ⟨hconstant, Int.not_lt.mpr hlevel⟩)]

/-- What stands without parentheses is written alike up to its own level. -/
theorem pairs_of_open {layout : Layout} {p q : Int} (ho : e.openLayout? sig p = some layout)
    (hq : q ≤ layout.level) : e.pairs sig q = e.pairs sig p := by
  cases e with
  | var x => cases ho
  | app f args =>
    obtain ⟨rfl, hconstant, hp⟩ := openLayout?_app_iff.mp ho
    simp only [pairs, tokens, if_neg hconstant, if_neg (Int.not_lt.mpr hp),
      if_neg (Int.not_lt.mpr hq)]

theorem pairs_app_of_open {f : Name} {args : List Expr} {layout : Layout} {p : Int}
    (ho : (app f args).openLayout? sig p = some layout) (hs : toString (layout.symbol f) ≠ "(") :
    (app f args).pairs sig p = innerPairs sig layout 0 args := by
  obtain ⟨hl, hconstant, hp⟩ := openLayout?_app_iff.mp ho
  simp only [pairs, tokens, hl, if_neg hconstant, if_neg (Int.not_lt.mpr hp)]
  exact count_assemble hs (tokensAll sig layout 0 args)

theorem pairs_constant {f : Name} (hf : toString f ≠ "(") (p : Int) : (app f []).pairs sig p = 0 := by
  have hl : sig.layout f 0 = .constant := Signature.layout_constant_iff.mpr rfl
  simp [pairs, tokens, hl, Layout.assemble, Layout.symbol, tokensAll, hf]

/-- No application that is written with its name stands before an infix token that groups to the
right at the level below the highest one. -/
inductive AvoidsTop (sig : Signature) : Expr → Prop
  | var (x : Name) : AvoidsTop sig (.var x)
  | app {f : Name} {args : List Expr}
      (left : ∀ n g as, sig.layout f args.length = .between n → args.head? = some (.app g as) →
        sig.layout g as.length = .named → n.fixity = .rightAssoc → n.prec ≠ maxPrec - 1)
      (arguments : ∀ a ∈ args, AvoidsTop sig a) : AvoidsTop sig (.app f args)

theorem AvoidsTop.argument {f : Name} {args : List Expr} (h : (Expr.app f args).AvoidsTop sig) :
    ∀ a ∈ args, a.AvoidsTop sig := by
  cases h with
  | app _ arguments => exact arguments

/-- A printable expression is written with tokens that stand for its parts. -/
theorem Printable.isOwn (hs : sig.Printable) (h : e.Printable sig) {p : Int} :
    ∀ t ∈ e.tokens sig p, sig.IsOwn t := by
  have hp := hs.plainParentheses
  have hplain {s : String} (hn : sig.notations.get? s = none) (ht : sig.terms.get? s = none) :
      sig.IsOwn s := by
    constructor
    · intro n hsome
      rw [hn] at hsome
      cases hsome
    · intro term hsome
      rw [ht] at hsome
      cases hsome
  have hnotated {f : Name} {n : Notation} (hn : sig.writtenAs? f = some n) :
      sig.IsOwn (toString n.token) := by
    obtain ⟨s, hsymbol⟩ := hs.isNotated hn
    have htoken : toString n.token = s := by
      rw [hsymbol.named]
      rfl
    rw [htoken]
    constructor
    · intro m hm
      obtain rfl := Option.some.inj (hsymbol.notated.symm.trans hm)
      rwa [(Signature.writtenAs?_eq_some hn).2]
    · intro term hterm
      have hnone := (hs.terms _ _ hterm).2.2
      rw [hsymbol.notated] at hnone
      cases hnone
  induction h generalizing p with
  | var identifier undeclared plain =>
    intro t ht
    obtain rfl := List.mem_singleton.mp ht
    exact hplain plain undeclared
  | @app f term args declared arity _ ih =>
    have hname {layout : Layout} (hl : sig.layout f args.length = layout)
        (hlayout : layout = .constant ∨ layout = .named) : sig.IsOwn (toString f) := by
      obtain ⟨s, rfl, hsymbol⟩ := hs.isPlain declared
      constructor
      · intro n hn
        have : sig.notations.get? s = some n := hn
        rw [hsymbol.plain] at this
        cases this
      · intro term' hterm'
        obtain rfl := Option.some.inj (declared.symm.trans hterm')
        rw [(hs.terms _ _ declared).1, ← arity, hl]
        exact hlayout
    intro t ht
    rcases mem_tokens_app ht with rfl | rfl | rfl | ⟨a, ha, q, ht⟩
    · exact hplain hp.opening hp.openingTerm
    · exact hplain hp.closing hp.closingTerm
    · cases hl : sig.layout f args.length with
      | constant => exact hname hl (.inl rfl)
      | named => exact hname hl (.inr rfl)
      | before n => exact hnotated (Signature.layout_eq_before hl).1
      | between n => exact hnotated (Signature.layout_eq_between hl).1
    · exact ih a ha t ht

end Expr

namespace Grammar

variable {sig : Signature}

/-- The opening parentheses among the tokens. -/
def opens (ts : List MathToken) : Nat := (ts.map MathToken.text).count "("

theorem opens_opening {t : MathToken} (ht : t.text = "(") (ts : List MathToken) :
    opens (t :: ts) = opens ts + 1 := by
  simp [opens, ht]

theorem opens_other {t : MathToken} (ht : t.text ≠ "(") (ts : List MathToken) :
    opens (t :: ts) = opens ts := by
  simp [opens, ht]

/-- All tokens stand for what is written as them. -/
def AreOwn (sig : Signature) (ts : List MathToken) : Prop := ∀ t ∈ ts, sig.IsOwn t.text

/-- An operand that is read at a level uses up the parentheses that are written there. -/
def Accounts (sig : Signature) (operand : OperandRelation) : Prop :=
  ∀ p ts e rest, operand p ts e rest → AreOwn sig ts → e.AvoidsTop sig →
    AreOwn sig rest ∧ e.pairs sig p + opens rest ≤ opens ts ∧ Ended sig p rest

/-- What has been read as `lhs` accounts for its parentheses at every level, or it stands without
any around it, and then no infix token follows that goes on its last operand. -/
def Holds (sig : Signature) (p : Int) (ts : List MathToken) (lhs : Expr) (mid : List MathToken) :
    Prop :=
  (∀ q, lhs.pairs sig q + opens mid ≤ opens ts) ∨
    ∃ layout, lhs.openLayout? sig p = some layout ∧ lhs.pairs sig p + opens mid ≤ opens ts ∧
      Ended sig layout.edge mid

theorem Holds.le {p : Int} {ts mid : List MathToken} {lhs : Expr} (h : Holds sig p ts lhs mid) :
    lhs.pairs sig p + opens mid ≤ opens ts := by
  rcases h with h | ⟨_, _, h, _⟩
  · exact h p
  · exact h

theorem Accounts.arguments {operand : OperandRelation} (h : Accounts sig operand) {k i : Nat}
    {ts rest : List MathToken} {es : List Expr} (ha : Arguments operand k ts es rest)
    (hts : AreOwn sig ts) (hes : ∀ e ∈ es, e.AvoidsTop sig) :
    AreOwn sig rest ∧ Expr.innerPairs sig .named i es + opens rest ≤ opens ts ∧
      (es ≠ [] → Ended sig maxPrec rest) := by
  induction ha generalizing i with
  | none => exact ⟨hts, by simp [Expr.innerPairs, Expr.tokensAll], fun hne => absurd rfl hne⟩
  | @more n ts mid rest e es first others ih =>
    obtain ⟨he, hes⟩ := List.forall_mem_cons.mp hes
    obtain ⟨hmid, hfirst, hend⟩ := h _ _ _ _ first hts he
    obtain ⟨hrest, hothers, hends⟩ := ih (i := i + 1) hmid hes
    refine ⟨hrest, ?_, fun _ => ?_⟩
    · rw [Expr.innerPairs_cons]
      change e.pairs sig maxPrec + _ + _ ≤ _
      omega
    · cases others with
      | none => exact hend
      | more => exact hends (List.cons_ne_nil _ _)

theorem Arguments.length_eq {operand : OperandRelation} {k : Nat} {ts rest : List MathToken}
    {es : List Expr} (h : Arguments operand k ts es rest) : es.length = k := by
  induction h with
  | none => rfl
  | more _ _ ih => rw [List.length_cons, ih]

theorem symbol_ne_of_notated (hs : sig.Printable) {s : String} {n : Notation}
    (h : sig.notations.get? s = some n) : toString n.token ≠ "(" := by
  obtain ⟨hname, _⟩ := hs.notations _ _ h
  rw [hname]
  exact (hs.plainParentheses.ne_of_notated h).1

theorem symbol_ne_of_declared (hs : sig.Printable) {s : String} {term : TermDecl}
    (h : sig.terms.get? s = some term) : toString term.name ≠ "(" := by
  rw [(hs.terms _ _ h).1]
  exact (hs.plainParentheses.ne_of_declared h).1

theorem Accounts.primary (hs : sig.Printable) {operand : OperandRelation}
    (h : Accounts sig operand) {p : Int} {ts mid : List MathToken} {lhs : Expr}
    (hp : Primary sig operand p ts lhs mid) (hts : AreOwn sig ts) (hlhs : lhs.AvoidsTop sig) :
    AreOwn sig mid ∧ Holds sig p ts lhs mid := by
  have hparens := hs.plainParentheses
  cases hp with
  | @parenthesized opening closing ts _ _ opens inner closes =>
    obtain ⟨hmid, hpairs, _⟩ := h _ _ _ _ inner (List.forall_mem_cons.mp hts).2 hlhs
    refine ⟨(List.forall_mem_cons.mp hmid).2, .inl fun q => ?_⟩
    rw [opens_other (by rw [closes]; decide)] at hpairs
    rw [opens_opening opens]
    have : lhs.pairs sig q ≤ lhs.pairs sig 0 + 1 := lhs.pairs_le_succ 0 q
    omega
  | @prefixed t n ts _ arg notated fixity binds inner =>
    obtain ⟨ht, hts⟩ := List.forall_mem_cons.mp hts
    have harg := hlhs.argument arg List.mem_cons_self
    obtain ⟨hmid, hpairs, hend⟩ := h _ _ _ _ inner hts harg
    have hl : sig.layout n.term [arg].length = .before n := by
      simp [Signature.layout, ht.notated n notated, Fixity.arity, fixity]
    have hright : n.rightLevel = n.prec := n.rightLevel_eq fun hleft => by
      rw [hleft] at fixity
      cases fixity
    have ho := Expr.openLayout?_app_iff.mpr ⟨hl, by simp, binds⟩
    refine ⟨hmid, .inr ⟨_, ho, ?_, ?_⟩⟩
    · rw [Expr.pairs_app_of_open ho (symbol_ne_of_notated hs notated), Expr.innerPairs_cons,
        opens_other (hparens.ne_of_notated notated).1]
      simp only [Layout.argumentLevel, hright]
      exact hpairs
    · simp only [Layout.edge, hright]
      exact hend
  | @name t _ plain undeclared identifier =>
    obtain ⟨_, hmid⟩ := List.forall_mem_cons.mp hts
    have hname := (MathContext.ne_of_identifier identifier).1
    refine ⟨hmid, .inl fun q => ?_⟩
    have hpairs : (Expr.var t.text).pairs sig q = 0 := by
      change [t.text].count "(" = 0
      simp [hname]
    exact Nat.le_of_eq (by rw [opens_other hname, hpairs, Nat.zero_add])
  | @constant t term _ plain declared arity =>
    obtain ⟨_, hmid⟩ := List.forall_mem_cons.mp hts
    refine ⟨hmid, .inl fun q => ?_⟩
    exact Nat.le_of_eq (by rw [opens_other (hparens.ne_of_declared declared).1,
      Expr.pairs_constant (symbol_ne_of_declared hs declared), Nat.zero_add])
  | @application t term ts _ args plain declared low arguments =>
    obtain ⟨ht, hts⟩ := List.forall_mem_cons.mp hts
    obtain ⟨hmid, hpairs, hend⟩ := h.arguments (i := 0) arguments hts hlhs.argument
    have hlength := arguments.length_eq
    have hopens := opens_other (hparens.ne_of_declared declared).1 ts
    have hsymbol := symbol_ne_of_declared hs declared
    refine ⟨hmid, ?_⟩
    rcases ht.named term declared with hl | hl
    · obtain rfl : args = [] := by
        rw [← List.length_eq_zero_iff, hlength]
        exact Signature.layout_constant_iff.mp hl
      refine .inl fun q => ?_
      rw [Expr.pairs_constant hsymbol, hopens]
      omega
    · rw [← hlength] at hl
      have hne : args ≠ [] := by
        rintro rfl
        exact absurd ((Signature.layout_constant_iff.mpr rfl).symm.trans hl) (by simp)
      have hlow : p ≤ maxPrec - 1 := Int.le_sub_one_of_lt low
      have ho := Expr.openLayout?_app_iff.mpr ⟨hl, by simp, hlow⟩
      refine .inr ⟨_, ho, ?_, hend hne⟩
      rw [Expr.pairs_app_of_open ho hsymbol, hopens]
      exact hpairs

/-- An operand that an infix token of the notations in use does not go on binds tightly enough to
stand before it, but for an application below the highest level. -/
theorem leftLevel_le (hs : sig.Printable) {op : Notation} {f g : Name} {as : List Expr}
    (hop : sig.writtenAs? f = some op) (hconstant : sig.layout g as.length ≠ .constant)
    (hedge : op.prec < (sig.layout g as.length).edge)
    (htop : sig.layout g as.length = .named → op.fixity = .rightAssoc → op.prec ≠ maxPrec - 1) :
    op.leftLevel ≤ (sig.layout g as.length).level := by
  have hleft : op.leftLevel = op.prec ∧ op.fixity ≠ .rightAssoc ∨
      op.leftLevel = op.prec + 1 ∧ op.fixity = .rightAssoc := by
    unfold Notation.leftLevel
    split
    · exact .inr ⟨rfl, by assumption⟩
    · exact .inl ⟨rfl, by assumption⟩
  cases hl : sig.layout g as.length with
  | constant => exact absurd hl hconstant
  | named =>
    rw [hl] at hedge
    have htop := htop hl
    change op.prec < maxPrec at hedge
    change op.leftLevel ≤ maxPrec - 1
    rcases hleft with ⟨hlevel, _⟩ | ⟨hlevel, hright⟩
    · omega
    · have := htop hright
      omega
  | before m =>
    rw [hl] at hedge
    obtain ⟨_, hprefix, _⟩ := Signature.layout_eq_before hl
    have hright : m.rightLevel = m.prec := m.rightLevel_eq fun hleft => by
      rw [hleft] at hprefix
      cases hprefix
    change op.prec < m.rightLevel at hedge
    change op.leftLevel ≤ m.prec
    omega
  | between m =>
    rw [hl] at hedge
    obtain ⟨hm, _, _⟩ := Signature.layout_eq_between hl
    change op.prec < m.rightLevel at hedge
    change op.leftLevel ≤ m.prec
    by_cases hfix : m.fixity = .leftAssoc
    · have hright : m.rightLevel = m.prec + 1 := by simp [Notation.rightLevel, hfix]
      rcases hleft with ⟨hlevel, _⟩ | ⟨hlevel, hassoc⟩
      · omega
      · have := hs.parted g f m op hm hop hfix (by simp [hassoc])
        omega
    · have hright := m.rightLevel_eq hfix
      omega

/-- What stands before an infix token that is its own is written there as it has been read. -/
theorem Holds.left (hs : sig.Printable) {p : Int} {ts mid : List MathToken} {t : MathToken}
    {op : Notation} {lhs rhs : Expr} (h : Holds sig p ts lhs (t :: mid)) (hop : Infix sig p t op)
    (hown : sig.writtenAs? op.term = some op) (hl : sig.layout op.term 2 = .between op)
    (he : (Expr.app op.term [lhs, rhs]).AvoidsTop sig) :
    lhs.pairs sig op.leftLevel + opens (t :: mid) ≤ opens ts := by
  rcases h with h | ⟨layout, ho, hpairs, hend⟩
  · exact h _
  have hedge : op.prec < layout.edge :=
    Int.not_le.mp fun hle => hend t mid op rfl ⟨hop.1, hop.2.1, hle⟩
  have hlevel : op.leftLevel ≤ layout.level := by
    cases lhs with
    | var x => cases ho
    | app g as =>
      obtain ⟨rfl, hconstant, _⟩ := Expr.openLayout?_app_iff.mp ho
      cases he with
      | app left _ =>
        exact leftLevel_le hs hown hconstant hedge fun hnamed => left op g as hl rfl hnamed
  rwa [Expr.pairs_of_open ho hlevel]

theorem AvoidsTop.of_climb {operand : OperandRelation} {p : Int} {mid rest : List MathToken}
    {lhs e : Expr} (hc : Climb sig operand p lhs mid e rest) (he : e.AvoidsTop sig) :
    lhs.AvoidsTop sig := by
  induction hc with
  | done => exact he
  | more _ _ _ ih => exact (ih he).argument _ List.mem_cons_self

theorem Accounts.climb (hs : sig.Printable) {operand : OperandRelation}
    (h : Accounts sig operand) {p : Int} {ts mid rest : List MathToken} {lhs e : Expr}
    (hc : Climb sig operand p lhs mid e rest) (hmid : AreOwn sig mid)
    (hlhs : Holds sig p ts lhs mid) (he : e.AvoidsTop sig) :
    AreOwn sig rest ∧ e.pairs sig p + opens rest ≤ opens ts := by
  induction hc with
  | done => exact ⟨hmid, hlhs.le⟩
  | @more lhs rhs e t op mid mid' rest operator right next ih =>
    obtain ⟨ht, hmid⟩ := List.forall_mem_cons.mp hmid
    have hown := ht.notated op operator.1
    have hl : sig.layout op.term [lhs, rhs].length = .between op := by
      simp [Signature.layout, hown, Fixity.arity, operator.2.1]
    have happ : (Expr.app op.term [lhs, rhs]).AvoidsTop sig := AvoidsTop.of_climb next he
    obtain ⟨hmid', hright, hend⟩ := h _ _ _ _ right hmid (happ.argument rhs (by simp))
    have hleft := hlhs.left hs operator hown hl happ
    rw [opens_other (hs.plainParentheses.ne_of_notated operator.1).1] at hleft
    have ho := Expr.openLayout?_app_iff.mpr ⟨hl, by simp, operator.2.2⟩
    refine ih hmid' (.inr ⟨_, ho, ?_, hend⟩) he
    rw [Expr.pairs_app_of_open ho (symbol_ne_of_notated hs operator.1), Expr.innerPairs_cons,
      Expr.innerPairs_cons]
    change lhs.pairs sig op.leftLevel + (rhs.pairs sig op.rightLevel + 0) + opens mid' ≤ opens ts
    omega

/-- Every reading of an expression uses up the parentheses that it is written with. -/
theorem accounts (hs : sig.Printable) (n : Nat) : Accounts sig (Maximal sig n) := by
  induction n with
  | zero => nofun
  | succ n ih =>
    intro p ts e rest hmax hts he
    obtain ⟨lhs, mid, hprimary, hclimb, hend⟩ := hmax
    have hlhs : lhs.AvoidsTop sig := AvoidsTop.of_climb hclimb he
    obtain ⟨hmid, hholds⟩ := ih.primary hs hprimary hts hlhs
    obtain ⟨hrest, hpairs⟩ := ih.climb hs hclimb hmid hholds he
    exact ⟨hrest, hpairs, hend⟩

end Grammar

/-- Of a formula that is written no pair of parentheses can be left out: the other tokens are not
read as the same expression. -/
theorem Expr.Printable.parentheses_needed {sig : Signature} {e : Expr} (hs : sig.Printable)
    (h : e.Printable sig) (htop : e.AvoidsTop sig) {before inside after : List String}
    (htokens : e.tokens sig 0 = before ++ "(" :: (inside ++ ")" :: after)) (start stop : Position)
    {ts rest : List MathToken} (hts : ts.map MathToken.text = before ++ (inside ++ after)) {e' : Expr}
    (hread : MathContext.whole ⟨sig, start, stop⟩ ts = .ok e' rest) : e' ≠ e := by
  rintro rfl
  have hown : AreOwn sig ts := by
    intro t ht
    apply h.isOwn hs (p := 0)
    have hmem : t.text ∈ before ++ (inside ++ after) := hts ▸ List.mem_map_of_mem ht
    rw [htokens]
    simp only [List.mem_append, List.mem_cons] at hmem ⊢
    rcases hmem with hmem | hmem | hmem
    · exact .inl hmem
    · exact .inr (.inr (.inl hmem))
    · exact .inr (.inr (.inr (.inr hmem)))
  obtain ⟨hmax, _⟩ :=
    (MathContext.whole_eq_ok_iff ⟨sig, start, stop⟩ hs.plainParentheses).mp hread
  obtain ⟨_, hpairs, _⟩ := accounts hs _ _ _ _ _ hmax hown htop
  have hwritten : e'.pairs sig 0 = opens ts + 1 := by
    rw [Expr.pairs, htokens, opens, hts]
    have hclosing : ")" ≠ "(" := by decide
    simp only [List.count_append, List.count_cons_self, List.count_cons_of_ne hclosing]
    omega
  omega

/-! Where an application does stand before such an infix token, the parentheses around it are
superfluous. -/

namespace Expr

variable {sig : Signature} {e : Expr}

/-- The tokens without one pair of parentheses. -/
def LeavesOutPair (full short : List String) : Prop :=
  ∃ before inside after, full = before ++ "(" :: (inside ++ ")" :: after) ∧
    short = before ++ (inside ++ after)

namespace LeavesOutPair

variable {full short : List String}

theorem append_left (h : LeavesOutPair full short) (xs : List String) :
    LeavesOutPair (xs ++ full) (xs ++ short) := by
  obtain ⟨before, inside, after, rfl, rfl⟩ := h
  exact ⟨xs ++ before, inside, after, by simp, by simp⟩

theorem append_right (h : LeavesOutPair full short) (ys : List String) :
    LeavesOutPair (full ++ ys) (short ++ ys) := by
  obtain ⟨before, inside, after, rfl, rfl⟩ := h
  exact ⟨before, inside, after ++ ys, by simp, by simp⟩

theorem enclose (h : LeavesOutPair full short) (layout : Layout) (p : Int) :
    LeavesOutPair (layout.enclose p full) (layout.enclose p short) := by
  unfold Layout.enclose
  split
  · exact (h.append_left ["("]).append_right [")"]
  · exact h

end LeavesOutPair

/-- An application that is written with its name stands before an infix token that groups to the
right at the level below the highest one. -/
inductive HasTop (sig : Signature) : Expr → Prop
  | here {f g : Name} {as : List Expr} {n : Notation} {r : Expr}
      (layout : sig.layout f 2 = .between n) (named : sig.layout g as.length = .named)
      (fixity : n.fixity = .rightAssoc) (top : n.prec = maxPrec - 1) :
      HasTop sig (.app f [.app g as, r])
  | argument {f : Name} {args : List Expr} {a : Expr} (mem : a ∈ args) (inner : HasTop sig a) :
      HasTop sig (.app f args)

theorem hasTop_of_not_avoidsTop (h : ¬ e.AvoidsTop sig) : e.HasTop sig := by
  induction e with
  | var x => exact absurd (.var x) h
  | app f args ih =>
    by_contra hno
    apply h
    refine .app (fun n g as hl hhead hnamed hfixity htop => hno ?_) fun a ha => ?_
    · obtain ⟨_, _, hlength⟩ := Signature.layout_eq_between hl
      obtain ⟨l, args, rfl⟩ := List.exists_cons_of_length_eq_add_one hlength
      obtain ⟨r, rfl⟩ := List.length_eq_one_iff.mp (Nat.succ.inj hlength)
      obtain rfl := Option.some.inj hhead
      exact .here hl hnamed hfixity htop
    · by_contra ha'
      exact hno (.argument ha (ih a ha ha'))

theorem leftLevel_of_top {n : Notation} (fixity : n.fixity = .rightAssoc)
    (top : n.prec = maxPrec - 1) : n.leftLevel = maxPrec := by
  simp [Notation.leftLevel, fixity, top]

theorem leavesOutPair_named {g : Name} {as : List Expr} (named : sig.layout g as.length = .named) :
    LeavesOutPair ((app g as).tokens sig maxPrec) ((app g as).tokens sig (maxPrec - 1)) := by
  rw [tokens_app named nofun, tokens_app named nofun]
  exact ⟨[], _, [], rfl, (List.append_nil _).symm⟩

/-- One of the arguments can be read without a pair of parentheses, and so can all together. -/
theorem exists_forall₂_of_mem {args : List Expr} (h : ∀ a ∈ args, ReadsBack sig a) {a : Expr}
    (ha : a ∈ args)
    (hshort : ∃ texts, LeavesOutPair (a.tokens sig maxPrec) texts ∧ ReadsFrom sig a maxPrec texts)
    {i : Nat} : ∃ texts, LeavesOutPair (tokensAll sig .named i args).flatten texts.flatten ∧
      List.Forall₂ (ReadsFrom sig · maxPrec ·) args texts := by
  induction args generalizing i with
  | nil => cases ha
  | cons b args ih =>
    obtain ⟨hb, hargs⟩ := List.forall_mem_cons.mp h
    rcases List.mem_cons.mp ha with rfl | ha
    · obtain ⟨short, hleaves, hread⟩ := hshort
      refine ⟨short :: tokensAll sig .named (i + 1) args, ?_, .cons hread (forall₂_tokensAll hargs)⟩
      exact hleaves.append_right _
    · obtain ⟨texts, hleaves, hreads⟩ := ih hargs ha (i := i + 1)
      refine ⟨b.tokens sig maxPrec :: texts, ?_, .cons (hb maxPrec) hreads⟩
      exact hleaves.append_left _

/-- A pair of parentheses around an application that stands before such an infix token can be left
out. The token stays open below it, since the application ends with an operand at the highest level. -/
theorem HasTop.exists_shorter (hp : PlainParentheses sig) (htop : e.HasTop sig)
    (h : e.Legible sig) (p : Int) :
    ∃ texts, LeavesOutPair (e.tokens sig p) texts ∧ ReadsFrom sig e p texts := by
  induction htop generalizing p with
  | here layout named fixity top =>
    cases h with
    | named other => simp [layout] at other
    | between other symbol left right =>
      obtain rfl := Layout.between.inj (layout.symm.trans other)
      rw [tokens_between layout symbol, leftLevel_of_top fixity top]
      refine ⟨_, ((leavesOutPair_named named).append_right _).enclose _ p, ?_⟩
      have hleft := leftLevel_of_top fixity top
      refine .between hp layout symbol (Int.le_of_eq top) (by omega) (fun l ho => ?_)
        (left.readsBack hp (maxPrec - 1)) (right.readsBack hp _)
      obtain ⟨rfl, _⟩ := openLayout?_app_iff.mp ho
      rw [named, top]
      exact Int.sub_one_lt_of_le (Int.le_refl maxPrec)
  | argument mem _ ih =>
    cases h with
    | constant => cases mem
    | named layout symbol declared named arity arguments =>
      have hall := fun a ha => (arguments a ha).readsBack hp
      obtain ⟨texts, hleaves, hreads⟩ :=
        exists_forall₂_of_mem hall mem (ih (arguments _ mem) maxPrec) (i := 0)
      rw [tokens_app layout nofun]
      exact ⟨_, (hleaves.append_left [_]).enclose _ p,
        .named hp layout symbol declared named arity hreads⟩
    | before layout symbol argument =>
      obtain rfl := List.mem_singleton.mp mem
      obtain ⟨short, hleaves, hread⟩ := ih argument _
      rw [tokens_before layout symbol]
      exact ⟨_, (hleaves.append_left [_]).enclose _ p, .before hp layout symbol hread⟩
    | @between f n s l r layout symbol left right parted =>
      rw [tokens_between layout symbol]
      rcases List.mem_pair.mp mem with rfl | rfl
      · obtain ⟨short, hleaves, hread⟩ := ih left n.leftLevel
        exact ⟨_, (hleaves.append_right _).enclose _ p,
          .between hp layout symbol n.le_leftLevel (Int.le_refl _) parted hread (right.readsBack hp _)⟩
      · obtain ⟨short, hleaves, hread⟩ := ih right n.rightLevel
        exact ⟨_, ((hleaves.append_left [s]).append_left _).enclose _ p,
          .between hp layout symbol n.le_leftLevel (Int.le_refl _) parted (left.readsBack hp _) hread⟩

end Expr

/-- Of a formula that is written with an application before such an infix token, a pair of
parentheses can be left out. -/
theorem Expr.Printable.pair_superfluous {sig : Signature} {e : Expr} (hs : sig.Printable)
    (h : e.Printable sig) (htop : ¬ e.AvoidsTop sig) (hn : e.nesting sig 0 ≤ nestingLimit) :
    ∃ before inside after, e.tokens sig 0 = before ++ "(" :: (inside ++ ")" :: after) ∧
      ∀ start stop (ts : List MathToken), ts.map MathToken.text = before ++ (inside ++ after) →
        MathContext.whole ⟨sig, start, stop⟩ ts = .ok e [] := by
  have hp := hs.plainParentheses
  obtain ⟨texts, ⟨before, inside, after, hfull, rfl⟩, hread⟩ :=
    (hasTop_of_not_avoidsTop htop).exists_shorter hp (h.legible hs) 0
  refine ⟨before, inside, after, hfull, fun start stop ts hts => ?_⟩
  have hmax := hread.operand hts hn ended_nil
  rw [List.append_nil] at hmax
  exact (MathContext.whole_eq_ok_iff ⟨sig, start, stop⟩ hp).mpr ⟨hmax, rfl⟩

namespace Implication

theorem nested_avoidsTop : nested.AvoidsTop signature := by
  have hvar (x : String) : (Expr.var x).AvoidsTop signature := .var x
  -- The only infix token binds loosely.
  have hprec {f : Name} {args : List Expr} {n : Notation}
      (hl : signature.layout f args.length = .between n) : n.prec ≠ maxPrec - 1 := by
    have hmem := (Signature.writtenAs?_eq_some (Signature.layout_eq_between hl).1).1
    have hall : ∀ n ∈ signature.notations.values, n.prec ≠ maxPrec - 1 := by decide
    exact hall n hmem
  have happ {f : Name} {args : List Expr} (h : ∀ a ∈ args, a.AvoidsTop signature) :
      (Expr.app f args).AvoidsTop signature :=
    .app (fun _ _ _ hl _ _ _ => hprec hl) h
  have hnot : (Expr.app "not" [.var "p"]).AvoidsTop signature :=
    happ (List.forall_mem_singleton.mpr (hvar "p"))
  have him : (Expr.app "im" [.app "not" [.var "p"], .var "q"]).AvoidsTop signature :=
    happ (List.forall_mem_cons.mpr ⟨hnot, List.forall_mem_singleton.mpr (hvar "q")⟩)
  exact happ (List.forall_mem_cons.mpr ⟨him, List.forall_mem_singleton.mpr (hvar "r")⟩)

/-- Without its parentheses, the nested implication is read as one to the right. -/
theorem nested_parentheses_needed :
    nested.tokens signature 0 = ["(", "~", "p", "->", "q", ")", "->", "r"] ∧
      MathContext.whole ⟨signature, .start, .start⟩ chain = .ok chainValue [] ∧
      chainValue ≠ nested := by
  have htokens : nested.tokens signature 0 = ["(", "~", "p", "->", "q", ")", "->", "r"] := by
    decide +kernel
  have hpair : nested.tokens signature 0 =
      [] ++ "(" :: (["~", "p", "->", "q"] ++ ")" :: ["->", "r"]) := htokens
  have hread : MathContext.whole ⟨signature, .start, .start⟩ chain = .ok chainValue [] := by rfl
  exact ⟨htokens, hread, nested_printable.parentheses_needed signature_printable nested_avoidsTop
    hpair .start .start rfl hread⟩

end Implication

namespace Tight

/-- Implications that bind next to the highest level. -/
def signature : Signature :=
  .ofDecls [⟨"wff", ⟨false, false, true, false⟩⟩] Implication.terms
    [⟨"im", "->", .rightAssoc, 65535⟩] .empty

theorem signature_printable : signature.Printable where
  notations := by
    intro token n h
    have hmem := Registry.mem_of_get?_ofList h
    simp only [List.map_cons, List.map_nil, List.mem_singleton, Prod.mk.injEq] at hmem
    obtain ⟨rfl, rfl⟩ := hmem
    exact ⟨rfl, by decide, .of_chars (by decide) (by decide) (.inr (by decide)) (by decide),
      _, rfl, rfl⟩
  terms := by
    intro name term h
    have hmem := Registry.mem_of_get?_ofList h
    simp only [Implication.terms, List.map_cons, List.map_nil, List.mem_cons, List.not_mem_nil,
      or_false, Prod.mk.injEq] at hmem
    rcases hmem with ⟨rfl, rfl⟩ | ⟨rfl, rfl⟩
    · exact ⟨rfl, .of_chars (by decide) (by decide) (.inr (by decide)) (by decide), rfl⟩
    · exact ⟨rfl, .of_chars (by decide) (by decide) (.inr (by decide)) (by decide), rfl⟩
  delimiters := fun _ h => (h.elim nofun nofun)
  parted := by
    intro f g m n hm _ hleft
    have hmem := (Signature.writtenAs?_eq_some hm).1
    have hright : ∀ n ∈ signature.notations.values, n.fixity ≠ .leftAssoc := by decide
    exact absurd hleft (hright m hmem)

/-- An implication from a negation that is written with its name. -/
def fromNegation : Expr := .app "im" [.app "not" [.var "p"], .var "q"]

theorem fromNegation_printable : fromNegation.Printable signature := by
  have hp : (Expr.var "p").Printable signature := .of_isSymbol (by decide +kernel) rfl rfl
    (.of_chars (by decide) (by decide) (.inr (by decide)) (by decide))
  have hq : (Expr.var "q").Printable signature := .of_isSymbol (by decide +kernel) rfl rfl
    (.of_chars (by decide) (by decide) (.inr (by decide)) (by decide))
  have himp : signature.terms.get? "im" = some Implication.terms[0] := rfl
  have hneg : signature.terms.get? "not" = some Implication.terms[1] := rfl
  have hnot : (Expr.app "not" [.var "p"]).Printable signature :=
    .app hneg rfl (List.forall_mem_singleton.mpr hp)
  exact .app himp rfl (List.forall_mem_cons.mpr ⟨hnot, List.forall_mem_singleton.mpr hq⟩)

/-- The parentheses around the negation can be left out. -/
theorem fromNegation_parentheses_superfluous :
    signature.Printable ∧ fromNegation.Printable signature ∧
      fromNegation.tokens signature 0 = ["(", "not", "p", ")", "->", "q"] ∧
      MathContext.whole ⟨signature, .start, .start⟩
        (["not", "p", "->", "q"].map fun s => ⟨s, .start⟩) = .ok fromNegation [] :=
  ⟨signature_printable, fromNegation_printable, by decide +kernel, by rfl⟩

end Tight

end Deductive
