import Deductive.Proofs.Portable

/-!
Theories with flags that are no truth values. A text says of a flag only whether it counts as yes or
no, and binders are written together if their flags are equal; so a theory is read back with truth
values for its flags, where these are equal to them, as the numbers zero and one are.
-/
namespace Deductive

namespace Json

theorem quotient?_pos {v : Json} {m : Int} {d : Nat} (h : v.quotient? = some (m, d)) : 0 < d := by
  unfold quotient? at h
  split at h
  · cases h
    exact Nat.one_pos
  · cases h
    exact Nat.one_pos
  · rename_i f
    have hden : 0 < f.quotient.2 := by
      unfold BinaryFraction.quotient
      split
      · exact Nat.one_pos
      · exact Nat.pow_pos Nat.two_pos
    cases h
    exact hden
  · cases h

/-- Numbers and truth values are compared as quotients. -/
theorem same_of_quotient? {v w : Json} {m n : Int} {d e : Nat}
    (hv : v.quotient? = some (m, d)) (hw : w.quotient? = some (n, e)) :
    v.same w = decide (m * e = n * d) := by
  cases v with
  | array => cases hv
  | object => cases hv
  | _ => simp only [same, hv, hw]

/-- Only a number or a truth value is equal to a truth value. -/
theorem quotient?_of_same_bool {v : Json} {b : Bool} (h : v.same (.bool b) = true) :
    ∃ d : Nat, v.quotient? = some ((if b then 1 else 0) * (d : Int), d) := by
  cases hv : v.quotient? with
  | none =>
    have hne : v ≠ .bool b := by
      rintro rfl
      cases hv
    cases v <;> simp_all [same]
  | some q =>
    obtain ⟨m, d⟩ := q
    rw [same_of_quotient? hv rfl, decide_eq_true_eq, Int.natCast_one, Int.mul_one] at h
    exact ⟨d, congrArg (fun m => some (m, d)) h⟩

end Json

namespace Truth

/-- The truth value that a flag counts as. -/
def decided (t : Truth) : Truth := .bool t.holds

/-- The flag is equal to a truth value. -/
def IsPlain (t : Truth) : Prop := t.same t.decided = true

variable {a b : Truth}

theorem decided_isPlain (t : Truth) : t.decided.IsPlain := Theory.same_bool t.holds

example : (Truth.value (.int 0) rfl).IsPlain ∧ ¬ (Truth.value .null rfl).IsPlain := by
  unfold IsPlain
  decide

/-- Flags that are equal to truth values are equal to one another if these are. -/
theorem IsPlain.same_eq (ha : a.IsPlain) (hb : b.IsPlain) : a.same b = (a.holds == b.holds) := by
  obtain ⟨d, hd⟩ := Json.quotient?_of_same_bool ha
  obtain ⟨e, he⟩ := Json.quotient?_of_same_bool hb
  have hne : (d : Int) * e ≠ 0 := by
    have := Json.quotient?_pos hd
    have := Json.quotient?_pos he
    exact Int.mul_ne_zero (by omega) (by omega)
  rw [same, Json.same_of_quotient? hd he]
  cases a.holds <;> cases b.holds <;> simp [hne, hne.symm, Int.mul_comm (e : Int)]

theorem IsPlain.decided_same_decided (ha : a.IsPlain) (hb : b.IsPlain) :
    a.decided.same b.decided = a.same b :=
  ((decided_isPlain a).same_eq (decided_isPlain b)).trans (ha.same_eq hb).symm

theorem IsPlain.decided_same (ha : a.IsPlain) : a.decided.same a = true :=
  ((decided_isPlain a).same_eq ha).trans (beq_self_eq_true _)

end Truth

def Binder.decided (b : Binder) : Binder := { b with bound := b.bound.decided }

def TermDecl.decided (term : TermDecl) : TermDecl :=
  { term with binders := term.binders.map Binder.decided, isDef := term.isDef.decided }

def Assertion.decided (a : Assertion) : Assertion :=
  { a with binders := a.binders.map Binder.decided }

def Signature.decided (sig : Signature) : Signature :=
  { sig with terms := sig.terms.mapValues TermDecl.decided }

/-- The theory with truth values for its flags. -/
def Theory.decided (t : Theory) : Theory :=
  { t with signature := t.signature.decided, assertions := t.assertions.map Assertion.decided }

/-- Every flag is equal to a truth value. -/
structure Theory.HasPlainFlags (t : Theory) : Prop where
  bound : ∀ b ∈ t.binders, b.bound.IsPlain
  isDef : ∀ term ∈ t.signature.terms.values, term.isDef.IsPlain

theorem Theory.HasTruthValues.hasPlainFlags {t : Theory} (h : t.HasTruthValues) : t.HasPlainFlags where
  bound := by
    intro b hb
    obtain ⟨v, hv⟩ := h.bound b hb
    exact hv ▸ (Truth.bool v).decided_isPlain
  isDef := by
    intro term hterm
    obtain ⟨v, hv⟩ := h.isDef term hterm
    exact hv ▸ (Truth.bool v).decided_isPlain

/-! Such flags are written alike. -/

namespace Binder

theorem groups_decided {binders : List Binder} (h : ∀ b ∈ binders, b.bound.IsPlain) :
    groups (binders.map decided) = (groups binders).map fun g => (g.1, g.2.decided) := by
  induction binders with
  | nil => rfl
  | cons b binders ih =>
    obtain ⟨hb, hbinders⟩ := List.forall_mem_cons.mp h
    rw [List.map_cons, groups, groups, ih hbinders]
    cases hgroups : groups binders with
    | nil => rfl
    | cons g rest =>
      have hfirst := hbinders g.2 (mem_groups (hgroups ▸ List.mem_cons_self)).1
      have hsame : b.decided.sameType g.2.decided = b.sameType g.2 := by
        rw [sameType, sameType, ← hb.decided_same_decided hfirst]
        rfl
      simp only [List.map_cons, hsame]
      split <;> rfl

theorem writeAll_decided {binders : List Binder} (h : ∀ b ∈ binders, b.bound.IsPlain) :
    writeAll (binders.map decided) = writeAll binders := by
  rw [writeAll, groups_decided h, List.map_map]
  rfl

end Binder

namespace Signature

variable {sig : Signature}

theorem nesting_decided (e : Expr) (p : Int) : e.nesting sig.decided p = e.nesting sig p := by
  have hlayout : ∀ f ∈ e.terms, ∀ k, sig.decided.layout f k = sig.layout f k := fun _ _ _ => rfl
  exact (Expr.tokens_nesting_congr hlayout (fun _ h => h) p).2

theorem writeMath_decided (e : Expr) : sig.decided.writeMath e = sig.writeMath e := by
  have hlayout : ∀ f ∈ e.terms, ∀ k, sig.decided.layout f k = sig.layout f k := fun _ _ _ => rfl
  exact congrArg mathString (Expr.format_congr rfl hlayout fun _ h => h)

theorem writeTerm_decided {term : TermDecl} (h : ∀ b ∈ term.binders, b.bound.IsPlain) :
    sig.decided.writeTerm term.decided = sig.writeTerm term := by
  simp only [writeTerm, TermDecl.decided, Binder.writeAll_decided h, writeMath_decided]
  rfl

theorem writeAssertion_decided {a : Assertion} (h : ∀ b ∈ a.binders, b.bound.IsPlain) :
    sig.decided.writeAssertion a.decided = sig.writeAssertion a := by
  have hmath : sig.decided.writeMath = sig.writeMath := funext writeMath_decided
  simp only [writeAssertion, Assertion.decided, Binder.writeAll_decided h, hmath]
  rfl

theorem values_terms_decided : sig.decided.terms.values = sig.terms.values.map TermDecl.decided := by
  simp only [decided, Registry.values, Registry.mapValues, List.map_map]
  rfl

end Signature

namespace Theory

variable {t : Theory}

theorem write_decided (h : t.HasPlainFlags) : t.decided.write = t.write := by
  have hterms : t.decided.signature.writeTerms = t.signature.writeTerms := by
    rw [Signature.writeTerms, Signature.writeTerms, decided, Signature.values_terms_decided,
      List.flatMap_map]
    refine List.flatMap_congr fun term hterm => ?_
    rw [Signature.writeTerm_decided fun b hb => h.bound b (mem_binders_of_term hterm hb)]
    rfl
  have hassertions : t.decided.assertions.map t.decided.signature.writeAssertion =
      t.assertions.map t.signature.writeAssertion := by
    simp only [decided, List.map_map]
    exact List.map_congr_left fun a ha =>
      Signature.writeAssertion_decided fun b hb => h.bound b (mem_binders_of_assertion ha hb)
  simp only [write, hterms, hassertions]
  rfl

end Theory

/-! The laws ask of a flag only whether it counts as yes or no. -/

theorem Binder.scope_decided (binders : List Binder) :
    scope (binders.map decided) = (scope binders).mapValues decided := by
  rw [scope, scope, ← Registry.ofList_map, List.map_map, List.map_map]
  rfl

theorem IsBound.decided {scope : Registry Name Binder} {x : Name} (h : IsBound scope x) :
    IsBound (scope.mapValues Binder.decided) x := by
  obtain ⟨b, hb, hbound⟩ := h
  exact ⟨b.decided, by rw [Registry.get?_mapValues, hb]; rfl, hbound⟩

theorem HasSort.decided {sig : Signature} {scope : Registry Name Binder} {e : Expr} {sort : SortName}
    (h : HasSort sig scope e sort) : HasSort sig.decided (scope.mapValues Binder.decided) e sort := by
  induction h with
  | @var x b found =>
    refine .var (b := b.decided) ?_
    rw [Registry.get?_mapValues, found]
    rfl
  | @app f term args declared arity _ bound ih =>
    have hterm : sig.decided.terms.get? f = some term.decided := by
      rw [Signature.decided, Registry.get?_mapValues, declared]
      rfl
    have hparam {arg : Expr} {param : Binder} (hm : (arg, param) ∈ args.zip term.decided.binders) :
        ∃ b, (arg, b) ∈ args.zip term.binders ∧ b.decided = param := by
      rw [TermDecl.decided, List.zip_map_right] at hm
      obtain ⟨⟨a, b⟩, hab, he⟩ := List.mem_map.mp hm
      cases he
      exact ⟨b, hab, rfl⟩
    change HasSort _ _ _ term.decided.resultSort
    refine .app hterm (arity.trans (List.length_map _).symm) (fun arg param hm => ?_)
      fun arg param hm hp => ?_
    · obtain ⟨b, hb, rfl⟩ := hparam hm
      exact ih arg b hb
    · obtain ⟨b, hb, rfl⟩ := hparam hm
      obtain ⟨x, rfl, hx⟩ := bound arg b hb hp
      exact ⟨x, rfl, hx.decided⟩

namespace Signature

variable {sig : Signature}

theorem LawfulBinders.decided {binders : List Binder} (h : sig.LawfulBinders binders) :
    sig.decided.LawfulBinders (binders.map Binder.decided) where
  sorts := List.forall_mem_map.mpr h.sorts
  deps := by
    intro earlier b later hb d hd
    obtain ⟨front, rest, rfl, rfl, hrest⟩ := List.map_eq_append_iff.mp hb
    obtain ⟨c, back, rfl, rfl, rfl⟩ := List.map_eq_cons_iff.mp hrest
    obtain ⟨d', hd', hbound, rfl⟩ := h.deps front c back rfl d hd
    exact ⟨d'.decided, List.mem_map_of_mem hd', hbound, rfl⟩

theorem LawfulTerm.decided {earlier : List Name} {term : TermDecl} (h : sig.LawfulTerm earlier term) :
    sig.decided.LawfulTerm earlier term.decided where
  names := by
    have hnames : term.decided.binders.map Binder.name = term.binders.map Binder.name := List.map_map
    exact hnames ▸ h.names
  binders := h.binders.decided
  result := h.result
  resultDeps := by
    intro d hd
    obtain ⟨b, hb, hbound, rfl⟩ := h.resultDeps d hd
    exact ⟨b.decided, List.mem_map_of_mem hb, hbound, rfl⟩
  body := by
    intro body hbody
    obtain ⟨hdef, hsort, hterms⟩ := h.body body hbody
    exact ⟨hdef, Binder.scope_decided _ ▸ hsort.decided, hterms⟩

theorem LawfulStatement.decided {binders : List Binder} {e : Expr}
    (h : sig.LawfulStatement binders e) :
    sig.decided.LawfulStatement (binders.map Binder.decided) e := by
  obtain ⟨sort, decl, hsort, hdecl, hprovable⟩ := h
  exact ⟨sort, decl, Binder.scope_decided _ ▸ hsort.decided, hdecl, hprovable⟩

theorem LawfulAssertion.decided {a : Assertion} (h : sig.LawfulAssertion a) :
    sig.decided.LawfulAssertion a.decided where
  names := by
    have hnames : a.decided.binders.map Binder.name = a.binders.map Binder.name := List.map_map
    exact hnames ▸ h.names
  binders := h.binders.decided
  hypotheses := fun hyp hm => (h.hypotheses hyp hm).decided
  conclusion := h.conclusion.decided

theorem get?_terms_decided {f : Name} {term : TermDecl} :
    sig.decided.terms.get? f = some term ↔ ∃ term', sig.terms.get? f = some term' ∧
      term'.decided = term := by
  rw [Signature.decided, Registry.get?_mapValues, Option.map_eq_some_iff]

theorem keys_terms_decided : sig.decided.terms.keys = sig.terms.keys := List.map_map

theorem Lawful.decided (h : sig.Lawful) : sig.decided.Lawful where
  sortKeys := h.sortKeys
  termKeys := by
    intro key term hterm
    obtain ⟨term', hterm', rfl⟩ := get?_terms_decided.mp hterm
    exact h.termKeys key term' hterm'
  terms := by
    intro earlier key term later hentries
    obtain ⟨front, rest, hfront, rfl, hrest⟩ := List.map_eq_append_iff.mp hentries
    obtain ⟨⟨key', term'⟩, back, rfl, he, rfl⟩ := List.map_eq_cons_iff.mp hrest
    cases he
    have hnames : (front.map fun e => (e.1, e.2.decided)).map Prod.fst = front.map Prod.fst :=
      List.map_map
    exact hnames ▸ (h.terms front _ term' back hfront).decided
  notations := by
    intro token n hn
    obtain ⟨term, hterm, harity⟩ := h.notations token n hn
    exact ⟨term.decided, get?_terms_decided.mpr ⟨term, hterm, rfl⟩, (List.length_map _).trans harity⟩

end Signature

namespace Theory

variable {t : Theory}

theorem labels_decided : t.decided.assertions.map Assertion.label = t.assertions.map Assertion.label :=
  List.map_map

theorem Lawful.decided (h : t.Lawful) : t.decided.Lawful := by
  have hkeys : t.decided.signature.terms.keys = t.signature.terms.keys := Signature.keys_terms_decided
  refine ⟨?_, ?_, ?_, ?_, h.signature.decided, ?_⟩
  · rw [hkeys]
    exact h.sortsTerms
  · rw [labels_decided]
    exact h.sortsLabels
  · rw [hkeys, labels_decided]
    exact h.termsLabels
  · rw [labels_decided]
    exact h.labels
  · exact List.forall_mem_map.mpr fun a ha => (h.assertions a ha).decided

theorem binders_decided : t.decided.binders = t.binders.map Binder.decided := by
  rw [binders, binders, decided, Signature.values_terms_decided, List.map_append, List.flatMap_map,
    List.flatMap_map, List.map_flatMap, List.map_flatMap]
  rfl

theorem formulas_decided : t.decided.formulas = t.formulas := by
  rw [formulas, formulas, decided, Signature.values_terms_decided, List.flatMap_map, List.flatMap_map]
  rfl

theorem Portable.decided (h : t.Portable) : t.decided.Portable := by
  have hkeys : t.decided.signature.terms.keys = t.signature.terms.keys := Signature.keys_terms_decided
  have hnames : t.decided.binders.map Binder.name = t.binders.map Binder.name := by
    rw [binders_decided, List.map_map]
    rfl
  have hsignature : t.decided.signature.Portable := by
    refine ⟨h.signature.sorts, ?_, h.signature.notations, h.signature.delimiters, h.signature.parted⟩
    rw [Theory.decided, Signature.values_terms_decided]
    exact List.forall_mem_map.mpr h.signature.terms
  refine ⟨hsignature, List.forall_mem_map.mpr h.labels, ?_, List.forall_mem_map.mpr h.hypotheses,
    ?_, ?_, ?_, ?_⟩
  · rw [binders_decided]
    exact List.forall_mem_map.mpr h.binders
  · rw [hkeys, hnames]
    exact h.symbols
  · rw [hkeys]
    exact h.termsNotations
  · rw [hkeys, hnames]
    exact h.bindersTerms
  · rw [hnames]
    exact h.bindersNotations

theorem decided_hasTruthValues (t : Theory) : t.decided.HasTruthValues where
  bound := by
    rw [binders_decided]
    exact List.forall_mem_map.mpr fun b _ => ⟨b.bound.holds, rfl⟩
  isDef := by
    rw [decided, Signature.values_terms_decided]
    exact List.forall_mem_map.mpr fun term _ => ⟨term.isDef.holds, rfl⟩

/-! A theory is equal to the one with the truth values. -/

theorem isEqv_map_self {α : Type} {same : α → α → Bool} {f : α → α} {as : List α}
    (h : ∀ a ∈ as, same (f a) a = true) : (as.map f).isEqv as same = true := by
  induction as with
  | nil => rfl
  | cons a as ih =>
    obtain ⟨ha, has⟩ := List.forall_mem_cons.mp h
    simp [List.isEqv, ha, ih has]

theorem decided_same_binder {b : Binder} (h : b.bound.IsPlain) : b.decided.same b = true := by
  simp [Binder.same, Binder.decided, h.decided_same]

theorem sameContent_of_decided {t' : Theory} (h : t'.sameContent t.decided = true)
    (hterms : t'.signature.terms = t.decided.signature.terms)
    (hassertions : t'.assertions = t.decided.assertions) (hf : t.HasPlainFlags) :
    t'.sameContent t = true := by
  simp only [sameContent, Signature.sameContent, Bool.and_eq_true, decide_eq_true_eq] at h ⊢
  obtain ⟨⟨hname, ⟨⟨hsorts, _⟩, hnotations⟩, hdelimiters⟩, _⟩ := h
  refine ⟨⟨hname, ⟨⟨hsorts, ?_⟩, hnotations⟩, hdelimiters⟩, ?_⟩
  · rw [hterms, Registry.sameValues_iff]
    intro f
    rw [decided, Signature.decided, Registry.get?_mapValues]
    cases hterm : t.signature.terms.get? f with
    | none => rfl
    | some term =>
      have hvalue : term ∈ t.signature.terms.values := Registry.mem_values_iff.mpr ⟨f, hterm⟩
      have hbinders := isEqv_map_self fun b hb =>
        decided_same_binder (hf.bound b (mem_binders_of_term hvalue hb))
      change term.decided.same term = true
      simp [TermDecl.same, TermDecl.decided, hbinders, (hf.isDef term hvalue).decided_same]
  · rw [hassertions]
    refine isEqv_map_self fun a ha => ?_
    have hbinders := isEqv_map_self fun b hb =>
      decided_same_binder (hf.bound b (mem_binders_of_assertion ha hb))
    simp [Assertion.same, Assertion.decided, hbinders]

/-- A portable theory with flags that are equal to truth values is read back from the text that is
written of it, with these truth values. -/
theorem parse_write_decided {name : String} (hname : t.name = name) (hline : '\n' ∉ name.toList)
    (hwell : t.isWellFormed = true) (hp : t.Portable) (hf : t.HasPlainFlags)
    (hnesting : ∀ e ∈ t.formulas, e.nesting t.signature 0 ≤ nestingLimit) :
    ∃ t', (parse t.write name).2 = .ok t' ∧ t'.sameContent t = true ∧
      t'.signature.sorts = t.signature.sorts ∧ t'.signature.terms = t.decided.signature.terms ∧
      t'.assertions = t.decided.assertions := by
  have hl := (lawful_of_isWellFormed hwell).decided
  have hspelled := hp.decided.isSpelled hl t.decided_hasTruthValues
  have hnesting' : ∀ e ∈ t.decided.formulas, e.nesting t.decided.signature 0 ≤ nestingLimit := by
    rw [formulas_decided]
    exact fun e he => (Signature.nesting_decided e 0).trans_le (hnesting e he)
  have hread : (parse t.write name).2 = .ok t.decided.regrouped := by
    rw [← write_decided hf,
      parse_write_eq (t := t.decided) hname hline hspelled hl (hp.decided.isLegible hl hnesting')]
  have hterms := regrouped_terms hspelled
  exact ⟨t.decided.regrouped, hread,
    sameContent_of_decided (regrouped_sameContent hspelled hl) hterms rfl hf,
    regrouped_sorts hspelled, hterms, rfl⟩

end Theory
end Deductive
