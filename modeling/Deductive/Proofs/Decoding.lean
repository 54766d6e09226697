import Deductive.CommandLine
import Deductive.Proofs.Results

/-!
How JSON values are decoded. A value in which the parts that are asked for fields are objects is
decoded, or refused with an error that is reported; whatever else it holds does no harm.
-/
namespace Deductive

/-- A value, or an error that is reported. -/
def Answers {α : Type} (x : Decoded α) : Prop :=
  ∀ e, x = .error e → (CommandLine.LoadError.decode e).isReported = true

namespace Answers

variable {α β : Type}

theorem ok (a : α) : Answers (.ok a) := nofun

theorem error {e : DecodeError} (h : (CommandLine.LoadError.decode e).isReported = true) :
    Answers (.error e : Decoded α) := by
  intro e' he
  cases he
  exact h

theorem bind {x : Decoded α} {f : α → Decoded β} (h : Answers x)
    (hf : ∀ a, x = .ok a → Answers (f a)) : Answers (x >>= f) := by
  cases x with
  | ok a => exact hf a rfl
  | error e => exact .error (h e rfl)

theorem map {x : Decoded α} (f : α → β) (h : Answers x) : Answers (x.map f) := by
  cases x with
  | ok a => exact .ok (f a)
  | error e => exact .error (h e rfl)

theorem all {decode : α → Decoded β} {as : List α} (h : ∀ a ∈ as, Answers (decode a)) :
    Answers (decodeAll decode as) := by
  induction as with
  | nil => exact .ok []
  | cons a as ih =>
    obtain ⟨ha, has⟩ := List.forall_mem_cons.mp h
    apply ha.bind
    intro b _
    apply (ih has).bind
    intro bs _
    exact .ok (b :: bs)

end Answers

namespace Json

def IsObject (v : Json) : Prop := ∃ fields, v = .object fields

def IsString (v : Json) : Prop := ∃ s, v = .string s

def IsFinite (v : Json) : Prop := ∀ sign, v ≠ .infinity sign

/-- The field, where there is one. -/
def Field (key : JsonString) (P : Json → Prop) (v : Json) : Prop := ∀ w, v.field key = .ok w → P w

/-- All that the value stands for as a list. -/
def Items (P : Json → Prop) (v : Json) : Prop := ∀ ws, v.items = .ok ws → ∀ w ∈ ws, P w

/-- An object, and all its fields. -/
structure Entries (P : Json → Prop) (v : Json) : Prop where
  object : v.IsObject
  values : ∀ fields, v.fields = .ok fields → ∀ f ∈ fields, P f.2

structure IsSort (v : Json) : Prop where
  object : v.IsObject
  modifiers : v.Field "modifiers" (Items IsString)

structure IsSignature (v : Json) : Prop where
  object : v.IsObject
  sorts : v.Field "sorts" (Entries IsSort)
  terms : v.Field "terms" IsObject
  notations : v.Field "notations" (Entries (Field "prec" IsFinite))
  delimiters : v.Field "delimiters" IsObject

/-- Where fields are asked for that may be left out, there are objects; the modifiers of sorts are
strings, and no precedence is infinite. Whether fields are there, and all other values, are left
open. -/
structure IsShaped (v : Json) : Prop where
  signature : v.Field "signature" IsSignature
  hypotheses : v.Field "assertions" (Items (Field "hypotheses" (Items IsObject)))

variable {P : Json → Prop} {key : JsonString} {v : Json}

instance : Decidable v.IsObject :=
  match v with
  | .object fields => isTrue ⟨fields, rfl⟩
  | .null | .bool _ | .int _ | .fraction _ _ | .infinity _ | .nan | .string _ | .array _ =>
    isFalse nofun

instance : Decidable v.IsFinite :=
  decidable_of_iff (v ≠ .infinity false ∧ v ≠ .infinity true)
    ⟨fun h sign => Bool.casesOn sign h.1 h.2, fun h => ⟨h false, h true⟩⟩

instance : Decidable v.IsString :=
  match v with
  | .string s => isTrue ⟨s, rfl⟩
  | .null | .bool _ | .int _ | .fraction _ _ | .infinity _ | .nan | .array _ | .object _ =>
    isFalse nofun

/-- What is asked of a value that may not be there. -/
instance {α : Type} {Q : α → Prop} [DecidablePred Q] (x : Decoded α) :
    Decidable (∀ a, x = .ok a → Q a) :=
  match x with
  | .ok a => decidable_of_iff (Q a) ⟨fun h _ he => Except.ok.inj he ▸ h, fun h => h a rfl⟩
  | .error _ => isTrue nofun

instance [DecidablePred P] : Decidable (v.Field key P) :=
  inferInstanceAs (Decidable (∀ w, v.field key = .ok w → P w))

instance [DecidablePred P] : Decidable (v.Items P) :=
  inferInstanceAs (Decidable (∀ ws, v.items = .ok ws → ∀ w ∈ ws, P w))

instance [DecidablePred P] : Decidable (v.Entries P) :=
  decidable_of_iff (v.IsObject ∧ ∀ fields, v.fields = .ok fields → ∀ f ∈ fields, P f.2)
    ⟨fun h => ⟨h.1, h.2⟩, fun h => ⟨h.object, h.values⟩⟩

instance : Decidable v.IsSort :=
  decidable_of_iff (v.IsObject ∧ v.Field "modifiers" (Items IsString))
    ⟨fun h => ⟨h.1, h.2⟩, fun h => ⟨h.object, h.modifiers⟩⟩

instance : Decidable v.IsSignature :=
  decidable_of_iff (v.IsObject ∧ v.Field "sorts" (Entries IsSort) ∧ v.Field "terms" IsObject ∧
      v.Field "notations" (Entries (Field "prec" IsFinite)) ∧ v.Field "delimiters" IsObject)
    ⟨fun h => ⟨h.1, h.2.1, h.2.2.1, h.2.2.2.1, h.2.2.2.2⟩,
      fun h => ⟨h.object, h.sorts, h.terms, h.notations, h.delimiters⟩⟩

instance : Decidable v.IsShaped :=
  decidable_of_iff (v.Field "signature" IsSignature ∧
      v.Field "assertions" (Items (Field "hypotheses" (Items IsObject))))
    ⟨fun h => ⟨h.1, h.2⟩, fun h => ⟨h.signature, h.hypotheses⟩⟩

theorem field_answers (key : JsonString) (v : Json) : Answers (v.field key) := by
  cases v with
  | object fields =>
    rw [field]
    split
    · exact .ok _
    · exact .error rfl
  | _ => exact .error rfl

theorem isObject_of_field {w : Json} (h : v.field key = .ok w) : v.IsObject := by
  cases v with
  | object fields => exact ⟨fields, rfl⟩
  | _ => cases h

theorem IsObject.field?_answers (h : v.IsObject) (key : JsonString) : Answers (v.field? key) := by
  obtain ⟨fields, rfl⟩ := h
  exact .ok _

theorem IsObject.fields_answers (h : v.IsObject) : Answers v.fields := by
  obtain ⟨fields, rfl⟩ := h
  exact .ok fields

theorem field_of_field? {w : Json} (h : v.field? key = .ok (some w)) : v.field key = .ok w := by
  cases v with
  | object fields =>
    rw [field, Except.ok.inj h]
  | _ => cases h

theorem items_answers (v : Json) : Answers v.items := by
  cases v with
  | array _ | string _ | object _ => exact .ok _
  | _ => exact .error rfl

theorem itemsD_answers (v : Option Json) : Answers (itemsD v) := by
  cases v with
  | none => exact .ok []
  | some v => exact v.items_answers

theorem IsFinite.integer_answers (h : v.IsFinite) : Answers v.integer := by
  cases v with
  | infinity sign => exact absurd rfl (h sign)
  | int _ | bool _ | fraction _ _ => exact .ok _
  | string s =>
    rw [integer]
    cases Text.readInteger s.escaped with
    | ok n => exact .ok n
    | error e => exact .error rfl
  | _ => exact .error rfl

end Json

open Json (IsObject field_answers isObject_of_field)

variable {v : Json}

/-! The parts of a theory. -/

theorem decodeNames_answers (v : Option Json) : Answers (decodeNames v) := by
  apply (Json.itemsD_answers v).bind
  intro names _
  exact .ok _

theorem Registry.ofJson_answers {α : Type} {decode : Json → Decoded α} {P : Json → Prop}
    (hdecode : ∀ w, P w → Answers (decode w)) (h : v.Entries P) :
    Answers (Registry.ofJson decode v) := by
  apply h.object.fields_answers.bind
  intro fields hfields
  have hentries : ∀ f ∈ fields, Answers (do pure (Name.ofJson (.string f.1), ← decode f.2)) := by
    intro f hf
    apply (hdecode f.2 (h.values fields hfields f hf)).bind
    intro a _
    exact .ok _
  apply (Answers.all hentries).bind
  intro entries _
  exact .ok _

theorem SortModifiers.ofJson_answers (h : v.IsString) : Answers (SortModifiers.ofJson v) := by
  obtain ⟨word, rfl⟩ := h
  rw [SortModifiers.ofJson]
  split
  · exact .ok _
  · exact .error rfl

theorem SortDecl.ofJson_answers (h : v.IsSort) : Answers (SortDecl.ofJson v) := by
  apply (h.object.field?_answers _).bind
  intro modifiers hmodifiers
  apply (Json.itemsD_answers modifiers).bind
  intro words hwords
  have hstrings : ∀ w ∈ words, w.IsString := by
    cases modifiers with
    | none =>
      cases hwords
      nofun
    | some w => exact h.modifiers w (Json.field_of_field? hmodifiers) words hwords
  apply (Answers.all fun w hw => SortModifiers.ofJson_answers (hstrings w hw)).bind
  intro _ _
  apply (field_answers _ v).bind
  intro _ _
  exact .ok _

mutual

theorem Expr.ofJson_answers (v : Json) : Answers (Expr.ofJson v) := by
  match v with
  | .object fields =>
    rw [Expr.ofJson]
    split
    · exact .error rfl
    · apply (field_answers _ _).bind
      intro _ _
      exact .ok _
    · apply (field_answers _ _).bind
      intro _ _
      split
      · exact .error rfl
      · rename_i items h
        have hsize : sizeOf items < sizeOf fields := by
          have := sizeOf_find_lt h
          rw [Json.array.sizeOf_spec] at this
          omega
        apply (Expr.ofJsonAll_answers items).bind
        intro _ _
        exact .ok _
      · rename_i w _ _
        apply w.items_answers.bind
        intro items _
        split
        · exact .ok _
        · exact .error rfl
    · exact .error rfl
  | .null | .bool _ | .int _ | .fraction _ _ | .infinity _ | .nan | .string _ | .array _ =>
    unfold Expr.ofJson
    exact .error rfl
  termination_by sizeOf v
  decreasing_by
    rw [Json.object.sizeOf_spec]
    omega

theorem Expr.ofJsonAll_answers (vs : List Json) : Answers (Expr.ofJsonAll vs) := by
  match vs with
  | [] =>
    rw [Expr.ofJsonAll]
    exact .ok []
  | v :: vs =>
    rw [Expr.ofJsonAll]
    apply (Expr.ofJson_answers v).bind
    intro _ _
    apply (Expr.ofJsonAll_answers vs).bind
    intro _ _
    exact .ok _
  termination_by sizeOf vs

end

theorem Binder.ofJson_answers (v : Json) : Answers (Binder.ofJson v) := by
  apply (field_answers _ v).bind
  intro _ hname
  have hobject := isObject_of_field hname
  apply (field_answers _ v).bind
  intro _ _
  apply (hobject.field?_answers _).bind
  intro _ _
  apply (hobject.field?_answers _).bind
  intro deps _
  apply (decodeNames_answers deps).bind
  intro _ _
  exact .ok _

theorem decodeOption_answers {α : Type} {decode : Json → Decoded α} (h : ∀ w, Answers (decode w))
    (v : Option Json) : Answers (decodeOption decode v) := by
  unfold decodeOption
  split
  · exact .ok none
  · exact .ok none
  · rename_i w _
    exact (h w).map some

theorem TermDecl.ofJson_answers (v : Json) : Answers (TermDecl.ofJson v) := by
  apply (field_answers _ v).bind
  intro _ hname
  have hobject := isObject_of_field hname
  apply (field_answers _ v).bind
  intro binders _
  apply binders.items_answers.bind
  intro items _
  apply (Answers.all fun w _ => Binder.ofJson_answers w).bind
  intro _ _
  apply (field_answers _ v).bind
  intro _ _
  apply (hobject.field?_answers _).bind
  intro deps _
  apply (decodeNames_answers deps).bind
  intro _ _
  apply (hobject.field?_answers _).bind
  intro _ _
  apply (hobject.field?_answers _).bind
  intro body _
  apply (decodeOption_answers Expr.ofJson_answers body).bind
  intro _ _
  exact .ok _

theorem Fixity.ofJson_answers (v : Json) : Answers (Fixity.ofJson v) := by
  unfold Fixity.ofJson
  split
  · split
    · exact .ok _
    · exact .error rfl
  · exact .error rfl

theorem Notation.ofJson_answers (h : v.Field "prec" Json.IsFinite) :
    Answers (Notation.ofJson v) := by
  apply (field_answers _ v).bind
  intro level hlevel
  apply (field_answers _ v).bind
  intro _ _
  apply (field_answers _ v).bind
  intro _ _
  apply (field_answers _ v).bind
  intro fixity _
  apply (Fixity.ofJson_answers fixity).bind
  intro _ _
  have hprec : Answers (decodePrec level) := by
    unfold decodePrec
    split
    · exact .ok _
    · exact (h level hlevel).integer_answers
  apply hprec.bind
  intro _ _
  exact .ok _

theorem decodeSide_answers (v : Option Json) : Answers (decodeSide v) := by
  apply (Json.itemsD_answers v).bind
  intro items _
  apply Answers.all
  intro w _
  unfold decodeMember
  dsimp only
  split
  · exact .ok _
  · exact .error rfl

theorem Delimiters.ofJson_answers (h : v.IsObject) : Answers (Delimiters.ofJson v) := by
  apply (h.field?_answers _).bind
  intro left _
  apply (decodeSide_answers left).bind
  intro _ _
  apply (h.field?_answers _).bind
  intro right _
  apply (decodeSide_answers right).bind
  intro _ _
  exact .ok _

/-- A field that may be left out, with the empty object for it. -/
theorem Json.Field.getD {key : JsonString} {P : Json → Prop} (h : v.Field key P)
    (hempty : P (.object [])) {w : Option Json} (hw : v.field? key = .ok w) :
    P (w.getD (.object [])) := by
  cases w with
  | none => exact hempty
  | some w => exact h w (field_of_field? hw)

theorem Json.entries_empty (P : Json → Prop) : Entries P (.object []) := by
  refine ⟨⟨[], rfl⟩, fun fields hfields => ?_⟩
  cases hfields
  exact nofun

theorem Signature.ofJson_answers (h : v.IsSignature) : Answers (Signature.ofJson v) := by
  apply (h.object.field?_answers _).bind
  intro delimiters hdelimiters
  apply (field_answers _ v).bind
  intro sorts hsorts
  apply (Registry.ofJson_answers (fun w => SortDecl.ofJson_answers) (h.sorts sorts hsorts)).bind
  intro _ _
  apply (field_answers _ v).bind
  intro terms hterms
  have hentries : terms.Entries fun _ => True := ⟨h.terms terms hterms, fun _ _ _ _ => trivial⟩
  apply (Registry.ofJson_answers (fun w _ => TermDecl.ofJson_answers w) hentries).bind
  intro _ _
  apply (h.object.field?_answers _).bind
  intro notations hnotations
  have hentries := h.notations.getD (Json.entries_empty _) hnotations
  apply (Registry.ofJson_answers (fun w => Notation.ofJson_answers) hentries).bind
  intro _ _
  have hobject := h.delimiters.getD ⟨[], rfl⟩ hdelimiters
  apply (Delimiters.ofJson_answers hobject).bind
  intro _ _
  exact .ok _

theorem AssertionKind.ofJson_answers (v : Json) : Answers (AssertionKind.ofJson v) := by
  unfold AssertionKind.ofJson
  split
  · split
    · exact .ok _
    · exact .error rfl
  · exact .error rfl

theorem Hypothesis.ofJson_answers (h : v.IsObject) : Answers (Hypothesis.ofJson v) := by
  apply (h.field?_answers _).bind
  intro _ _
  apply (field_answers _ v).bind
  intro formula _
  apply (Expr.ofJson_answers formula).bind
  intro _ _
  exact .ok _

theorem Assertion.ofJson_answers (h : v.Field "hypotheses" (Json.Items IsObject)) :
    Answers (Assertion.ofJson v) := by
  apply (field_answers _ v).bind
  intro kind _
  apply (AssertionKind.ofJson_answers kind).bind
  intro _ _
  apply (field_answers _ v).bind
  intro _ _
  apply (field_answers _ v).bind
  intro binders _
  apply binders.items_answers.bind
  intro _ _
  apply (Answers.all fun w _ => Binder.ofJson_answers w).bind
  intro _ _
  apply (field_answers _ v).bind
  intro hypotheses hhypotheses
  apply hypotheses.items_answers.bind
  intro items hitems
  have hobjects := h hypotheses hhypotheses items hitems
  apply (Answers.all fun w hw => Hypothesis.ofJson_answers (hobjects w hw)).bind
  intro _ _
  apply (field_answers _ v).bind
  intro conclusion _
  apply (Expr.ofJson_answers conclusion).bind
  intro _ _
  exact .ok _

/-- Where objects stand where fields are asked for, every fault of a theory is reported. -/
theorem Theory.ofJson_answers (h : v.IsShaped) : Answers (Theory.ofJson v) := by
  apply (field_answers _ v).bind
  intro _ _
  apply (field_answers _ v).bind
  intro signature hsignature
  apply (Signature.ofJson_answers (h.signature signature hsignature)).bind
  intro _ _
  apply (field_answers _ v).bind
  intro assertions hassertions
  apply assertions.items_answers.bind
  intro items hitems
  have hshaped := h.hypotheses assertions hassertions items hitems
  apply (Answers.all fun w hw => Assertion.ofJson_answers (hshaped w hw)).bind
  intro _ _
  exact .ok _

/-- A text that is no JSON is reported, too. -/
theorem Theory.ofJsonText_answers {text : String}
    (h : ∀ v, Json.parse text = .ok v → v.IsShaped) : Answers (Theory.ofJsonText text) := by
  unfold Theory.ofJsonText
  split
  · rename_i v hv
    exact Theory.ofJson_answers (h v hv)
  · exact .error rfl

end Deductive
