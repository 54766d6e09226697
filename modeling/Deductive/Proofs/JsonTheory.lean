import Deductive.Proofs.JsonDelimiters
import Deductive.Proofs.Substitution

/-!
Theories are read from the JSON text that they are written as, all parts in the same order.
-/
namespace Deductive

/-- The value is kept by JSON text, and the part is read from it. -/
def Json.Holds {α : Type} (decode : Json → Decoded α) (v : Json) (a : α) : Prop :=
  v.IsStable ∧ decode v = .ok a

theorem Json.holds_all {α : Type} {decode : Json → Decoded α} {encode : α → Json} {as : List α}
    (h : ∀ a ∈ as, Holds decode (encode a) a) :
    (Json.array (as.map encode)).IsStable ∧ decodeAll decode (as.map encode) = .ok as := by
  constructor
  · refine .array fun v hv => ?_
    obtain ⟨a, ha, rfl⟩ := List.mem_map.mp hv
    exact (h a ha).1
  · refine (decodeAll_map (g := id) fun a ha => (h a ha).2).trans ?_
    rw [List.map_id]

/-- An object that says what it stands for. -/
theorem Json.isStable_typed {type : String} {fields : List (JsonString × Json)}
    (keys : List String) (hkeys : fields.map Prod.fst = keys.map JsonString.text)
    (hnodup : ("type" :: keys).Nodup) (h : ∀ f ∈ fields, f.2.IsStable) :
    (Json.typed type fields).IsStable :=
  .object_of_texts ("type" :: keys) (congrArg (_ :: ·) hkeys) hnodup
    (List.forall_mem_cons.mpr ⟨.string (JsonString.isStable_text type), h⟩)

theorem Json.isStable_text (s : String) : (Json.string s).IsStable :=
  .string (JsonString.isStable_text s)

def Name.IsStable (n : Name) : Prop := n.toJson.IsStable

def Truth.IsStable (t : Truth) : Prop := t.toJson.IsStable

theorem Name.isStable_text (s : String) : (text s).IsStable := Json.isStable_text s

theorem Truth.isStable_bool (b : Bool) : (bool b).IsStable := .bool b

theorem Json.isStable_names {ns : List Name} (h : ∀ n ∈ ns, n.IsStable) : (names ns).IsStable := by
  refine .array fun v hv => ?_
  obtain ⟨n, hn, rfl⟩ := List.mem_map.mp hv
  exact h n hn

theorem decodeNames_names (ns : List Name) : decodeNames (some (.names ns)) = .ok ns := by
  change Except.ok ((ns.map Name.toJson).map Name.ofJson) = _
  rw [List.map_map]
  exact congrArg Except.ok
    ((List.map_congr_left fun n _ => Name.ofJson_toJson n).trans (List.map_id _))

structure Binder.IsStable (b : Binder) : Prop where
  names : ∀ n ∈ b.name :: b.sort :: b.deps, n.IsStable
  bound : b.bound.IsStable

theorem Binder.IsStable.holds {b : Binder} (h : b.IsStable) : Json.Holds ofJson b.toJson b := by
  obtain ⟨hnames, hbound⟩ := h
  simp only [List.forall_mem_cons] at hnames
  obtain ⟨hname, hsort, hdeps⟩ := hnames
  constructor
  · refine Json.isStable_typed ["name", "sort", "bound", "deps"] rfl (by decide) ?_
    simp only [List.forall_mem_cons]
    exact ⟨hname, hsort, hbound, Json.isStable_names hdeps, nofun⟩
  · change (decodeNames (some (.names b.deps)) >>= fun deps => pure (Binder.mk
      (.ofJson b.name.toJson) (.ofJson b.sort.toJson) (.ofJson b.bound.toJson) deps)) = _
    rw [decodeNames_names, ok_bind, Name.ofJson_toJson, Name.ofJson_toJson, Truth.ofJson_toJson]
    rfl

/-- All names in the expression are kept. -/
inductive Expr.IsStable : Expr → Prop
  | var {x : Name} (name : x.IsStable) : IsStable (.var x)
  | app {f : Name} {args : List Expr} (term : f.IsStable) (args_stable : ∀ e ∈ args, IsStable e) :
      IsStable (.app f args)

theorem Expr.toJsonAll_eq_map (es : List Expr) : toJsonAll es = es.map toJson := by
  induction es with
  | nil => rfl
  | cons e es ih => rw [toJsonAll, ih, List.map_cons]

theorem Expr.ofJsonAll_eq_decodeAll (vs : List Json) : ofJsonAll vs = decodeAll ofJson vs := by
  induction vs with
  | nil => rw [ofJsonAll, decodeAll]
  | cons v vs ih => rw [ofJsonAll, decodeAll, ih]

theorem Expr.ofJson_var (x : Json) :
    ofJson (.typed "var" [("name", x)]) = .ok (.var (.ofJson x)) := by
  rw [Json.typed, ofJson]
  rfl

theorem Expr.ofJson_app (term : Json) (items : List Json) :
    ofJson (.typed "app" [("term", term), ("args", .array items)]) =
      ofJsonAll items >>= fun args => pure (.app (.ofJson term) args) := by
  rw [Json.typed, ofJson]
  rfl

theorem Expr.IsStable.holds {e : Expr} (h : e.IsStable) : Json.Holds ofJson e.toJson e := by
  induction h with
  | var name =>
    constructor
    · refine Json.isStable_typed ["name"] rfl (by decide) ?_
      simp only [List.forall_mem_cons]
      exact ⟨name, nofun⟩
    · rw [toJson, ofJson_var, Name.ofJson_toJson]
  | app term args_stable ih =>
    obtain ⟨hargs, hdecode⟩ := Json.holds_all ih
    rw [toJson, toJsonAll_eq_map]
    constructor
    · refine Json.isStable_typed ["term", "args"] rfl (by decide) ?_
      simp only [List.forall_mem_cons]
      exact ⟨term, hargs, nofun⟩
    · rw [ofJson_app, ofJsonAll_eq_decodeAll, hdecode, ok_bind, Name.ofJson_toJson]
      rfl

structure TermDecl.IsStable (t : TermDecl) : Prop where
  names : ∀ n ∈ t.name :: t.resultSort :: t.resultDeps, n.IsStable
  binders : ∀ b ∈ t.binders, b.IsStable
  isDef : t.isDef.IsStable
  body : ∀ e, t.body = some e → e.IsStable

theorem decodeOption_some {α : Type} {decode : Json → Decoded α} {v : Json} (h : v ≠ .null) :
    decodeOption decode (some v) = (decode v).map some := by
  cases v with
  | null => exact absurd rfl h
  | _ => rfl

/-- No expression is written as null. -/
theorem Expr.holds_body {body : Option Expr} (h : ∀ e, body = some e → e.IsStable) :
    ((body.map toJson).getD .null).IsStable ∧
      decodeOption ofJson (some ((body.map toJson).getD .null)) = .ok body := by
  cases body with
  | none => exact ⟨.null, rfl⟩
  | some e =>
    obtain ⟨hstable, hdecode⟩ := (h e rfl).holds
    have hnull : e.toJson ≠ .null := by
      cases e <;> nofun
    refine ⟨hstable, ?_⟩
    rw [Option.map_some, Option.getD_some, decodeOption_some hnull, hdecode]
    rfl

theorem TermDecl.IsStable.holds {t : TermDecl} (h : t.IsStable) : Json.Holds ofJson t.toJson t := by
  obtain ⟨hnames, hbinders, hdef, hbody⟩ := h
  simp only [List.forall_mem_cons] at hnames
  obtain ⟨hname, hsort, hdeps⟩ := hnames
  obtain ⟨hbinders, hdecodeBinders⟩ := Json.holds_all fun b hb => (hbinders b hb).holds
  obtain ⟨hbody, hdecodeBody⟩ := Expr.holds_body hbody
  constructor
  · refine Json.isStable_typed ["name", "binders", "result_sort", "result_deps", "is_def", "body"]
      rfl (by decide) ?_
    simp only [List.forall_mem_cons]
    exact ⟨hname, hbinders, hsort, Json.isStable_names hdeps, hdef, hbody, nofun⟩
  · change (decodeAll Binder.ofJson (t.binders.map Binder.toJson) >>= fun binders =>
      decodeNames (some (.names t.resultDeps)) >>= fun deps =>
      decodeOption Expr.ofJson (some ((t.body.map Expr.toJson).getD .null)) >>= fun body =>
      pure (TermDecl.mk (.ofJson t.name.toJson) binders (.ofJson t.resultSort.toJson) deps
        (.ofJson t.isDef.toJson) body)) = _
    rw [hdecodeBinders, ok_bind, decodeNames_names, ok_bind, hdecodeBody, ok_bind,
      Name.ofJson_toJson, Name.ofJson_toJson, Truth.ofJson_toJson]
    rfl

structure Notation.IsStable (n : Notation) : Prop where
  names : ∀ name ∈ [n.term, n.token], name.IsStable
  digits : (Nat.toDigits 10 n.prec.natAbs).length ≤ Text.maxDigits

theorem decodePrec_precKeyword {n : Notation}
    (h : (Nat.toDigits 10 n.prec.natAbs).length ≤ Text.maxDigits) :
    decodePrec (.string n.precKeyword) = .ok n.prec := by
  unfold Notation.precKeyword
  split
  · rename_i hmax
    rw [hmax]
    rfl
  · have hword : toString n.prec ≠ "max" := by
      intro he
      rcases Json.toString_cases n.prec with ⟨c, cs, hcs, hc⟩ | ⟨c, cs, hcs, _⟩
      · rw [he] at hcs
        obtain rfl : 'm' = c := (List.cons.inj hcs).1
        cases hc
      · rw [he] at hcs
        exact absurd (List.cons.inj hcs).1 (by decide)
    unfold decodePrec
    split
    · rename_i he
      exact absurd (JsonString.text.inj (Json.string.inj he)) hword
    · change (Text.readInteger (toString n.prec)).mapError _ = _
      rw [Text.readInteger_toString h]
      rfl

theorem Notation.IsStable.holds {n : Notation} (h : n.IsStable) : Json.Holds ofJson n.toJson n := by
  obtain ⟨hnames, hdigits⟩ := h
  simp only [List.forall_mem_cons] at hnames
  obtain ⟨hterm, htoken, _⟩ := hnames
  constructor
  · refine Json.isStable_typed ["term", "token", "fixity", "prec"] rfl (by decide) ?_
    simp only [List.forall_mem_cons]
    exact ⟨hterm, htoken, Json.isStable_text _, Json.isStable_text _, nofun⟩
  · have hfixity : Fixity.ofJson (.string n.fixity.keyword) = .ok n.fixity := by
      cases n.fixity <;> rfl
    change (Fixity.ofJson (.string n.fixity.keyword) >>= fun fixity =>
      decodePrec (.string n.precKeyword) >>= fun prec =>
      pure (Notation.mk (.ofJson n.term.toJson) (.ofJson n.token.toJson) fixity prec)) = _
    rw [hfixity, ok_bind, decodePrec_precKeyword hdigits, ok_bind, Name.ofJson_toJson,
      Name.ofJson_toJson]
    rfl

namespace SortModifiers

/-- The entries of the modifiers among those of `m`. -/
def entries (m : SortModifiers) : List (String × SortModifiers) :=
  table.filter fun e => e.2.union m = m

theorem entries_eq (m : SortModifiers) : m.entries.map Prod.fst = m.keywords ∧
    (m.entries.map Prod.snd).foldl union empty = m := by
  obtain ⟨closed, strict, provable, free⟩ := m
  revert closed strict provable free
  decide

theorem decodeAll_keywords (m : SortModifiers) :
    decodeAll ofJson (m.keywords.map fun (word : String) => .string word) =
      .ok (m.entries.map Prod.snd) := by
  have hword : ∀ e ∈ table, ofWord? e.1 = some e.2 := by decide
  rw [← (entries_eq m).1, List.map_map]
  refine decodeAll_map fun e he => ?_
  simp only [Function.comp_apply, ofJson, JsonString.escaped, hword e (List.mem_of_mem_filter he)]

end SortModifiers

theorem SortDecl.holds {s : SortDecl} (h : s.name.IsStable) : Json.Holds ofJson s.toJson s := by
  constructor
  · refine Json.isStable_typed ["name", "modifiers"] rfl (by decide) ?_
    simp only [List.forall_mem_cons]
    refine ⟨h, .array fun v hv => ?_, nofun⟩
    obtain ⟨word, _, rfl⟩ := List.mem_map.mp hv
    exact Json.isStable_text word
  · change (decodeAll SortModifiers.ofJson
      (s.modifiers.keywords.map fun (word : String) => .string word) >>= fun ms =>
        pure (SortDecl.mk (.ofJson s.name.toJson) (ms.foldl SortModifiers.union .empty))) = _
    rw [SortModifiers.decodeAll_keywords, ok_bind, (SortModifiers.entries_eq _).2,
      Name.ofJson_toJson]
    rfl

structure Hypothesis.IsStable (h : Hypothesis) : Prop where
  name : ∀ n, h.name = some n → n.IsStable ∧ n.toJson ≠ .null
  formula : h.formula.IsStable

theorem Hypothesis.IsStable.holds {h : Hypothesis} (hs : h.IsStable) :
    Json.Holds ofJson h.toJson h := by
  obtain ⟨name, formula⟩ := h
  obtain ⟨hname, hformula⟩ := hs
  obtain ⟨hstable, hdecode⟩ := Expr.IsStable.holds hformula
  dsimp only at hname hstable hdecode
  have hvalue : ((name.map Name.toJson).getD .null).IsStable ∧
      ((some ((name.map Name.toJson).getD .null)).filter (· ≠ .null)).map Name.ofJson = name := by
    cases name with
    | none => exact ⟨.null, rfl⟩
    | some n =>
      obtain ⟨hn, hnull⟩ := hname n rfl
      refine ⟨hn, ?_⟩
      rw [Option.map_some, Option.getD_some, Option.filter_some, if_pos (decide_eq_true hnull),
        Option.map_some, Name.ofJson_toJson]
  constructor
  · refine Json.isStable_typed ["name", "formula"] rfl (by decide) ?_
    simp only [List.forall_mem_cons]
    exact ⟨hvalue.1, hstable, nofun⟩
  · change (Expr.ofJson formula.toJson >>= fun formula => pure (Hypothesis.mk
      (((some ((name.map Name.toJson).getD .null)).filter (· ≠ .null)).map Name.ofJson)
        formula)) = _
    rw [hdecode, ok_bind, hvalue.2]
    rfl

structure Assertion.IsStable (a : Assertion) : Prop where
  label : a.label.IsStable
  binders : ∀ b ∈ a.binders, b.IsStable
  hypotheses : ∀ h ∈ a.hypotheses, h.IsStable
  conclusion : a.conclusion.IsStable

theorem Assertion.IsStable.holds {a : Assertion} (h : a.IsStable) :
    Json.Holds ofJson a.toJson a := by
  obtain ⟨hlabel, hbinders, hhypotheses, hconclusion⟩ := h
  obtain ⟨hbinders, hdecodeBinders⟩ := Json.holds_all fun b hb => (hbinders b hb).holds
  obtain ⟨hhypotheses, hdecodeHypotheses⟩ := Json.holds_all fun h hh => (hhypotheses h hh).holds
  obtain ⟨hconclusion, hdecodeConclusion⟩ := hconclusion.holds
  constructor
  · refine Json.isStable_typed ["kind", "label", "binders", "hypotheses", "conclusion"] rfl
      (by decide) ?_
    simp only [List.forall_mem_cons]
    exact ⟨Json.isStable_text _, hlabel, hbinders, hhypotheses, hconclusion, nofun⟩
  · have hkind : AssertionKind.ofJson (.string a.kind.keyword) = .ok a.kind := by
      cases a.kind <;> rfl
    change (AssertionKind.ofJson (.string a.kind.keyword) >>= fun kind =>
      decodeAll Binder.ofJson (a.binders.map Binder.toJson) >>= fun binders =>
      decodeAll Hypothesis.ofJson (a.hypotheses.map Hypothesis.toJson) >>= fun hypotheses =>
      Expr.ofJson a.conclusion.toJson >>= fun conclusion =>
      pure (Assertion.mk kind (.ofJson a.label.toJson) binders hypotheses conclusion)) = _
    rw [hkind, ok_bind, hdecodeBinders, ok_bind, hdecodeHypotheses, ok_bind, hdecodeConclusion,
      ok_bind, Name.ofJson_toJson]
    rfl

/-- The keys are texts, as the names of fields are, and every value is kept. -/
structure Registry.IsStable {α : Type} (r : Registry Name α) (P : α → Prop) : Prop where
  keys : ∀ key ∈ r.keys, key.IsStable ∧ key.isText = true
  values : ∀ a ∈ r.values, P a

theorem Name.eq_ofJson_of_isText {n : Name} (h : n.isText = true) :
    n.toJson = .string n.toJsonString := by
  unfold isText at h
  split at h
  · rename_i s hs
    rw [hs, ← ofJson_toJson n, hs, toJsonString_ofJson]
  · cases h

theorem Registry.IsStable.holds {α : Type} {r : Registry Name α} {P : α → Prop}
    {decode : Json → Decoded α} {encode : α → Json} (h : r.IsStable P)
    (hP : ∀ a, P a → Json.Holds decode (encode a) a) :
    Json.Holds (ofJson decode) (r.toJson encode) r := by
  have hkey {e : Name × α} (he : e ∈ r.entries) : e.1.toJson = .string e.1.toJsonString :=
    Name.eq_ofJson_of_isText (h.keys _ (List.mem_map_of_mem he)).2
  have hvalue {e : Name × α} (he : e ∈ r.entries) : Json.Holds decode (encode e.2) e.2 :=
    hP _ (h.values _ (List.mem_map_of_mem he))
  constructor
  · refine .object ?_ (fun f hf => ?_) fun f hf => ?_
    · refine List.Nodup.of_map (fun s => Name.ofJson (.string s)) ?_
      rw [List.map_map, List.map_map]
      refine (List.map_congr_left fun e he => ?_) ▸ r.nodup
      exact (congrArg Name.ofJson (hkey he)).symm.trans (Name.ofJson_toJson _) |>.symm
    · obtain ⟨e, he, rfl⟩ := List.mem_map.mp hf
      have hstable := (h.keys _ (List.mem_map_of_mem he)).1
      rw [Name.IsStable, hkey he] at hstable
      cases hstable with
      | string points => exact points
    · obtain ⟨e, he, rfl⟩ := List.mem_map.mp hf
      exact (hvalue he).1
  · have hentries : decodeAll (fun f : JsonString × Json => do
        pure (Name.ofJson (.string f.1), ← decode f.2))
        (r.entries.map fun e => (e.1.toJsonString, encode e.2)) = .ok r.entries := by
      refine (decodeAll_map (g := id) fun e he => ?_).trans (by rw [List.map_id])
      dsimp only
      rw [(hvalue he).2, ok_bind, ← hkey he, Name.ofJson_toJson]
      rfl
    change (decodeAll (fun f : JsonString × Json => do
      pure (Name.ofJson (.string f.1), ← decode f.2))
      (r.entries.map fun e => (e.1.toJsonString, encode e.2)) >>= fun entries =>
        pure (ofList entries)) = _
    rw [hentries, ok_bind, ofList_entries]
    rfl

structure Signature.IsStable (sig : Signature) : Prop where
  sorts : sig.sorts.IsStable fun decl => decl.name.IsStable
  terms : sig.terms.IsStable TermDecl.IsStable
  notations : sig.notations.IsStable Notation.IsStable
  delimiters : sig.delimiters.IsStable

theorem Signature.IsStable.holds {sig : Signature} (h : sig.IsStable) :
    Json.Holds ofJson sig.toJson sig := by
  obtain ⟨hsorts, hdecodeSorts⟩ := h.sorts.holds fun _ => SortDecl.holds
  obtain ⟨hterms, hdecodeTerms⟩ := h.terms.holds fun _ => TermDecl.IsStable.holds
  obtain ⟨hnotations, hdecodeNotations⟩ := h.notations.holds fun _ => Notation.IsStable.holds
  obtain ⟨hdelimiters, hdecodeDelimiters⟩ := h.delimiters.toJson
  constructor
  · refine Json.isStable_typed ["sorts", "terms", "notations", "delimiters"] rfl (by decide) ?_
    simp only [List.forall_mem_cons]
    exact ⟨hsorts, hterms, hnotations, hdelimiters, nofun⟩
  · change (Registry.ofJson SortDecl.ofJson (sig.sorts.toJson SortDecl.toJson) >>= fun sorts =>
      Registry.ofJson TermDecl.ofJson (sig.terms.toJson TermDecl.toJson) >>= fun terms =>
      Registry.ofJson Notation.ofJson (sig.notations.toJson Notation.toJson) >>= fun notations =>
      Delimiters.ofJson sig.delimiters.toJson >>= fun delimiters =>
      pure (Signature.mk sorts terms notations delimiters)) = _
    rw [hdecodeSorts, ok_bind, hdecodeTerms, ok_bind, hdecodeNotations, ok_bind,
      hdecodeDelimiters, ok_bind]
    rfl

/-- Every part of the theory is what JSON text keeps: names are not fractions, and have no high
surrogate right before a low one; keys are texts, delimiters single characters of which no two make
up a third, and precedences not longer than a number that is read. -/
structure Theory.IsStable (t : Theory) : Prop where
  name : t.name.IsStable
  signature : t.signature.IsStable
  assertions : ∀ a ∈ t.assertions, a.IsStable

namespace Theory

theorem IsStable.holds {t : Theory} (h : t.IsStable) : Json.Holds ofJson t.toJson t := by
  obtain ⟨hname, hsignature, hassertions⟩ := h
  obtain ⟨hsignature, hdecodeSignature⟩ := hsignature.holds
  obtain ⟨hassertions, hdecodeAssertions⟩ := Json.holds_all fun a ha => (hassertions a ha).holds
  constructor
  · refine Json.isStable_typed ["name", "signature", "assertions"] rfl (by decide) ?_
    simp only [List.forall_mem_cons]
    exact ⟨hname, hsignature, hassertions, nofun⟩
  · change (Signature.ofJson t.signature.toJson >>= fun sig =>
      decodeAll Assertion.ofJson (t.assertions.map Assertion.toJson) >>= fun assertions =>
      pure (Theory.mk (.ofJson t.name.toJson) sig assertions)) = _
    rw [hdecodeSignature, ok_bind, hdecodeAssertions, ok_bind, Name.ofJson_toJson]
    rfl

/-- In every style, a theory of such parts is read from its text as it was, with everything in the
same order, and written again as the same text. -/
theorem ofJsonText_write {t : Theory} (h : t.IsStable) (st : Json.Style) :
    ofJsonText (t.toJson.write st) = .ok t ∧
      (ofJsonText (t.toJson.write st)).map (fun t' => t'.toJson.write st) =
        .ok (t.toJson.write st) := by
  have hread : ofJsonText (t.toJson.write st) = .ok t := by
    rw [ofJsonText, Json.parse_write_of_isStable h.holds.1]
    exact h.holds.2
  exact ⟨hread, by rw [hread]; rfl⟩

end Theory

theorem Registry.isStable_ofList {α : Type} {es : List (Name × α)} {P : α → Prop}
    (h : ∀ e ∈ es, (e.1.IsStable ∧ e.1.isText = true) ∧ P e.2) : (ofList es).IsStable P := by
  constructor
  · intro key hkey
    obtain ⟨⟨_, a⟩, he, rfl⟩ := List.mem_map.mp hkey
    exact (h _ (mem_of_get?_ofList (get?_eq_some_iff.mpr he))).1
  · intro a ha
    obtain ⟨key, ha⟩ := mem_values_iff.mp ha
    exact (h _ (mem_of_get?_ofList ha)).2

namespace Stored

private def formula (name : Name) : Binder := ⟨name, "formula", false, []⟩

private def negation (e : Expr) : Expr := .app "not" [e]

/-- The name is written as two surrogates, the sort is kept under another name than its own, and of
the two left delimiters one is half of a character. -/
def theory : Theory :=
  { name := "𝄞"
    signature :=
      { sorts := .ofList [("wff", ⟨"formula", { SortModifiers.empty with provable := true }⟩)]
        terms := .ofList
          [("not", ⟨"not", [formula "p"], "formula", [], false, none⟩),
            ("twice", ⟨"twice", [formula "p"], "formula", [], true,
              some (negation (negation (.var "p")))⟩)]
        notations := .ofList
          [("¬", ⟨"not", "¬", .prefixed, maxPrec⟩), ("2", ⟨"twice", "2", .prefixed, -1⟩)]
        delimiters := ⟨.ofList ["("], .ofList [")"], [.ofPoint 0xD83D], []⟩ }
    assertions :=
      [⟨.claimed, "idle", [formula "p"], [⟨some "h", .var "p"⟩, ⟨none, negation (.var "p")⟩],
        .var "p"⟩] }

theorem formula_isStable (name : String) : (formula name).IsStable where
  names := by simp [formula, Name.isStable_text]
  bound := Truth.isStable_bool false

theorem negation_isStable {e : Expr} (h : e.IsStable) : (negation e).IsStable :=
  .app (Name.isStable_text _) (List.forall_mem_singleton.mpr h)

theorem var_isStable (x : String) : (Expr.var x).IsStable := .var (Name.isStable_text x)

theorem theory_isStable : theory.IsStable where
  name := Name.isStable_text _
  signature := by
    have hchar (c : Char) : ∀ s ∈ StringSet.ofList [String.singleton c],
        ∃ c, s = String.singleton c :=
      fun s hs => ⟨c, List.mem_singleton.mp (StringSet.mem_ofList.mp hs)⟩
    refine ⟨Registry.isStable_ofList ?_, Registry.isStable_ofList ?_, Registry.isStable_ofList ?_,
      ⟨hchar '(', [0xD83D], rfl, by simp, .inl (by decide)⟩,
      ⟨hchar ')', [], rfl, by simp, .inl nofun⟩⟩
    · exact List.forall_mem_singleton.mpr ⟨⟨Name.isStable_text _, rfl⟩, Name.isStable_text _⟩
    · simp only [List.forall_mem_cons]
      refine ⟨⟨⟨Name.isStable_text _, rfl⟩, ?_⟩, ⟨⟨Name.isStable_text _, rfl⟩, ?_⟩, nofun⟩
      · exact ⟨by simp [Name.isStable_text], List.forall_mem_singleton.mpr (formula_isStable "p"),
          Truth.isStable_bool false, nofun⟩
      · refine ⟨by simp [Name.isStable_text], List.forall_mem_singleton.mpr (formula_isStable "p"),
          Truth.isStable_bool true, ?_⟩
        rintro _ ⟨⟩
        exact negation_isStable (negation_isStable (var_isStable "p"))
    · simp only [List.forall_mem_cons]
      exact ⟨⟨⟨Name.isStable_text _, rfl⟩, by simp [Name.isStable_text], by decide⟩,
        ⟨⟨Name.isStable_text _, rfl⟩, by simp [Name.isStable_text], by decide⟩, nofun⟩
  assertions := by
    refine List.forall_mem_singleton.mpr ⟨Name.isStable_text _,
      List.forall_mem_singleton.mpr (formula_isStable "p"), ?_, var_isStable "p"⟩
    simp only [List.forall_mem_cons]
    refine ⟨⟨?_, var_isStable "p"⟩, ⟨nofun, negation_isStable (var_isStable "p")⟩, nofun⟩
    rintro _ ⟨⟩
    exact ⟨Name.isStable_text "h", nofun⟩

theorem indented_read_back :
    theory.IsStable ∧ Theory.ofJsonText (theory.toJson.write (.indented 2)) = .ok theory ∧
      (Theory.ofJsonText (theory.toJson.write (.indented 2))).map
        (fun t => t.toJson.write (.indented 2)) = .ok (theory.toJson.write (.indented 2)) :=
  ⟨theory_isStable, Theory.ofJsonText_write theory_isStable (.indented 2)⟩

end Stored

namespace Halves

def high : Name := .ofPoint 0xD83D

def low : Name := .ofPoint 0xDE00

def theory (delimiters : Delimiters) : Theory :=
  { name := "halves"
    signature := .ofDecls [⟨"wff", { SortModifiers.empty with provable := true }⟩] [] [] delimiters
    assertions := [] }

def apart : Delimiters := ⟨.empty, .empty, [high, low], []⟩

def joined : Delimiters := ⟨.ofList ["😀"], .empty, [], []⟩

/-- The left delimiters are the two halves of a character. -/
def source : String :=
  "\x7b\"type\": \"theory\", \"name\": \"halves\", \"signature\": \x7b\"type\": \"signature\", " ++
  "\"sorts\": \x7b\"wff\": \x7b\"type\": \"sort\", \"name\": \"wff\", " ++
  "\"modifiers\": [\"provable\"]\x7d\x7d, \"terms\": \x7b\x7d, \"notations\": \x7b\x7d, " ++
  "\"delimiters\": \x7b\"left\": [\"\\ud83d\", \"\\ude00\"], \"right\": \"\"\x7d\x7d, " ++
  "\"assertions\": []\x7d"

/-- The theory in JSON, but for its left delimiters. -/
def stored (left : Json) : Json :=
  .typed "theory" [("name", .string "halves"),
    ("signature", .typed "signature"
      [("sorts", .object [("wff", .typed "sort" [("name", .string "wff"),
        ("modifiers", .array [.string "provable"])])]),
      ("terms", .object []), ("notations", .object []),
      ("delimiters", .object [("left", left), ("right", .string "")])]),
    ("assertions", .array [])]

theorem sorted_halves : Name.sorted [high, low] = [high, low] :=
  have hps : [0xD83D, 0xDE00].Pairwise (· < ·) := by decide
  Name.sorted_eq hps fun _ => Iff.rfl

/-- They are written next to each other, and read as that character. -/
theorem halves_joined :
    (∀ n ∈ (theory apart).signature.delimiters.leftMembers, ∃ p, n.points = [p]) ∧
      Theory.ofJsonText source = .ok (theory apart) ∧
      Theory.ofJsonText ((theory apart).toJson.write .oneLine) = .ok (theory joined) ∧
      (theory joined).sameContent (theory apart) = false := by
  have hmembers : apart.leftMembers = [high, low] := sorted_halves
  refine ⟨?_, ?_, ?_, by decide +kernel⟩
  · change ∀ n ∈ apart.leftMembers, _
    rw [hmembers]
    simp [high, low, Name.points_ofPoint]
  · have hparse : Json.parse source =
        .ok (stored (.array [.string (.ofPoints [0xD83D]), .string (.ofPoints [0xDE00])])) :=
      eq_ok_of_toOption (by decide +kernel)
    rw [Theory.ofJsonText, hparse]
    change Except.ok (theory ⟨.empty, .empty, Name.sorted [high, low], Name.sorted []⟩) = _
    rw [sorted_halves, show Name.sorted [] = [] by decide +kernel]
    rfl
  · have hjson : (theory apart).toJson = stored (.string (.ofPoints [0xD83D, 0xDE00])) := by
      rw [Theory.toJson, Signature.toJson, Delimiters.toJson]
      change stored (.string (Delimiters.joined apart.leftMembers)) = _
      rw [hmembers]
      rfl
    rw [hjson]
    exact eq_ok_of_toOption (by decide +kernel)

end Halves
end Deductive
