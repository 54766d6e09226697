import Deductive.Registry

/-!
What registries say of names: where the answer comes from, when one registry says all that another
one says, and registries made of another one by leaving out names or by changing values.
-/
namespace Deductive.Registry

universe u v w

variable {κ : Type u} {α : Type v} {β : Type w}

theorem eq_of_entries {r r' : Registry κ α} (h : r.entries = r'.entries) : r = r' := by
  cases r
  exact (mk.injEq ..).mpr h

variable [DecidableEq κ]

theorem contains_iff {r : Registry κ α} {key : κ} :
    r.contains key = true ↔ ∃ value, r.get? key = some value :=
  Option.isSome_iff_exists

theorem find_eq_some_iff {es : List (κ × α)} (hn : (es.map Prod.fst).Nodup) {key : κ} {value : α} :
    find key es = some value ↔ (key, value) ∈ es := by
  induction es with
  | nil => simp [find]
  | cons e es ih =>
    obtain ⟨k, v⟩ := e
    obtain ⟨hk, hn⟩ := List.nodup_cons.mp hn
    by_cases h : k = key
    · subst h
      have hnot : (k, value) ∉ es := fun hm => hk (List.mem_map.mpr ⟨_, hm, rfl⟩)
      simp [find, hnot, eq_comm]
    · have hne : ¬ key = k := fun he => h he.symm
      simp only [find, h, ↓reduceIte, ih hn, List.mem_cons, Prod.mk.injEq, hne, false_and, false_or]

theorem get?_eq_some_iff {r : Registry κ α} {key : κ} {value : α} :
    r.get? key = some value ↔ (key, value) ∈ r.entries :=
  find_eq_some_iff r.nodup

theorem mem_keys {r : Registry κ α} {key : κ} {value : α} (h : r.get? key = some value) :
    key ∈ r.keys :=
  List.mem_map_of_mem (get?_eq_some_iff.mp h)

theorem exists_of_mem_keys {r : Registry κ α} {key : κ} (h : key ∈ r.keys) :
    ∃ value, r.get? key = some value := by
  obtain ⟨⟨key, value⟩, hm, rfl⟩ := List.mem_map.mp h
  exact ⟨value, get?_eq_some_iff.mpr hm⟩

theorem mem_values_iff {r : Registry κ α} {value : α} :
    value ∈ r.values ↔ ∃ key, r.get? key = some value := by
  constructor
  · intro h
    obtain ⟨⟨key, v⟩, hm, he⟩ := List.mem_map.mp h
    cases he
    exact ⟨key, get?_eq_some_iff.mpr hm⟩
  · intro h
    obtain ⟨key, h⟩ := h
    exact List.mem_map.mpr ⟨_, get?_eq_some_iff.mp h, rfl⟩

/-! The last entry of a name counts, so that a list without repeated names says just what its
entries say. -/

theorem get?_foldl_insert (es : List (κ × α)) (r : Registry κ α) (key : κ) (value : α)
    (h : (es.foldl (fun r e => r.insert e.1 e.2) r).get? key = some value) :
    (key, value) ∈ es ∨ (key ∉ es.map Prod.fst ∧ r.get? key = some value) := by
  induction es generalizing r with
  | nil => exact .inr ⟨by simp, h⟩
  | cons e es ih =>
    rcases ih _ h with hm | ⟨hn, hr⟩
    · exact .inl (List.mem_cons_of_mem _ hm)
    · rw [get?_insert] at hr
      split at hr
      · rename_i he
        cases hr
        exact .inl (he ▸ List.mem_cons_self)
      · rename_i he
        refine .inr ⟨?_, hr⟩
        rw [List.map_cons, List.mem_cons, not_or]
        exact ⟨fun hk => he hk.symm, hn⟩

theorem mem_of_get?_ofList {es : List (κ × α)} {key : κ} {value : α}
    (h : (ofList es).get? key = some value) : (key, value) ∈ es := by
  rcases get?_foldl_insert es empty key value h with hm | ⟨_, hr⟩
  · exact hm
  · cases hr

theorem contains_foldl_insert (es : List (κ × α)) (r : Registry κ α) (key : κ)
    (h : key ∈ es.map Prod.fst ∨ r.contains key = true) :
    (es.foldl (fun r e => r.insert e.1 e.2) r).contains key = true := by
  induction es generalizing r with
  | nil => simpa using h
  | cons e es ih =>
    apply ih
    by_cases he : e.1 = key
    · right
      rw [contains, get?_insert, if_pos he]
      rfl
    · rcases h with hm | hr
      · rw [List.map_cons, List.mem_cons] at hm
        rcases hm with hk | hm
        · exact absurd hk.symm he
        · exact .inl hm
      · right
        rwa [contains, get?_insert, if_neg he]

theorem get?_ofList_iff {es : List (κ × α)} (hn : (es.map Prod.fst).Nodup) {key : κ} {value : α} :
    (ofList es).get? key = some value ↔ (key, value) ∈ es := by
  refine ⟨mem_of_get?_ofList, fun hm => ?_⟩
  have hc : (ofList es).contains key = true :=
    contains_foldl_insert es empty key (.inl (List.mem_map.mpr ⟨_, hm, rfl⟩))
  obtain ⟨other, ho⟩ := contains_iff.mp hc
  have h₁ := (find_eq_some_iff hn).mpr hm
  have h₂ := (find_eq_some_iff hn).mpr (mem_of_get?_ofList ho)
  rw [ho, ← h₂, h₁]

theorem place_of_not_mem {name : κ} {value : α} {es : List (κ × α)}
    (h : name ∉ es.map Prod.fst) : place name value es = es ++ [(name, value)] := by
  induction es with
  | nil => rfl
  | cons e es ih =>
    rw [List.map_cons, List.mem_cons, not_or] at h
    rw [place, if_neg fun he => h.1 he.symm, ih h.2, List.cons_append]

theorem contains_eq_false_iff {r : Registry κ α} {name : κ} :
    r.contains name = false ↔ name ∉ r.keys := by
  rw [contains, Option.isSome_eq_false_iff, Option.isNone_iff_eq_none, get?_eq_none_iff]

/-- A new name comes last. -/
theorem entries_insert {r : Registry κ α} {name : κ} {value : α} (h : name ∉ r.keys) :
    (r.insert name value).entries = r.entries ++ [(name, value)] :=
  place_of_not_mem h

theorem foldl_place {es front : List (κ × α)} (hn : ((front ++ es).map Prod.fst).Nodup) :
    es.foldl (fun es e => place e.1 e.2 es) front = front ++ es := by
  induction es generalizing front with
  | nil => rw [List.foldl_nil, List.append_nil]
  | cons e es ih =>
    rw [List.map_append] at hn
    have hnew : e.1 ∉ front.map Prod.fst := fun hk =>
      (List.nodup_append.mp hn).2.2 e.1 hk e.1 List.mem_cons_self rfl
    rw [List.foldl_cons, place_of_not_mem hnew, ih]
    · exact List.append_assoc ..
    · rw [List.append_assoc, List.map_append]
      exact hn

theorem entries_foldl_insert (es : List (κ × α)) (r : Registry κ α)
    (hn : (r.keys ++ es.map Prod.fst).Nodup) :
    (es.foldl (fun r e => r.insert e.1 e.2) r).entries = r.entries ++ es := by
  have hentries : es.foldl (fun es e => place e.1 e.2 es) r.entries =
      (es.foldl (fun r e => r.insert e.1 e.2) r).entries :=
    List.foldl_hom entries fun _ _ => rfl
  rw [← hentries]
  refine foldl_place ?_
  rw [List.map_append]
  exact hn

/-- A list without repeated names is kept as it is. -/
theorem entries_ofList {es : List (κ × α)} (hn : (es.map Prod.fst).Nodup) :
    (ofList es).entries = es :=
  entries_foldl_insert es empty hn

theorem ofList_concat (es : List (κ × α)) (e : κ × α) :
    ofList (es ++ [e]) = (ofList es).insert e.1 e.2 := by
  rw [ofList, List.foldl_append]
  rfl

theorem get?_ofList_eq_none_iff {es : List (κ × α)} {key : κ} :
    (ofList es).get? key = none ↔ key ∉ es.map Prod.fst := by
  constructor
  · intro h hm
    have hc : (ofList es).contains key = true := contains_foldl_insert es empty key (.inl hm)
    rw [contains, h] at hc
    cases hc
  · intro h
    cases hg : (ofList es).get? key with
    | none => rfl
    | some value => exact absurd (List.mem_map.mpr ⟨_, mem_of_get?_ofList hg, rfl⟩) h

/-- Where every value tells its own key, a registry consists of its values. -/
theorem entries_eq_map {r : Registry κ α} {key : α → κ}
    (h : ∀ name value, r.get? name = some value → key value = name) :
    r.entries = r.values.map fun value => (key value, value) := by
  rw [values, List.map_map]
  refine (List.map_id _).symm.trans (List.map_congr_left fun e he => ?_)
  obtain ⟨name, value⟩ := e
  rw [Function.comp_apply, h name value (get?_eq_some_iff.mpr he)]
  rfl

theorem nodup_map_values {r : Registry κ α} {key : α → κ}
    (h : ∀ name value, r.get? name = some value → key value = name) :
    (r.values.map key).Nodup := by
  have hn := r.nodup
  rw [entries_eq_map h, List.map_map] at hn
  exact hn

theorem ofList_entries (r : Registry κ α) : ofList r.entries = r :=
  eq_of_entries (entries_ofList r.nodup)

theorem ofList_values {r : Registry κ α} {key : α → κ}
    (h : ∀ name value, r.get? name = some value → key value = name) :
    ofList (r.values.map fun value => (key value, value)) = r := by
  rw [← entries_eq_map h, ofList_entries]

/-- `t` says of every name what `s` says of it, and perhaps more. -/
def Extends (t s : Registry κ α) : Prop :=
  ∀ key value, s.get? key = some value → t.get? key = some value

namespace Extends

variable {r s t : Registry κ α}

theorem refl (s : Registry κ α) : s.Extends s := fun _ _ h => h

theorem trans (h : t.Extends s) (h' : s.Extends r) : t.Extends r :=
  fun key value hr => h key value (h' key value hr)

theorem contains (h : t.Extends s) {key : κ} (hc : s.contains key = true) :
    t.contains key = true := by
  obtain ⟨value, hv⟩ := contains_iff.mp hc
  exact contains_iff.mpr ⟨value, h key value hv⟩

/-- An answer that the smaller registry gives is the one of the larger. -/
theorem get?_eq (h : t.Extends s) {key : κ} (hc : s.contains key = true) :
    t.get? key = s.get? key := by
  obtain ⟨value, hv⟩ := contains_iff.mp hc
  rw [hv, h key value hv]

theorem get?_eq_none (h : t.Extends s) {key : κ} (ht : t.get? key = none) : s.get? key = none := by
  cases hs : s.get? key with
  | none => rfl
  | some value =>
    rw [h key value hs] at ht
    cases ht

theorem insert (s : Registry κ α) {key : κ} (value : α) (hs : s.get? key = none) :
    (s.insert key value).Extends s := by
  intro k v h
  rw [get?_insert]
  split
  · rename_i he
    rw [he, h] at hs
    cases hs
  · exact h

theorem of_insert (h : t.Extends s) {key : κ} {value : α} (ht : t.get? key = some value) :
    t.Extends (s.insert key value) := by
  intro k v hk
  rw [get?_insert] at hk
  split at hk
  · rename_i he
    cases hk
    exact he ▸ ht
  · exact h k v hk

end Extends

theorem sameValues_of_get?_eq {same : α → α → Bool} {a b : Registry κ α}
    (hget : ∀ key, a.get? key = b.get? key)
    (hsame : ∀ key value, b.get? key = some value → same value value = true) :
    a.sameValues same b = true := by
  rw [sameValues_iff]
  intro key
  rw [hget]
  cases hv : b.get? key with
  | none => rfl
  | some value => exact hsame key value hv

/-- What a registry says of the names that are kept. -/
def restrict (r : Registry κ α) (keep : κ → Bool) : Registry κ α :=
  ⟨r.entries.filter fun e => keep e.1, r.nodup.sublist (List.filter_sublist.map Prod.fst)⟩

theorem get?_restrict (r : Registry κ α) (keep : κ → Bool) {key : κ} {value : α} :
    (r.restrict keep).get? key = some value ↔ r.get? key = some value ∧ keep key = true := by
  rw [get?_eq_some_iff, get?_eq_some_iff]
  exact List.mem_filter

def mapValues (r : Registry κ α) (f : α → β) : Registry κ β :=
  ⟨r.entries.map fun e => (e.1, f e.2), by simpa [Function.comp_def] using r.nodup⟩

theorem get?_mapValues (r : Registry κ α) (f : α → β) (key : κ) :
    (r.mapValues f).get? key = (r.get? key).map f := by
  change find key (r.entries.map _) = (find key r.entries).map f
  induction r.entries with
  | nil => rfl
  | cons e es ih =>
    by_cases h : e.1 = key
    · simp [find, h]
    · simp only [List.map_cons, find, h, ↓reduceIte, ih]

theorem mapValues_insert (r : Registry κ α) (f : α → β) (name : κ) (value : α) :
    (r.insert name value).mapValues f = (r.mapValues f).insert name (f value) := by
  have hplace (es : List (κ × α)) : (place name value es).map (fun e => (e.1, f e.2)) =
      place name (f value) (es.map fun e => (e.1, f e.2)) := by
    induction es with
    | nil => rfl
    | cons e es ih =>
      rw [place, List.map_cons, place]
      split
      · rfl
      · rw [List.map_cons, ih]
  exact eq_of_entries (hplace r.entries)

/-- Values can be changed before or after they are entered. -/
theorem ofList_map (f : α → β) (es : List (κ × α)) :
    ofList (es.map fun e => (e.1, f e.2)) = (ofList es).mapValues f := by
  have hfoldl (r : Registry κ α) :
      (es.map fun e => (e.1, f e.2)).foldl (fun r e => r.insert e.1 e.2) (r.mapValues f) =
        (es.foldl (fun r e => r.insert e.1 e.2) r).mapValues f := by
    induction es generalizing r with
    | nil => rfl
    | cons e es ih => rw [List.map_cons, List.foldl_cons, List.foldl_cons, ← ih, mapValues_insert]
  exact hfoldl empty

end Deductive.Registry
