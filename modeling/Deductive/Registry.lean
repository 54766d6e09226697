/-!
Named entries in the order of their declaration. A name stands for one entry; an entry given to a
name again keeps the first place and takes the last value.
-/
namespace Deductive

universe u v

/-- The names of the entries are pairwise distinct. -/
structure Registry (κ : Type u) (α : Type v) where
  entries : List (κ × α)
  nodup : (entries.map Prod.fst).Nodup
  deriving DecidableEq, Repr

namespace Registry

variable {κ : Type u} {α : Type v}

def empty : Registry κ α := ⟨[], by simp⟩

instance : Inhabited (Registry κ α) := ⟨empty⟩

def keys (r : Registry κ α) : List κ := r.entries.map Prod.fst

def values (r : Registry κ α) : List α := r.entries.map Prod.snd

def size (r : Registry κ α) : Nat := r.entries.length

variable [DecidableEq κ]

def place (name : κ) (value : α) : List (κ × α) → List (κ × α)
  | [] => [(name, value)]
  | e :: es => if e.1 = name then (name, value) :: es else e :: place name value es

def find (name : κ) : List (κ × α) → Option α
  | [] => none
  | e :: es => if e.1 = name then some e.2 else find name es

theorem keys_place (name : κ) (value : α) (es : List (κ × α)) :
    (place name value es).map Prod.fst =
      if name ∈ es.map Prod.fst then es.map Prod.fst else es.map Prod.fst ++ [name] := by
  induction es with
  | nil => simp [place]
  | cons e es ih =>
    by_cases h : e.1 = name
    · simp [place, h]
    · have hne : ¬ name = e.1 := fun he => h he.symm
      by_cases hm : name ∈ es.map Prod.fst
      · simp only [place, h, ↓reduceIte, List.map_cons, ih, hm, List.mem_cons, or_true]
      · simp only [place, h, ↓reduceIte, List.map_cons, ih, hm, List.mem_cons, hne, or_self,
          List.cons_append]

theorem nodup_place {es : List (κ × α)} (h : (es.map Prod.fst).Nodup) (name : κ)
    (value : α) : ((place name value es).map Prod.fst).Nodup := by
  rw [keys_place]
  split
  · exact h
  · rename_i hm
    refine List.nodup_append.mpr ⟨h, by simp, ?_⟩
    intro a ha b hb hab
    simp only [List.mem_singleton] at hb
    exact hm (hb ▸ hab ▸ ha)

def insert (r : Registry κ α) (name : κ) (value : α) : Registry κ α :=
  ⟨place name value r.entries, nodup_place r.nodup name value⟩

def ofList (entries : List (κ × α)) : Registry κ α :=
  entries.foldl (fun r e => r.insert e.1 e.2) empty

def get? (r : Registry κ α) (name : κ) : Option α := find name r.entries

def contains (r : Registry κ α) (name : κ) : Bool := (r.get? name).isSome

/-- Values that are the same, or none on both sides. -/
def sameValue (same : α → α → Bool) : Option α → Option α → Bool
  | some x, some y => same x y
  | none, none => true
  | _, _ => false

/-- Both registries give the same value to every name, in whatever order. -/
def SameValues (a : Registry κ α) (same : α → α → Bool) (b : Registry κ α) : Prop :=
  ∀ name, sameValue same (a.get? name) (b.get? name) = true

/-- `SameValues` as a test: only the names of either side have to be compared. -/
def sameValues (a : Registry κ α) (same : α → α → Bool) (b : Registry κ α) : Bool :=
  (a.keys ++ b.keys).all fun name => sameValue same (a.get? name) (b.get? name)

theorem find_place (name key : κ) (value : α) (es : List (κ × α)) :
    find key (place name value es) = if name = key then some value else find key es := by
  induction es with
  | nil => rfl
  | cons e es ih =>
    by_cases h : e.1 = name
    · by_cases hk : name = key
      · simp [place, find, h, hk]
      · have : ¬ e.1 = key := fun he => hk (h ▸ he)
        simp [place, find, h, hk]
    · by_cases hk : name = key
      · have : ¬ e.1 = key := fun he => h (he.trans hk.symm)
        rw [place, if_neg h, find, if_neg this, ih, if_pos hk, if_pos hk]
      · simp only [place, h, ↓reduceIte, find, ih, hk]

theorem find_eq_none_iff {es : List (κ × α)} {key : κ} :
    find key es = none ↔ key ∉ es.map Prod.fst := by
  induction es with
  | nil => simp [find]
  | cons e es ih =>
    by_cases h : e.1 = key
    · simp [find, h]
    · have : ¬ key = e.1 := fun he => h he.symm
      simp only [find, h, ↓reduceIte, ih, List.map_cons, List.mem_cons, this, false_or]

@[simp] theorem get?_empty (key : κ) : (empty : Registry κ α).get? key = none := rfl

theorem get?_insert (r : Registry κ α) (name key : κ) (value : α) :
    (r.insert name value).get? key = if name = key then some value else r.get? key :=
  find_place name key value r.entries

theorem keys_insert (r : Registry κ α) (name : κ) (value : α) :
    (r.insert name value).keys = if name ∈ r.keys then r.keys else r.keys ++ [name] :=
  keys_place name value r.entries

theorem get?_eq_none_iff {r : Registry κ α} {key : κ} : r.get? key = none ↔ key ∉ r.keys :=
  find_eq_none_iff

theorem sameValues_iff {same : α → α → Bool} {a b : Registry κ α} :
    a.sameValues same b = true ↔ a.SameValues same b := by
  simp only [sameValues, List.all_append, Bool.and_eq_true, List.all_eq_true]
  constructor
  · intro ⟨ha, hb⟩ key
    by_cases hka : key ∈ a.keys
    · exact ha key hka
    · by_cases hkb : key ∈ b.keys
      · exact hb key hkb
      · rw [get?_eq_none_iff.mpr hka, get?_eq_none_iff.mpr hkb]
        rfl
  · exact fun h => ⟨fun key _ => h key, fun key _ => h key⟩

end Registry
end Deductive
