/-!
Finite sets of strings, kept in the order of code points.
-/
namespace Deductive

structure StringSet where
  toList : List String
  sorted : toList.Pairwise (· < ·)
  deriving DecidableEq, Repr

namespace StringSet

def insertSorted (s : String) : List String → List String
  | [] => [s]
  | x :: xs =>
    if s < x then s :: x :: xs
    else if x < s then x :: insertSorted s xs
    else x :: xs

theorem mem_insertSorted {s y : String} {xs : List String} :
    y ∈ insertSorted s xs ↔ y = s ∨ y ∈ xs := by
  induction xs with
  | nil => simp [insertSorted]
  | cons x xs ih =>
    by_cases hlt : s < x
    · simp [insertSorted, hlt]
    · by_cases hgt : x < s
      · simp [insertSorted, hlt, hgt, ih, or_left_comm]
      · have : s = x := String.le_antisymm (String.not_lt.1 hgt) (String.not_lt.1 hlt)
        simp [insertSorted, this]

theorem sorted_insertSorted {xs : List String} (h : xs.Pairwise (· < ·)) (s : String) :
    (insertSorted s xs).Pairwise (· < ·) := by
  induction xs with
  | nil => simp [insertSorted]
  | cons x xs ih =>
    obtain ⟨hx, hxs⟩ := List.pairwise_cons.mp h
    by_cases hlt : s < x
    · rw [insertSorted, if_pos hlt]
      refine List.pairwise_cons.mpr ⟨?_, h⟩
      intro y hy
      rcases List.mem_cons.mp hy with rfl | hy
      · exact hlt
      · exact String.lt_trans hlt (hx y hy)
    · by_cases hgt : x < s
      · rw [insertSorted, if_neg hlt, if_pos hgt]
        refine List.pairwise_cons.mpr ⟨?_, ih hxs⟩
        intro y hy
        rcases mem_insertSorted.mp hy with rfl | hy
        · exact hgt
        · exact hx y hy
      · rw [insertSorted, if_neg hlt, if_neg hgt]
        exact h

def empty : StringSet := ⟨[], List.Pairwise.nil⟩

instance : Inhabited StringSet := ⟨empty⟩

def insert (t : StringSet) (s : String) : StringSet :=
  ⟨insertSorted s t.toList, sorted_insertSorted t.sorted s⟩

def ofList (ss : List String) : StringSet := ss.foldl insert empty

def contains (t : StringSet) (s : String) : Bool := t.toList.contains s

def union (t u : StringSet) : StringSet := u.toList.foldl insert t

def filter (p : String → Bool) (t : StringSet) : StringSet :=
  ⟨t.toList.filter p, t.sorted.filter p⟩

def inter (t u : StringSet) : StringSet := t.filter u.contains

instance : Membership String StringSet := ⟨fun t s => s ∈ t.toList⟩

theorem mem_insert {t : StringSet} {s y : String} : y ∈ t.insert s ↔ y = s ∨ y ∈ t :=
  mem_insertSorted

theorem mem_foldl_insert {ss : List String} {t : StringSet} {y : String} :
    y ∈ ss.foldl insert t ↔ y ∈ t ∨ y ∈ ss := by
  induction ss generalizing t with
  | nil => simp
  | cons s ss ih =>
    rw [List.foldl_cons, ih, mem_insert, List.mem_cons]
    constructor
    · rintro ((h | h) | h)
      · exact .inr (.inl h)
      · exact .inl h
      · exact .inr (.inr h)
    · rintro (h | h | h)
      · exact .inl (.inr h)
      · exact .inl (.inl h)
      · exact .inr h

theorem mem_ofList {ss : List String} {y : String} : y ∈ ofList ss ↔ y ∈ ss := by
  have h : ¬ y ∈ empty := by
    change ¬ y ∈ ([] : List String)
    simp
  rw [ofList, mem_foldl_insert]
  simp [h]

theorem mem_union {t u : StringSet} {y : String} : y ∈ t.union u ↔ y ∈ t ∨ y ∈ u :=
  mem_foldl_insert

end StringSet
end Deductive
