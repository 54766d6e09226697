import Deductive.Json

/-!
What a declaration says of itself with yes or no. A theory that is read from JSON may hold another
value in the place of a truth value, which is kept and counts as what it says.
-/
namespace Deductive

inductive Truth where
  | bool (b : Bool)
  | value (v : Json) (not_bool : v.bool? = none)
  deriving DecidableEq, Repr, Inhabited

namespace Truth

instance : Coe Bool Truth := ⟨bool⟩

def ofJson (v : Json) : Truth :=
  match h : v.bool? with
  | some b => bool b
  | none => value v h

def toJson : Truth → Json
  | bool b => .bool b
  | value v _ => v

theorem toJson_ofJson (v : Json) : (ofJson v).toJson = v := by
  unfold ofJson
  split
  · rename_i b h
    unfold Json.bool? at h
    split at h
    · cases h
      rfl
    · cases h
  · rfl

theorem ofJson_toJson (t : Truth) : ofJson t.toJson = t := by
  cases t with
  | bool b => rfl
  | value v h =>
    unfold ofJson
    split
    · rename_i b hb
      rw [toJson, h] at hb
      cases hb
    · rfl

def holds (t : Truth) : Bool := t.toJson.holds

/-- Equal, where truth values and numbers in their place are compared as numbers: one says yes just
as true does, two does not. -/
def same (a b : Truth) : Bool := a.toJson.same b.toJson

@[simp] theorem holds_bool (b : Bool) : (bool b).holds = b := rfl

end Truth
end Deductive
