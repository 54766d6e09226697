import Deductive.Decimal
import Deductive.Registry

/-!
JSON values. Whole numbers have no bound, fractions are the nearest binary ones; the fields of an
object keep their order, and a field that is given again keeps its first place and takes its last
value.
-/
namespace Deductive

/-- A text, or code points of which some are surrogates without their partners and no characters. -/
inductive JsonString where
  | text (s : String)
  | ragged (points : List Nat)
  deriving DecidableEq, Repr, Inhabited

namespace JsonString

instance : Coe String JsonString := ⟨text⟩

/-- The code points. -/
def points : JsonString → List Nat
  | text s => s.toList.map Char.toNat
  | ragged ps => ps

def ofPoints (ps : List Nat) : JsonString :=
  if ps.all fun n => decide n.isValidChar then text (String.ofList (ps.map Char.ofNat)) else ragged ps

protected def append : JsonString → JsonString → JsonString
  | text s, text t => text (s ++ t)
  | a, b => ofPoints (a.points ++ b.points)

instance : Append JsonString := ⟨JsonString.append⟩

def isEmpty (s : JsonString) : Bool := s.points.isEmpty

theorem points_ofPoints (ps : List Nat) : (ofPoints ps).points = ps := by
  unfold ofPoints
  split
  · rename_i h
    simp only [points, String.toList_ofList, List.map_map]
    refine (List.map_congr_left fun n hn => ?_).trans (List.map_id _)
    have hv : n.isValidChar := by simpa using List.all_eq_true.mp h n hn
    change (Char.ofNat n).toNat = n
    rw [Char.ofNat, dif_pos hv]
    rfl
  · rfl

end JsonString

inductive Json where
  | null
  | bool (b : Bool)
  | int (n : Int)
  | fraction (negative : Bool) (magnitude : BinaryFraction)
  | infinity (negative : Bool)
  | nan
  | string (s : JsonString)
  | array (items : List Json)
  | object (fields : List (JsonString × Json))
  deriving Inhabited, Repr

namespace Json

mutual

protected def decEq : (a b : Json) → Decidable (a = b)
  | null, b => match b with
    | null => isTrue rfl
    | bool _ | int _ | fraction _ _ | infinity _ | nan | string _ | array _ | object _ =>
      isFalse nofun
  | bool x, b => match b with
    | bool y => if h : x = y then isTrue (h ▸ rfl) else isFalse fun he => h (bool.inj he)
    | null | int _ | fraction _ _ | infinity _ | nan | string _ | array _ | object _ =>
      isFalse nofun
  | int x, b => match b with
    | int y => if h : x = y then isTrue (h ▸ rfl) else isFalse fun he => h (int.inj he)
    | null | bool _ | fraction _ _ | infinity _ | nan | string _ | array _ | object _ =>
      isFalse nofun
  | fraction x m, b => match b with
    | fraction y n =>
      if h : x = y ∧ m = n then isTrue (h.1 ▸ h.2 ▸ rfl)
      else isFalse fun he => h (fraction.inj he)
    | null | bool _ | int _ | infinity _ | nan | string _ | array _ | object _ => isFalse nofun
  | infinity x, b => match b with
    | infinity y => if h : x = y then isTrue (h ▸ rfl) else isFalse fun he => h (infinity.inj he)
    | null | bool _ | int _ | fraction _ _ | nan | string _ | array _ | object _ => isFalse nofun
  | nan, b => match b with
    | nan => isTrue rfl
    | null | bool _ | int _ | fraction _ _ | infinity _ | string _ | array _ | object _ =>
      isFalse nofun
  | string x, b => match b with
    | string y => if h : x = y then isTrue (h ▸ rfl) else isFalse fun he => h (string.inj he)
    | null | bool _ | int _ | fraction _ _ | infinity _ | nan | array _ | object _ => isFalse nofun
  | array xs, b => match b with
    | array ys =>
      match decEqItems xs ys with
      | isTrue h => isTrue (h ▸ rfl)
      | isFalse h => isFalse fun he => h (array.inj he)
    | null | bool _ | int _ | fraction _ _ | infinity _ | nan | string _ | object _ => isFalse nofun
  | object xs, b => match b with
    | object ys =>
      match decEqFields xs ys with
      | isTrue h => isTrue (h ▸ rfl)
      | isFalse h => isFalse fun he => h (object.inj he)
    | null | bool _ | int _ | fraction _ _ | infinity _ | nan | string _ | array _ => isFalse nofun

def decEqItems : (xs ys : List Json) → Decidable (xs = ys)
  | [], [] => isTrue rfl
  | [], _ :: _ => isFalse nofun
  | _ :: _, [] => isFalse nofun
  | x :: xs, y :: ys =>
    match Json.decEq x y with
    | isTrue h =>
      match decEqItems xs ys with
      | isTrue hs => isTrue (h ▸ hs ▸ rfl)
      | isFalse hs => isFalse fun he => hs (List.cons.inj he).2
    | isFalse h => isFalse fun he => h (List.cons.inj he).1

def decEqFields : (xs ys : List (JsonString × Json)) → Decidable (xs = ys)
  | [], [] => isTrue rfl
  | [], _ :: _ => isFalse nofun
  | _ :: _, [] => isFalse nofun
  | (k, x) :: xs, (l, y) :: ys =>
    if hk : k = l then
      match Json.decEq x y with
      | isTrue h =>
        match decEqFields xs ys with
        | isTrue hs => isTrue (hk ▸ h ▸ hs ▸ rfl)
        | isFalse hs => isFalse fun he => hs (List.cons.inj he).2
      | isFalse h => isFalse fun he => h (Prod.mk.inj (List.cons.inj he).1).2
    else isFalse fun he => hk (Prod.mk.inj (List.cons.inj he).1).1

end

instance : DecidableEq Json := Json.decEq

/-- The object of some fields, of which a later one replaces an earlier one of its name. -/
def ofFields (fields : List (JsonString × Json)) : Json :=
  .object (fields.foldl (fun fs (name, value) => Registry.place name value fs) [])

/-- The value of an optional text. -/
def ofString? : Option String → Json
  | some s => .string s
  | none => .null

def strings (ss : List String) : Json := .array (ss.map fun (s : String) => .string s)

def text? : Json → Option String
  | string (.text s) => some s
  | _ => none

def bool? : Json → Option Bool
  | bool b => some b
  | _ => none

/-- Null, false, zero and what is empty say no, all else yes. -/
def holds : Json → Bool
  | null => false
  | bool b => b
  | int n => n ≠ 0
  | fraction _ f => f.mantissa ≠ 0
  | infinity _ => true
  | nan => true
  | string s => !s.isEmpty
  | array items => !items.isEmpty
  | object fields => !fields.isEmpty

/-- A number as a quotient; truth values count as one and zero. -/
def quotient? : Json → Option (Int × Nat)
  | bool b => some (if b then 1 else 0, 1)
  | int n => some (n, 1)
  | fraction negative f =>
    let (num, den) := f.quotient
    some (if negative then -(num : Int) else num, den)
  | _ => none

mutual

/-- Equal, where numbers and truth values are compared as numbers and fields have no order. -/
def same : Json → Json → Bool
  | array xs, array ys => sameItems xs ys
  | object xs, object ys => xs.length = ys.length && haveFields ys xs
  | a, b =>
    match a.quotient?, b.quotient? with
    | some (m, d), some (n, e) => m * e = n * d
    | _, _ => a = b

def sameItems : List Json → List Json → Bool
  | [], [] => true
  | x :: xs, y :: ys => same x y && sameItems xs ys
  | _, _ => false

/-- The fields given first have all those given last. -/
def haveFields (ys : List (JsonString × Json)) : List (JsonString × Json) → Bool
  | [] => true
  | (key, x) :: xs =>
    (match Registry.find key ys with
      | some y => same x y
      | none => false) && haveFields ys xs

end

end Json
end Deductive
