import Deductive.Json.Display

/-!
Names of sorts, terms, variables and assertions. A name is a text; a theory that is read from JSON
may hold another value in the place of a name, which is kept. Names are compared by their form, so
that `1`, `1.0` and `true` are different names although they are equal as numbers; what is said of
names is exact for those that are strings.
-/
namespace Deductive

inductive Name where
  | text (s : String)
  | value (v : Json) (not_text : v.text? = none)
  deriving DecidableEq, Repr, Inhabited

namespace Name

instance : Coe String Name := ⟨text⟩

def ofJson (v : Json) : Name :=
  match h : v.text? with
  | some s => text s
  | none => value v h

def toJson : Name → Json
  | text s => .string s
  | value v _ => v

theorem toJson_ofJson (v : Json) : (ofJson v).toJson = v := by
  unfold ofJson
  split
  · rename_i s h
    unfold Json.text? at h
    split at h
    · cases h
      rfl
    · cases h
  · rfl

theorem ofJson_toJson (n : Name) : ofJson n.toJson = n := by
  cases n with
  | text s => rfl
  | value v h =>
    unfold ofJson
    split
    · rename_i s hs
      rw [toJson, h] at hs
      cases hs
    · rfl

/-- A text as it is, any other value as messages show it. -/
def toJsonString : Name → JsonString
  | text s => s
  | value v _ => v.toJsonString

protected def toString : Name → String
  | text s => s
  | value v _ => v.toJsonString.escaped

instance : ToString Name := ⟨Name.toString⟩

/-- A text in quotes, any other value as messages show it. -/
def quoted : Name → String
  | text s => Text.quoted s
  | value v _ => v.display

/-- Not empty, and no value that says no. -/
def holds (n : Name) : Bool := n.toJson.holds

/-- Strings can be joined in formulas and declarations, also those with code points that are no
characters. -/
def isText (n : Name) : Bool :=
  match n.toJson with
  | .string _ => true
  | _ => false

/-- All code points of what is written of the name are characters. -/
def isEncodable (n : Name) : Bool := n.toJsonString.isEncodable

/-- Lists and objects cannot be looked up. -/
def isKey (n : Name) : Bool :=
  match n.toJson with
  | .array _ => false
  | .object _ => false
  | _ => true

def isNumber (n : Name) : Bool :=
  match n.toJson with
  | .infinity _ => true
  | .nan => true
  | v => v.quotient?.isSome

/-- Names can be put in order if all are texts or all are numbers; one alone is in order. -/
def areOrdered (names : List Name) : Bool :=
  names.all isText || names.all isNumber || names.eraseDups.length ≤ 1

/-- The code points of a text. -/
def points (n : Name) : List Nat :=
  match n.toJson with
  | .string s => s.points
  | _ => []

/-- Texts are ordered by code points, numbers by their size. -/
def atMost (a b : Name) : Bool :=
  match a.toJson.quotient?, b.toJson.quotient? with
  | some (m, d), some (n, e) => m * e ≤ n * d
  | _, _ => !List.lex b.points a.points (· < ·)

/-- The names without repetitions, in order. -/
def sorted (names : List Name) : List Name := names.eraseDups.mergeSort atMost

def least? : List Name → Option Name
  | [] => none
  | n :: ns =>
    match least? ns with
    | none => some n
    | some m => some (if n.atMost m then n else m)

theorem least?_eq_none_iff {ns : List Name} : least? ns = none ↔ ns = [] := by
  cases ns with
  | nil => simp [least?]
  | cons n ns =>
    unfold least?
    split <;> simp

theorem mem_of_least? {ns : List Name} {n : Name} (h : least? ns = some n) : n ∈ ns := by
  induction ns generalizing n with
  | nil => cases h
  | cons m ns ih =>
    unfold least? at h
    split at h
    · cases h
      exact List.mem_cons_self
    · rename_i k hk
      split at h
      · cases h
        exact List.mem_cons_self
      · cases h
        exact List.mem_cons_of_mem _ (ih hk)

end Name
end Deductive
