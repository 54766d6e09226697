import Deductive.Json.Display
import Deductive.Json.Reader
import Deductive.Theory

/-!
Theories from JSON. Fields that are left out take the values that say least; a text stands for the
list of its characters, and an object for the list of its names.
-/
namespace Deductive

inductive DecodeError where
  | syntaxError (e : Json.SyntaxError)
  | missing (key : JsonString)
  -- values without the parts that are asked for
  | noFields (v : Json)
  | noMember (v : Json) (member : String)
  | noItems (v : Json)
  | noNumber (v : Json)
  | noKey (v : Json)
  -- values out of range
  | unknownModifier (word : JsonString)
  | unknownFixity (v : Json)
  | unknownKind (v : Json)
  | unknownExpr (v : Json)
  | badInteger (s : JsonString) (e : Text.IntegerError)
  | notANumber
  | infiniteNumber

namespace DecodeError

def message : DecodeError → JsonString
  | syntaxError e => e.message
  | missing key => key.quoted
  | noFields (.string _) => "string indices must be integers, not 'str'"
  | noFields (.array _) => "list indices must be integers or slices, not str"
  | noFields v => s!"'{v.kindName}' object is not subscriptable"
  | noMember v member => s!"'{v.kindName}' object has no attribute '{member}'"
  | noItems v => s!"'{v.kindName}' object is not iterable"
  | noNumber v =>
    "int() argument must be a string, a bytes-like object or a real number, not " ++
      s!"'{v.kindName}'"
  | noKey v => s!"unhashable type: '{v.kindName}'"
  | unknownModifier word => "Unknown sort modifier: " ++ word
  | unknownFixity v => s!"{v.display} is not a valid Fixity"
  | unknownKind v => s!"{v.display} is not a valid AssertionKind"
  | unknownExpr v => "Unknown expression type: " ++ v.toJsonString
  | badInteger s (.malformed _) => Text.malformedInteger s.quoted
  | badInteger _ e => e.message
  | notANumber => "cannot convert float NaN to integer"
  | infiniteNumber => "cannot convert float infinity to integer"

end DecodeError

abbrev Decoded := Except DecodeError

namespace Json

/-- A field that has to be there. -/
def field (key : JsonString) : Json → Decoded Json
  | object fields =>
    match Registry.find key fields with
    | some v => .ok v
    | none => .error (.missing key)
  | v => .error (.noFields v)

/-- A field that may be left out. -/
def field? (key : JsonString) : Json → Decoded (Option Json)
  | object fields => .ok (Registry.find key fields)
  | v => .error (.noMember v "get")

/-- All fields. -/
def fields : Json → Decoded (List (JsonString × Json))
  | object fields => .ok fields
  | v => .error (.noMember v "items")

/-- The values that a value stands for as a list. -/
def items : Json → Decoded (List Json)
  | array items => .ok items
  | string s => .ok (s.points.map fun n => string (.ofPoints [n]))
  | object fields => .ok (fields.map fun f => string f.1)
  | v => .error (.noItems v)

/-- The items of a field that may be left out. -/
def itemsD (v : Option Json) : Decoded (List Json) :=
  match v with
  | some v => v.items
  | none => .ok []

/-- A whole number; a fraction is cut towards zero, and a text is read. -/
def integer : Json → Decoded Int
  | int n => .ok n
  | bool b => .ok (if b then 1 else 0)
  | fraction negative f => .ok (Text.applySign negative f.floor)
  | infinity _ => .error .infiniteNumber
  | nan => .error .notANumber
  | string s => (Text.readInteger s.escaped).mapError (.badInteger s)
  | v => .error (.noNumber v)

end Json

/-- Each item decoded, from the first one on. -/
def decodeAll {α β : Type} (decode : α → Decoded β) : List α → Decoded (List β)
  | [] => .ok []
  | a :: as => do
    let b ← decode a
    let bs ← decodeAll decode as
    pure (b :: bs)

/-- The names of a list that may be left out. -/
def decodeNames (v : Option Json) : Decoded (List Name) := do
  pure ((← Json.itemsD v).map Name.ofJson)

/-- The entries of a registry, which are the fields of an object. -/
def Registry.ofJson {α : Type} (decode : Json → Decoded α) (v : Json) : Decoded (Registry Name α) := do
  let entries ← decodeAll (fun (key, v) => do pure (Name.ofJson (.string key), ← decode v))
    (← v.fields)
  pure (.ofList entries)

namespace SortModifiers

def ofJson (v : Json) : Decoded SortModifiers :=
  match v with
  | .string word =>
    match ofWord? word.escaped with
    | some m => .ok m
    | none => .error (.unknownModifier word)
  | v => .error (.noMember v "upper")

end SortModifiers

/-- A truth value that may be left out. -/
def Truth.ofJson? (v : Option Json) : Truth := (v.map Truth.ofJson).getD false

def SortDecl.ofJson (v : Json) : Decoded SortDecl := do
  let modifiers ← decodeAll SortModifiers.ofJson (← Json.itemsD (← v.field? "modifiers"))
  let name ← v.field "name"
  pure ⟨.ofJson name, modifiers.foldl SortModifiers.union .empty⟩

theorem sizeOf_find_lt {key : JsonString} {fields : List (JsonString × Json)} {v : Json}
    (h : Registry.find key fields = some v) : sizeOf v < sizeOf fields := by
  induction fields with
  | nil => simp [Registry.find] at h
  | cons f fs ih =>
    obtain ⟨name, w⟩ := f
    rw [Registry.find] at h
    split at h
    · cases h
      simp only [List.cons.sizeOf_spec, Prod.mk.sizeOf_spec]
      omega
    · have := ih h
      simp only [List.cons.sizeOf_spec]
      omega

mutual

def Expr.ofJson : Json → Decoded Expr
  | .object fields =>
    match Registry.find (.text "type") fields with
    | none => .error (.missing "type")
    | some (.string (.text "var")) => do
      let name ← (Json.object fields).field "name"
      pure (.var (.ofJson name))
    | some (.string (.text "app")) => do
      let term ← (Json.object fields).field "term"
      match h : Registry.find (.text "args") fields with
      | none => .error (.missing "args")
      | some (.array items) =>
        have := sizeOf_find_lt h
        pure (.app (.ofJson term) (← Expr.ofJsonAll items))
      | some v =>
        match ← v.items with
        | [] => pure (.app (.ofJson term) [])
        | item :: _ => .error (.noFields item)
    | some v => .error (.unknownExpr v)
  | v => .error (.noFields v)
  termination_by v => sizeOf v
  decreasing_by
    simp only [Json.array.sizeOf_spec] at this
    simp only [Json.object.sizeOf_spec]
    omega

def Expr.ofJsonAll : List Json → Decoded (List Expr)
  | [] => .ok []
  | v :: vs => do
    let e ← Expr.ofJson v
    let es ← Expr.ofJsonAll vs
    pure (e :: es)
  termination_by vs => sizeOf vs

end

def Binder.ofJson (v : Json) : Decoded Binder := do
  let name ← v.field "name"
  let sort ← v.field "sort"
  let bound ← v.field? "bound"
  let deps ← decodeNames (← v.field? "deps")
  pure ⟨.ofJson name, .ofJson sort, .ofJson? bound, deps⟩

/-- A value that may be left out, or be null instead. -/
def decodeOption {α : Type} (decode : Json → Decoded α) : Option Json → Decoded (Option α)
  | none => .ok none
  | some .null => .ok none
  | some v => (decode v).map some

def TermDecl.ofJson (v : Json) : Decoded TermDecl := do
  let name ← v.field "name"
  let binders ← decodeAll Binder.ofJson (← (← v.field "binders").items)
  let resultSort ← v.field "result_sort"
  let resultDeps ← decodeNames (← v.field? "result_deps")
  let isDef ← v.field? "is_def"
  let body ← decodeOption Expr.ofJson (← v.field? "body")
  pure ⟨.ofJson name, binders, .ofJson resultSort, resultDeps, .ofJson? isDef, body⟩

def Fixity.ofJson (v : Json) : Decoded Fixity :=
  match v with
  | .string (.text word) =>
    match ofKeyword? word with
    | some f => .ok f
    | none => .error (.unknownFixity v)
  | v => .error (.unknownFixity v)

/-- The word `max`, or a number. -/
def decodePrec : Json → Decoded Int
  | .string (.text "max") => .ok maxPrec
  | v => v.integer

def Notation.ofJson (v : Json) : Decoded Notation := do
  let level ← v.field "prec"
  let term ← v.field "term"
  let token ← v.field "token"
  let fixity ← Fixity.ofJson (← v.field "fixity")
  let prec ← decodePrec level
  pure ⟨.ofJson term, .ofJson token, fixity, prec⟩

/-- A member of a set, which is no list and no object. -/
def decodeMember (v : Json) : Decoded Name :=
  let name := Name.ofJson v
  if name.isKey then .ok name else .error (.noKey v)

/-- One side of the delimiters, which may be left out. -/
def decodeSide (v : Option Json) : Decoded (List Name) := do
  decodeAll decodeMember (← Json.itemsD v)

/-- The texts among the members of a side. -/
def Delimiters.textsOf (members : List Name) : StringSet :=
  .ofList (members.filterMap fun n => n.toJson.text?)

/-- The members of a side that are no texts. -/
def Delimiters.straysOf (members : List Name) : List Name :=
  Name.sorted (members.filter fun n => n.toJson.text?.isNone)

def Delimiters.ofJson (v : Json) : Decoded Delimiters := do
  let left ← decodeSide (← v.field? "left")
  let right ← decodeSide (← v.field? "right")
  pure { left := textsOf left, right := textsOf right,
         strayLeft := straysOf left, strayRight := straysOf right }

def Signature.ofJson (v : Json) : Decoded Signature := do
  let delimiters ← v.field? "delimiters"
  let sorts ← Registry.ofJson SortDecl.ofJson (← v.field "sorts")
  let terms ← Registry.ofJson TermDecl.ofJson (← v.field "terms")
  let notations ← Registry.ofJson Notation.ofJson ((← v.field? "notations").getD (.object []))
  let delimiters ← Delimiters.ofJson (delimiters.getD (.object []))
  pure ⟨sorts, terms, notations, delimiters⟩

def AssertionKind.ofJson (v : Json) : Decoded AssertionKind :=
  match v with
  | .string (.text word) =>
    match ofKeyword? word with
    | some k => .ok k
    | none => .error (.unknownKind v)
  | v => .error (.unknownKind v)

def Hypothesis.ofJson (v : Json) : Decoded Hypothesis := do
  let name ← v.field? "name"
  let formula ← Expr.ofJson (← v.field "formula")
  pure ⟨(name.filter (· ≠ .null)).map Name.ofJson, formula⟩

def Assertion.ofJson (v : Json) : Decoded Assertion := do
  let kind ← AssertionKind.ofJson (← v.field "kind")
  let label ← v.field "label"
  let binders ← decodeAll Binder.ofJson (← (← v.field "binders").items)
  let hypotheses ← decodeAll Hypothesis.ofJson (← (← v.field "hypotheses").items)
  let conclusion ← Expr.ofJson (← v.field "conclusion")
  pure ⟨kind, .ofJson label, binders, hypotheses, conclusion⟩

def Theory.ofJson (v : Json) : Decoded Theory := do
  let name ← v.field "name"
  let signature ← Signature.ofJson (← v.field "signature")
  let assertions ← decodeAll Assertion.ofJson (← (← v.field "assertions").items)
  pure ⟨.ofJson name, signature, assertions⟩

/-- The theory of a JSON text. -/
def Theory.ofJsonText (text : String) : Decoded Theory :=
  match Json.parse text with
  | .ok v => Theory.ofJson v
  | .error e => .error (.syntaxError e)

end Deductive
