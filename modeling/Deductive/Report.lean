import Deductive.Diagnostic.Checks
import Deductive.Json
import Deductive.Proof.Verdict

/-!
Reports on the check of a theory and on the verification of its theorems, to be read by people or
by programs.
-/
namespace Deductive

namespace Diagnostic

/-- A line of a report. An empty owner or path is left out like one that is not there. -/
def line (d : Diagnostic) : Phrase :=
  let path := d.path.getD ""
  let whose : Phrase := match d.owner.filter Name.holds with
    | some name => " '" ++ name ++ "':"
    | none => ""
  let place := if path.isEmpty then "" else s!" [{path}]"
  s!"    - [{d.check}]" ++ whose ++ " " ++ d.phrase ++ place ++ s!" ({d.severity.title})"

def toJson (d : Diagnostic) : Json :=
  .object
    [("check", .string d.check), ("severity", .string d.severity.keyword),
      ("assertion", (d.owner.map Name.toJson).getD .null), ("message", .string d.message),
      ("path", .ofString? d.path)]

end Diagnostic

namespace Theory

def errors (t : Theory) : List Diagnostic := t.diagnostics.filter Diagnostic.isError

def warnings (t : Theory) : List Diagnostic := t.diagnostics.filter fun d => !d.isError

/-- The count of what a signature and its theory declare. -/
def summary (t : Theory) : String :=
  let sig := t.signature
  s!"  Signature: {sig.sorts.size} sorts, {sig.terms.size} terms, " ++
    s!"{sig.notations.size} notations, {t.axioms.length} axioms, {t.theorems.length} theorems"

def checkReport (t : Theory) : Phrase :=
  let errors := t.errors
  let warnings := t.warnings
  let plural := if 1 < warnings.length then "s" else ""
  .intercalate "\n" <|
    .ofName t.name ::
    (if errors.isEmpty then [.ofString "  ✓ Well-formed (0 errors)"]
      else .ofString s!"  × Ill-formed ({errors.length} errors)" :: errors.map Diagnostic.line) ++
    (if warnings.isEmpty then []
      else .ofString s!"  ⚠ {warnings.length} warning{plural}" :: warnings.map Diagnostic.line) ++
    [.ofString t.summary]

def checkReportJson (t : Theory) : Json :=
  .object
    [("theory", t.name.toJson), ("well_formed", .bool t.isWellFormed),
      ("error_count", .int t.errors.length), ("warning_count", .int t.warnings.length),
      ("diagnostics", .array (t.diagnostics.map Diagnostic.toJson))]

end Theory

def Verdict.mark : Verdict → String
  | verified => "✓"
  | failed _ => "×"
  | missing => "?"

namespace Outcome

def line (sig : Signature) (o : Outcome) : Phrase :=
  let reason : Phrase := match o.verdict.phrase? sig with
    | some phrase => if phrase.text.isEmpty then "" else ": " ++ phrase
    | none => ""
  s!"  {o.verdict.mark} " ++ o.label ++ s!" ({o.verdict.keyword})" ++ reason

def toJson (sig : Signature) (o : Outcome) : Json :=
  .object
    [("label", o.label.toJson), ("status", .string o.verdict.keyword),
      ("message", .ofString? (o.verdict.message? sig))]

end Outcome

namespace Verification

def report (t : Theory) (v : Verification) : Phrase :=
  let verified := v.count Verdict.isVerified
  let title : Phrase := t.name ++ s!" — {verified}/{v.outcomes.length} theorems verified"
  let strays : List Phrase := v.strays.map fun s => "  × " ++ s.phrase
  .intercalate "\n" (title :: v.outcomes.map (Outcome.line t.signature) ++ strays)

def reportJson (t : Theory) (v : Verification) : Json :=
  .object
    [("theory", t.name.toJson), ("all_verified", .bool v.allVerified),
      ("theorems", .array (v.outcomes.map (Outcome.toJson t.signature))),
      ("errors", .strings (v.strays.map StrayProof.message))]

end Verification
end Deductive
