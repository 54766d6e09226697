import Deductive.Log
import Deductive.Registry
import Deductive.Text.Integer
import Deductive.Text.Upper

/-!
Settings, as the environment gives them.
-/
namespace Deductive

structure Settings where
  logLevel : LogLevel
  /-- The level as it was named, of the two names that some levels have. -/
  logLevelName : String
  maxProofDepth : Int
  deriving DecidableEq, Repr

inductive SettingsError where
  | unknownLevel (name : String)
  | badDepth (text : String)
  | badInteger (e : Text.IntegerError)
  deriving DecidableEq, Repr

namespace Settings

/-- The variable of the environment that names the log level. -/
def levelVariable : String := "HILBERT_LOG_LEVEL"

/-- The variable of the environment that gives the nesting of proofs. -/
def depthVariable : String := "HILBERT_MAX_PROOF_DEPTH"

end Settings

def SettingsError.message : SettingsError → String
  | unknownLevel name => s!"{Settings.levelVariable}: unknown level '{name}'"
  | badDepth text => s!"{Settings.depthVariable} must be a positive integer, got '{text}'"
  | badInteger e => e.message

namespace Settings

def defaultLogLevel : String := "WARNING"

def defaultMaxProofDepth : Int := 256

/-- A depth is written with digits only. Digits that are no decimal ones pass for digits and are
then no integer. -/
def readDepth (text : String) : Except SettingsError Int :=
  let depth := Text.strip text
  if depth.isEmpty || !depth.toList.all Text.isDigitSign then .error (.badDepth depth)
  else
    match Text.readInteger depth with
    | .error e => .error (.badInteger e)
    | .ok n => if 0 < n then .ok n else .error (.badDepth depth)

def ofEnvironment (env : Registry String String) : Except SettingsError Settings :=
  let levelName := Text.upper (Text.strip ((env.get? levelVariable).getD defaultLogLevel))
  match LogLevel.ofName? levelName with
  | none => .error (.unknownLevel levelName)
  | some level =>
    match env.get? depthVariable with
    | none => .ok ⟨level, levelName, defaultMaxProofDepth⟩
    | some text => (readDepth text).map fun n => ⟨level, levelName, n⟩

end Settings
end Deductive
