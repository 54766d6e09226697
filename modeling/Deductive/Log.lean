/-!
Log lines: a level, the part of the program that speaks, and what it says.
-/
namespace Deductive

inductive LogLevel where
  | notset
  | debug
  | info
  | warning
  | error
  | critical
  deriving DecidableEq, Repr, Inhabited

namespace LogLevel

def severity : LogLevel → Nat
  | notset => 0
  | debug => 10
  | info => 20
  | warning => 30
  | error => 40
  | critical => 50

def name : LogLevel → String
  | notset => "NOTSET"
  | debug => "DEBUG"
  | info => "INFO"
  | warning => "WARNING"
  | error => "ERROR"
  | critical => "CRITICAL"

/-- Every name of a level; two levels have a second one. -/
def table : List (String × LogLevel) :=
  ([notset, debug, info, warning, error, critical].map fun l => (l.name, l)) ++
    [("WARN", warning), ("FATAL", critical)]

def ofName? (name : String) : Option LogLevel := table.lookup name

end LogLevel

structure LogLine where
  level : LogLevel
  source : String
  message : String
  deriving DecidableEq, Repr

namespace LogLine

def text (l : LogLine) : String := s!"{l.level.name} {l.source}: {l.message}"

/-- A line is shown from its level on downwards. -/
def isShown (threshold : LogLevel) (l : LogLine) : Bool :=
  threshold.severity ≤ l.level.severity

end LogLine
end Deductive
