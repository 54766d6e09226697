import Deductive.CommandLine.Arguments
import Deductive.CommandLine.Files
import Deductive.Json.Writer
import Deductive.Library
import Deductive.Report
import Deductive.Settings
import Deductive.Theory.Demands
import Deductive.Theory.OfJson
import Deductive.Theory.ToJson
import Deductive.Theory.Writer

/-!
The command line: a theory and its proofs are read from files, checked, verified, rendered or
dumped.
-/
namespace Deductive.CommandLine

/-- The name of the program. -/
def programName : String := "hilbert"

def parserSource : String := "hilbert.parser"

def verifySource : String := "hilbert.verify"

/-- What reading a theory logs. -/
def parseLog (declarations : List Declaration) : List LogLine :=
  declarations.filterMap fun d => d.announcement?.map (⟨.debug, parserSource, ·⟩)

/-- What verifying a theory logs. -/
def verifyLog (sig : Signature) (events : List ProofEvent) : List LogLine :=
  events.filterMap fun e => (e.message? sig).map (⟨e.level, verifySource, ·⟩)

/-- Where a text comes from: it is bundled under a path, or it is that of a file. -/
inductive Source where
  | bundled (path text : String)
  | file (path : String)
  deriving DecidableEq, Repr

namespace Source

def path : Source → String
  | bundled path _ => path
  | file path => path

/-- The declarations that are used if no file is named. -/
def declarations : Source := bundled Library.declarationsPath Library.declarations

/-- Where the proofs are that belong to declarations. -/
def proofsBeside : Source → Source
  | bundled .. => bundled Library.proofsPath Library.proofs
  | file path => file ((Path.ofString path).withSuffix ".mmp").toString

def isJson (s : Source) : Bool := ".json".toList.isSuffixOf s.path.toList

end Source

inductive LoadError where
  | file (e : FileError)
  | nullInPath (json : Bool)
  | parse (e : ParseError)
  | decode (e : DecodeError)

namespace LoadError

def message : LoadError → String
  | file e => e.message
  | nullInPath _ => "embedded null byte"
  | parse e => e.message
  | decode e => e.message.escaped

/-- Faults that the program has no report for stop it. A path that no file can have is reported
only where JSON is read. -/
def isReported : LoadError → Bool
  | nullInPath json => json
  | parse ⟨_, .precTooLong _⟩ => false
  | decode (.noMember _ _) => false
  | decode .infiniteNumber => false
  | _ => true

end LoadError

/-- Faults that stop the program. -/
inductive Crash where
  | settings (e : Text.IntegerError)
  | load (e : LoadError)
  | names
  | noLimit
  | encoding

/-- How a run ends: with a code, or with a fault that stops it. -/
structure Exit where
  code : Except Crash Nat
  out : String
  err : String

/-- What a run has written. -/
structure Output where
  out : String
  err : String

/-- A run that reads files. A fault stops it, and what was written before stays. -/
def Run (m : Type → Type) (α : Type) : Type := Output → m (Except Crash α × Output)

namespace Run

variable {m : Type → Type} [Monad m] {α β : Type}

instance : Monad (Run m) where
  pure a := fun o => pure (.ok a, o)
  bind r f := fun o => do
    match ← r o with
    | (.ok a, o) => f a o
    | (.error crash, o) => pure (.error crash, o)

def lift (action : m α) : Run m α := fun o => do
  let a ← action
  pure (.ok a, o)

def crash (c : Crash) : Run m α := fun o => pure (.error c, o)

/-- Nothing is written of a phrase with a name that is not all characters. -/
def print (p : Phrase) : Run m Unit := fun o =>
  pure (if p.isEncodable then (.ok (), { o with out := o.out ++ p.text }) else (.error .encoding, o))

/-- The error output escapes what is no character. -/
def complain (text : String) : Run m Unit :=
  fun o => pure (.ok (), { o with err := o.err ++ text ++ "\n" })

end Run

/-- How files are read, and from which level on the log is shown. -/
structure Session (m : Type → Type) where
  read : String → m (Except FileError String)
  threshold : LogLevel

namespace Session

variable {m : Type → Type} [Monad m] (session : Session m)

def log (lines : List LogLine) : Run m Unit :=
  match (lines.filter (LogLine.isShown session.threshold)).map LogLine.text with
  | [] => pure ()
  | texts => Run.complain ("\n".intercalate texts)

def readText (s : Source) (json : Bool) : Run m (Except LoadError String) :=
  match s with
  | .bundled _ text => pure (.ok text)
  | .file path => do
    if path.contains '\x00' then pure (.error (.nullInPath json))
    else match ← Run.lift (session.read path) with
      | .ok text => pure (.ok (String.ofList (normalizeNewlines text.toList)))
      | .error e => pure (.error (.file e))

/-- The theory of a file, which is named after it unless it is JSON. -/
def loadTheory (s : Source) : Run m (Except LoadError Theory) := do
  match ← session.readText s s.isJson with
  | .error e => pure (.error e)
  | .ok text =>
    if s.isJson then pure ((Theory.ofJsonText text).mapError .decode)
    else
      let (declarations, result) := Theory.parse text (String.ofList (Path.ofString s.path).stem)
      session.log (parseLog declarations)
      pure (result.mapError .parse)

/-- The proofs of a file. Without a limit of nesting the first proof cannot be read, so that only
files without proofs can. -/
def loadProofs (s : Source) (t : Theory) (limit : Option Int) :
    Run m (Except LoadError ProofFile) := do
  match ← session.readText s false with
  | .error e => pure (.error e)
  | .ok text =>
    match limit, ProofFile.parse text t.signature (limit.getD (-1)) with
    | none, .error ⟨_, .nestingLimit _⟩ => Run.crash .noLimit
    | _, result => pure (result.mapError .parse)

/-- What was loaded is used; a fault ends the run with a report. -/
def withLoaded {α : Type} (s : Source) (loaded : Except LoadError α) (next : α → Run m Nat) :
    Run m Nat :=
  match loaded with
  | .ok a => next a
  | .error e =>
    if e.isReported then do
      Run.complain s!"Error loading {s.path}: {e.message}"
      pure 1
    else Run.crash (.load e)

def printLine (p : Phrase) : Run m Unit := Run.print (p ++ "\n")

/-- The form in which JSON is printed. -/
def jsonStyle : Json.Style := .indented 2

/-- Work that asks more of the names of a theory than they give cannot be done. -/
def demand (met : Bool) : Run m Unit := if met then pure () else Run.crash .names

def check (json : Bool) (t : Theory) : Run m Nat := do
  demand t.isCheckable
  printLine (if json then t.checkReportJson.write jsonStyle else t.checkReport)
  pure (if t.isWellFormed then 0 else 1)

/-- Only well-formed theories are verified. Without a limit there are no proofs. -/
def verifyLoaded (json : Bool) (limit : Option Int) (t : Theory) (proofs : ProofFile) : Run m Nat := do
  demand t.isCheckable
  if t.isWellFormed then
    let (events, v) := t.verify proofs (limit.getD 0)
    session.log (verifyLog t.signature (events.takeWhile (·.isWritable t.signature)))
    demand (events.all (·.isWritable t.signature))
    printLine (if json then (v.reportJson t).write jsonStyle else v.report t)
    pure (if v.allVerified then 0 else 1)
  else
    Run.complain t.checkReport.text
    pure 1

/-- The proofs are beside the declarations unless a file is named; an empty name is none. -/
def verify (r : Request) (s : Source) (limit : Option Int) (t : Theory) : Run m Nat := do
  let proofs := match r.proofs with
    | some path => if path.isEmpty then s.proofsBeside else .file path
    | none => s.proofsBeside
  withLoaded proofs (← session.loadProofs proofs t limit) (session.verifyLoaded r.json limit t)

def render (t : Theory) : Run m Nat := do
  demand t.isWritable
  Run.print t.written
  pure 0

def dump (t : Theory) : Run m Nat := do
  demand t.signature.delimiters.areTexts
  printLine (t.toJson.write jsonStyle)
  pure 0

def perform (settings : Settings) (r : Request) : Run m Nat := do
  let s := (r.file.map Source.file).getD .declarations
  let loaded ← session.loadTheory s
  match r.command with
  | .check => withLoaded s loaded (check r.json)
  | .verify =>
    withLoaded s loaded (session.verify r s (r.maxDepth.limit? settings.maxProofDepth))
  | .render => withLoaded s loaded render
  | .dump => withLoaded s loaded dump

end Session

/-- How a command, or the program before its command, is called. -/
def callName : Option Command → String
  | none => programName
  | some c => s!"{programName} {c.name}"

def usage : Option Command → String
  | none =>
    s!"usage: {programName} [-h] " ++ "\x7b" ++ ",".intercalate (Command.all.map Command.name) ++
      "\x7d ...\n"
  | some c =>
    let options := (flags (some c)).map fun f =>
      if f = .help then "[-h]" else if f.takesValue then s!"[{f.title} VALUE]" else s!"[{f.title}]"
    s!"usage: {callName (some c)} " ++ joinWords options ++ " [file]\n"

/-- A run with the arguments given, after the settings are read. -/
def runSettled {m : Type → Type} [Monad m] (read : String → m (Except FileError String))
    (settings : Settings) (arguments : List String) : Run m Nat :=
  match readRequest [] arguments with
  | .ok (some r) => Session.perform ⟨read, settings.logLevel⟩ settings r
  | .ok none => do
    Run.print (usage none)
    pure 1
  | .error (.help command) => do
    Run.print (usage command)
    pure 0
  | .error (.error command cause) => do
    Run.complain (usage command ++ s!"{callName command}: error: {cause.message}")
    pure 2

/-- A whole run. -/
def run {m : Type → Type} [Monad m] (read : String → m (Except FileError String))
    (env : Registry String String) (arguments : List String) : m Exit := do
  let (code, o) ← (match Settings.ofEnvironment env with
    | .ok settings => runSettled read settings arguments
    | .error (.badInteger e) => Run.crash (.settings e)
    | .error e => do
      Run.complain s!"Invalid configuration: {e.message}"
      pure 1 : Run m Nat) ⟨"", ""⟩
  pure ⟨code, o.out, o.err⟩

end Deductive.CommandLine
