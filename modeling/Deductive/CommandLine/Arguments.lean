import Deductive.Text.Integer

/-!
Command lines: a command, options that may be shortened as long as they are not ambiguous, and one
file.
-/
namespace Deductive.CommandLine

inductive Command where
  | check
  | verify
  | render
  | dump
  deriving DecidableEq, Repr, Inhabited

namespace Command

def all : List Command := [check, verify, render, dump]

def name : Command → String
  | check => "check"
  | verify => "verify"
  | render => "render"
  | dump => "dump"

def ofName? (name : String) : Option Command := all.find? fun c => c.name = name

end Command

inductive Flag where
  | help
  | proofs
  | json
  | maxDepth
  deriving DecidableEq, Repr, Inhabited

namespace Flag

def names : Flag → List String
  | help => ["-h", "--help"]
  | proofs => ["--proofs"]
  | json => ["--json"]
  | maxDepth => ["--max-depth"]

/-- How errors call an option. -/
def title (f : Flag) : String := "/".intercalate f.names

def takesValue : Flag → Bool
  | help => false
  | proofs => true
  | json => false
  | maxDepth => true

end Flag

/-- The options of a command, or of the command line before it. -/
def flags : Option Command → List Flag
  | none => [.help]
  | some .check => [.help, .json]
  | some .verify => [.help, .proofs, .json, .maxDepth]
  | some .render => [.help]
  | some .dump => [.help]

/-- The names of the options, each with its option. -/
def flagNames (command : Option Command) : List (String × Flag) :=
  (flags command).flatMap fun f => f.names.map (·, f)

inductive UsageCause where
  | invalidChoice (name : String)
  | unrecognized (arguments : List String)
  | ambiguous (argument : String) (names : List String)
  | ignoredValue (flag : Flag) (value : String)
  | noValue (flag : Flag)
  | notPositive (flag : Flag) (text : String)
  deriving DecidableEq, Repr

/-- What is expected of a count. -/
def notPositiveMessage (text : String) : String := s!"expected a positive integer, got '{text}'"

def UsageCause.message : UsageCause → String
  | invalidChoice name =>
    "argument command: invalid choice: " ++ Text.quoted name ++ " (choose from " ++
      ", ".intercalate (Command.all.map fun c => Text.quoted c.name) ++ ")"
  | unrecognized arguments => "unrecognized arguments: " ++ " ".intercalate arguments
  | ambiguous argument names =>
    s!"ambiguous option: {argument} could match " ++ ", ".intercalate names
  | ignoredValue flag value =>
    s!"argument {flag.title}: ignored explicit argument " ++ Text.quoted value
  | noValue flag => s!"argument {flag.title}: expected one argument"
  | notPositive flag text => s!"argument {flag.title}: " ++ notPositiveMessage text

/-- Counts are whole numbers from one on. -/
def positiveInteger? (text : String) : Option Int :=
  match Text.readInteger text with
  | .ok n => if 1 ≤ n then some n else none
  | .error _ => none

/-- How parsing ends if it does not end with a request. -/
inductive UsageStop where
  | help (command : Option Command)
  | error (command : Option Command) (cause : UsageCause)
  deriving DecidableEq, Repr

/-- An option as it is written: its name, and what follows the name in the same argument, after an
equals sign if there is one. -/
structure FlagUse where
  flag : Flag
  name : String
  value : Option String
  deriving DecidableEq, Repr

inductive ArgumentKind where
  | separator
  | operand
  | unknownFlag
  | flag (written : FlagUse)
  deriving DecidableEq, Repr

/-- The text before the first equals sign, and the text after it if there is one. -/
def splitEquals (s : String) : String × Option String :=
  let front := s.toList.takeWhile (· ≠ '=')
  match s.toList.drop front.length with
  | [] => (s, none)
  | _ :: value => (String.ofList front, some (String.ofList value))

/-- A minus and decimal digits, perhaps with a point before the last of them. -/
def isNegativeNumber (s : String) : Bool :=
  let isDecimal (c : Char) : Bool := (Text.digitValue? c).isSome
  match s.toList with
  | '-' :: cs =>
    let cs := if cs.getLast? = some '\n' then cs.dropLast else cs
    match cs.dropWhile isDecimal with
    | [] => !cs.isEmpty
    | '.' :: fraction => !fraction.isEmpty && fraction.all isDecimal
    | _ => false
  | _ => false

/-- The options that an argument may stand for as a shortened name. -/
def candidates (names : List (String × Flag)) (argument : String) : List FlagUse :=
  match argument.toList with
  | '-' :: '-' :: _ =>
    let (name, value) := splitEquals argument
    names.filterMap fun (full, flag) =>
      if name.toList.isPrefixOf full.toList then some ⟨flag, full, value⟩ else none
  | '-' :: c :: rest =>
    names.filterMap fun (full, flag) =>
      if full = String.ofList ['-', c] then some ⟨flag, full, some (String.ofList rest)⟩
      else if argument.toList.isPrefixOf full.toList then some ⟨flag, full, none⟩
      else none
  | _ => []

/-- What an argument is, before a separator. -/
def classify (command : Option Command) (argument : String) : Except UsageCause ArgumentKind :=
  let names := flagNames command
  if argument = "--" then .ok .separator
  else if !"-".toList.isPrefixOf argument.toList then .ok .operand
  else match names.lookup argument with
    | some flag => .ok (.flag ⟨flag, argument, none⟩)
    | none =>
      if argument = "-" then .ok .operand
      else
        let (name, value) := splitEquals argument
        match value, names.lookup name with
        | some value, some flag => .ok (.flag ⟨flag, name, some value⟩)
        | _, _ =>
          match candidates names argument with
          | [written] => .ok (.flag written)
          | [] =>
            if isNegativeNumber argument || argument.toList.contains ' ' then .ok .operand
            else .ok .unknownFlag
          | several => .error (.ambiguous argument (several.map FlagUse.name))

/-- What the arguments are; after a separator all are operands. -/
def classifyAll (command : Option Command) :
    List String → Except UsageCause (List (String × ArgumentKind))
  | [] => .ok []
  | a :: as => do
    let kind ← classify command a
    if kind = .separator then .ok ((a, kind) :: as.map (·, .operand))
    else
      let rest ← classifyAll command as
      .ok ((a, kind) :: rest)

/-- The value that cannot go with an option without a value, if there is one. After the letter of a
short option more such letters may follow; what is left from the first other character on is
refused. -/
def extraValue (short : Bool) : List Char → Option (List Char)
  | [] => some []
  | c :: cs =>
    if short && c = 'h' then
      match cs with
      | [] => none
      | rest => extraValue short rest
    else some (c :: cs)

/-- How deep proofs may be nested: as the settings say, as deep as a number says, or to a limit that
is asked for and not given. -/
inductive DepthRequest where
  | settled
  | upTo (depth : Int)
  | notGiven
  deriving DecidableEq, Repr

/-- The limit of nesting, if there is one. -/
def DepthRequest.limit? (settled : Int) : DepthRequest → Option Int
  | .settled => some settled
  | .upTo depth => some depth
  | .notGiven => none

/-- What a command is asked to do. -/
structure Request where
  command : Command
  file : Option String
  proofs : Option String
  json : Bool
  maxDepth : DepthRequest
  deriving DecidableEq, Repr

/-- An option that takes no value is given none. -/
def refuseValue (written : FlagUse) : Except UsageCause Unit :=
  match written.value with
  | none => .ok ()
  | some value =>
    match extraValue (written.name = "-h") value.toList with
    | none => .ok ()
    | some extra => .error (.ignoredValue written.flag (String.ofList extra))

/-- The request with the value of an option. An option without its value takes back what was asked
for before. -/
def setValue (r : Request) (flag : Flag) (value : Option String) : Except UsageCause Request :=
  match flag, value with
  | .proofs, value => .ok { r with proofs := value }
  | .maxDepth, none => .ok { r with maxDepth := .notGiven }
  | .maxDepth, some value =>
    match positiveInteger? value with
    | some n => .ok { r with maxDepth := .upTo n }
    | none => .error (.notPositive flag value)
  | _, _ => .ok r

/-- The value of an option is what follows its name in the same argument, or else the next
argument, which is an operand then. A separator in the same argument is dropped and leaves no value;
there are parsers of options that keep it as the value. -/
def valueOf (written : FlagUse) (next : Option (String × ArgumentKind)) :
    Except UsageCause (Option String) :=
  match written.value, next with
  | some value, _ => .ok (if value = "--" then none else some value)
  | none, some (value, .operand) => .ok (some value)
  | none, _ => .error (.noValue written.flag)

/-- The request with an option, of which the value may be the next argument. -/
def useFlag (r : Request) (written : FlagUse) (next : Option (String × ArgumentKind)) :
    Except UsageStop Request := do
  let stop (cause : UsageCause) : UsageStop := .error (some r.command) cause
  if written.flag.takesValue then
    let value ← (valueOf written next).mapError stop
    (setValue r written.flag value).mapError stop
  else
    (refuseValue written).mapError stop
    if written.flag = .json then .ok { r with json := true } else .error (.help (some r.command))

/-- The first operand is the file. -/
def useOperand (r : Request) (a : String) : Request × List String :=
  if r.file.isNone then ({ r with file := some a }, []) else (r, [a])

/-- A separator is dropped if it stands beside the file, before it or after it. -/
def useSeparated (r : Request) (rest : List (String × ArgumentKind)) : Request × List String :=
  if r.file.isSome then (r, "--" :: rest.map Prod.fst)
  else match rest with
    | [] => (r, [])
    | (file, _) :: rest => ({ r with file := some file }, rest.map Prod.fst)

/-- The request that the arguments of a command make, and the arguments that are left over. The
first argument is passed over if it was the value of an option before it. -/
def readArguments (r : Request) (passed : Bool) :
    List (String × ArgumentKind) → Except UsageStop (Request × List String)
  | [] => .ok (r, [])
  | (a, kind) :: rest =>
    if passed then readArguments r false rest
    else match kind with
      | .separator => .ok (useSeparated r rest)
      | .operand =>
        let (r', extra) := useOperand r a
        match rest with
        | (_, .separator) :: more =>
          if r.file.isNone then .ok (r', more.map Prod.fst)
          else .ok (r', extra ++ rest.map Prod.fst)
        | _ => do
          let (r'', extras) ← readArguments r' false rest
          .ok (r'', extra ++ extras)
      | .unknownFlag => do
        let (r', extras) ← readArguments r false rest
        .ok (r', a :: extras)
      | .flag written => do
        let r' ← useFlag r written rest.head?
        readArguments r' (written.flag.takesValue && written.value.isNone) rest

/-- The request of a command and its arguments, after some arguments that no one knows. -/
def readCommand (extras : List String) (command : Command) (arguments : List String) :
    Except UsageStop Request := do
  let kinds ← (classifyAll (some command) arguments).mapError (.error (some command))
  let (r, more) ← readArguments ⟨command, none, none, false, .settled⟩ false kinds
  if (extras ++ more).isEmpty then .ok r
  else .error (.error none (.unrecognized (extras ++ more)))

/-- The request of a command line; none if it names no command. -/
def readRequest (extras : List String) : List String → Except UsageStop (Option Request)
  | [] =>
    if extras.isEmpty then .ok none else .error (.error none (.unrecognized extras))
  | a :: as =>
    let stop (cause : UsageCause) : UsageStop := .error none cause
    match classify none a with
    | .error cause => .error (stop cause)
    | .ok .separator =>
      .error (stop (if as.isEmpty then .unrecognized (extras ++ [a]) else .invalidChoice a))
    | .ok .operand =>
      match Command.ofName? a with
      | some command => (readCommand extras command as).map some
      | none => .error (stop (.invalidChoice a))
    | .ok .unknownFlag => readRequest (extras ++ [a]) as
    | .ok (.flag written) =>
      match refuseValue written with
      | .ok () => .error (.help none)
      | .error cause => .error (stop cause)

end Deductive.CommandLine
