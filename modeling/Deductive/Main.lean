import Deductive.CommandLine

/-!
The program.
-/
namespace Deductive.CommandLine

/-- The text of a file on disk. -/
def readFile (path : String) : IO (Except FileError String) := do
  let name := (Path.ofString path).toString
  try
    let text ← IO.FS.readFile name
    pure (.ok text)
  catch e =>
    let fault : FileFault := match e with
      | .inappropriateType none .. => .directory
      | .inappropriateType (some _) .. => .notDirectory
      | .invalidArgument .. => .tooLong
      | _ => .missing
    pure (.error ⟨fault, name⟩)

/-- The variables of the environment that the settings are read from. -/
def environment : IO (Registry String String) := do
  let mut env : Registry String String := .empty
  for name in [Settings.levelVariable, Settings.depthVariable] do
    if let some value ← IO.getEnv name then
      env := env.insert name value
  pure env

end Deductive.CommandLine

def main (arguments : List String) : IO UInt32 := do
  let environment ← Deductive.CommandLine.environment
  let exit ← Deductive.CommandLine.run Deductive.CommandLine.readFile environment arguments
  IO.print exit.out
  IO.eprint exit.err
  match exit.code with
  | .ok code => pure code.toUInt32
  | .error (.settings e) => do
    IO.eprintln e.message
    pure 1
  | .error (.load e) => do
    IO.eprintln e.message
    pure 1
  | .error .names => pure 1
  | .error .noLimit => pure 1
  | .error .encoding => pure 1
