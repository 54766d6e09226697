import Deductive.Registry
import Deductive.Text.Quoted

/-!
Files of text: their names, what can go wrong with them, and a directory of files in memory.
-/
namespace Deductive.CommandLine

inductive FileFault where
  | missing
  | notDirectory
  | directory
  | tooLong
  deriving DecidableEq, Repr

structure FileError where
  fault : FileFault
  path : String
  deriving DecidableEq, Repr

def FileError.message (e : FileError) : String :=
  let reason := match e.fault with
    | .missing => "[Errno 2] No such file or directory: "
    | .notDirectory => "[Errno 20] Not a directory: "
    | .directory => "[Errno 21] Is a directory: "
    | .tooLong => "[Errno 36] File name too long: "
  reason ++ Text.quoted e.path

/-- Every end of a line becomes a line feed. -/
def normalizeNewlines : List Char → List Char
  | '\r' :: '\n' :: cs => '\n' :: normalizeNewlines cs
  | '\r' :: cs => '\n' :: normalizeNewlines cs
  | c :: cs => c :: normalizeNewlines cs
  | [] => []

/-- The parts of a text between the characters of a kind. -/
def splitAtChar (sep : Char) : List Char → List (List Char)
  | [] => [[]]
  | c :: cs =>
    if c = sep then [] :: splitAtChar sep cs
    else match splitAtChar sep cs with
      | [] => [[c]]
      | part :: parts => (c :: part) :: parts

/-- A path as the slashes that it begins with and the names that it leads through. -/
structure Path where
  root : String
  parts : List (List Char)
  deriving DecidableEq, Repr

namespace Path

/-- Slashes at the front are one root, but two of them are a root of their own. -/
def rootOf (cs : List Char) : String :=
  match (cs.takeWhile (· = '/')).length with
  | 0 => ""
  | 2 => "//"
  | _ => "/"

/-- Empty names and single points lead nowhere. -/
def ofString (s : String) : Path :=
  { root := rootOf s.toList
    parts := (splitAtChar '/' s.toList).filter fun part => part ≠ [] ∧ part ≠ ['.'] }

def toString (p : Path) : String :=
  if p.root.isEmpty && p.parts.isEmpty then "."
  else p.root ++ "/".intercalate (p.parts.map String.ofList)

/-- The last name, which is the name of the file. -/
def name (p : Path) : List Char := p.parts.getLast?.getD []

/-- The name of the file without its suffix, which begins at its last point. A name does not begin
with its suffix, and a point at the end begins none. -/
def stem (p : Path) : List Char :=
  let reversed := p.name.reverse
  let suffix := reversed.takeWhile (· ≠ '.')
  let front := (reversed.drop (suffix.length + 1)).reverse
  if suffix.isEmpty || front.isEmpty then p.name else front

/-- The path with another suffix. -/
def withSuffix (p : Path) (suffix : String) : Path :=
  { p with parts := p.parts.dropLast ++ [p.stem ++ suffix.toList] }

end Path

/-- No name on a path is longer, in bytes. -/
def nameLimit : Nat := 255

/-- All paths are shorter, in bytes. -/
def pathLimit : Nat := 4096

/-- Files by the names that lead to them from one place, and directories of which nothing else is
known. -/
structure Directory where
  files : Registry (List (List Char)) String
  directories : List (List (List Char)) := []
  deriving DecidableEq, Repr

namespace Directory

def empty : Directory := { files := .empty }

/-- All paths to a file are the same file. -/
def write (d : Directory) (path text : String) : Directory :=
  { d with files := d.files.insert (Path.ofString path).parts text }

def ofList (files : List (String × String)) : Directory :=
  files.foldl (fun d file => d.write file.1 file.2) empty

/-- What is found at the root of every system. The null device reads as an empty text. -/
def root : Directory :=
  { ofList [("/dev/null", "")] with
    directories := ["bin", "etc", "lib", "tmp", "usr", "var"].map fun name => [name.toList] }

/-- The directory itself, and those on the way to a file, are directories. -/
def isDirectory (d : Directory) (parts : List (List Char)) : Bool :=
  parts.isEmpty || d.directories.contains parts ||
    d.files.keys.any fun file => parts.isPrefixOf file && parts ≠ file

/-- Follows names from the place that names lead to. Where none do, only the way up is known. -/
def follow (d : Directory) (above : Option (List (List Char))) :
    Option (List (List Char)) → List (List Char) → Except FileFault String
  | _, [] => .error .directory
  | here, name :: rest =>
    if name = ['.', '.'] then
      d.follow above (here.bind fun names => if names.isEmpty then above else some names.dropLast)
        rest
    else if nameLimit < (String.ofList name).utf8ByteSize then .error .tooLong
    else match here with
      | none => .error .missing
      | some names =>
        match d.files.get? (names ++ [name]) with
        | some text => if rest.isEmpty then .ok text else .error .notDirectory
        | none =>
          if d.isDirectory (names ++ [name]) then d.follow above (some (names ++ [name])) rest
          else .error .missing

/-- The text at a path, which begins at the root or at the directory. Nothing is above the root, and
nothing is known of what is above the directory. -/
def read (d : Directory) (path : String) : Except FileError String :=
  let p := Path.ofString path
  let found :=
    if pathLimit ≤ p.toString.utf8ByteSize then .error .tooLong
    else if p.root.isEmpty then d.follow none (some []) p.parts
    else root.follow (some []) (some []) p.parts
  found.mapError (⟨·, p.toString⟩)

end Directory
end Deductive.CommandLine
