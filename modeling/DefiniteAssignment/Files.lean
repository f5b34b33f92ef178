import DefiniteAssignment.Text.Literal

/-! Files as a command sees them: a path leads to the bytes of a file, or to the
reason why it does not. `Files` is such a view of a directory held in memory. -/
namespace DefiniteAssignment

inductive FileError where
  | notFound (path : String)
  | isDirectory (path : String)
  | notDirectory (path : String)
  | nameTooLong (path : String)
  | nullCharacter
deriving DecidableEq, Repr

namespace FileError

def message : FileError → String
  | notFound path => "[Errno 2] No such file or directory: " ++ Text.quoted path
  | isDirectory path => "[Errno 21] Is a directory: " ++ Text.quoted path
  | notDirectory path => "[Errno 20] Not a directory: " ++ Text.quoted path
  | nameTooLong path => "[Errno 36] File name too long: " ++ Text.quoted path
  | nullCharacter => "embedded null byte"

end FileError

abbrev Lookup := String → Except FileError (List UInt8)

/-- Whether there is a file or a directory at the path. A path that is too long
leaves the question open. -/
def Lookup.has (lookup : Lookup) (path : String) : Except FileError Bool :=
  match lookup path with
  | .ok _ | .error (.isDirectory _) => .ok true
  | .error (.notFound _) | .error (.notDirectory _) | .error .nullCharacter => .ok false
  | .error (.nameTooLong path) => .error (.nameTooLong path)

namespace Path

def steps (path : String) : List String :=
  ((path.splitOn "/").filter fun step => step ≠ "" && step ≠ ".")

/-- The slashes that an absolute path starts with: two are kept, and any other
number of them is one. -/
def root (path : String) : String :=
  match (path.toList.takeWhile (· = '/')).length with
  | 0 => ""
  | 2 => "//"
  | _ => "/"

def tidy (path : String) : String :=
  let tidied := root path ++ "/".intercalate (steps path)
  if tidied = "" then "." else tidied

def stepLimit : Nat := 255

def limit : Nat := 4095

end Path

/-- Where a path has led so far: to a place in a directory, by the steps down to
it, or to one of the directories around, of which nothing more is known. -/
inductive Place where
  | inside (steps : List String)
  | around
deriving DecidableEq, Repr

namespace Place

def up : Place → Place
  | inside (step :: steps) => inside (step :: steps).dropLast
  | inside [] | around => around

end Place

/-- The files of a directory, the last written first, and the directories in it.
Both are named by the steps down to them. -/
structure Files where
  files : List (List String × List UInt8) := []
  directories : List (List String) := []

namespace Files

def file? (f : Files) (steps : List String) : Option (List UInt8) :=
  (f.files.find? fun file => file.1 = steps).map Prod.snd

def isDirectory (f : Files) (steps : List String) : Bool :=
  steps.isEmpty || f.directories.contains steps

def writeFrom (f : Files) (bytes : List UInt8) (base : List String) : List String → Files
  | [] => f
  | [name] => { f with files := (base ++ [name], bytes) :: f.files }
  | step :: rest =>
    if step = ".." then f.writeFrom bytes base.dropLast rest
    else
      let next := base ++ [step]
      { f with directories := next :: f.directories }.writeFrom bytes next rest

def write (f : Files) (path : String) (bytes : List UInt8) : Files :=
  f.writeFrom bytes [] (Path.steps path)

def follow (f : Files) (path : String) (place : Place) :
    List String → Except FileError (List UInt8)
  | [] => .error (.isDirectory path)
  | step :: rest =>
    if step = ".." then f.follow path place.up rest
    else if Path.stepLimit < step.utf8ByteSize then .error (.nameTooLong path)
    else
      match place with
      | .around => .error (.notFound path)
      | .inside steps =>
        let next := steps ++ [step]
        match f.file? next with
        | some bytes => if rest.isEmpty then .ok bytes else .error (.notDirectory path)
        | none =>
          if f.isDirectory next then f.follow path (.inside next) rest
          else .error (.notFound path)

def lookup (f : Files) : Lookup := fun path =>
  let tidied := Path.tidy path
  if path.toList.contains (Char.ofNat 0) then .error .nullCharacter
  else if Path.limit < tidied.utf8ByteSize then .error (.nameTooLong tidied)
  else f.follow tidied (if path.startsWith "/" then .around else .inside []) (Path.steps path)

end Files

end DefiniteAssignment
