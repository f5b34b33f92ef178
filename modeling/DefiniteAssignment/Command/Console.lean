import DefiniteAssignment.Analysis.Report
import DefiniteAssignment.Analysis.Trace
import DefiniteAssignment.Files
import DefiniteAssignment.Program.Data
import DefiniteAssignment.Text.Lines
import DefiniteAssignment.Text.Utf8

/-! What commands write and how they end, and the reading of their input. -/
namespace DefiniteAssignment.Command

inductive ExpectError where
  | notObject (kind : String)
  | notIterable (kind : String)
  | notPair (kind : String)
  | tooFew (found : Nat)
  | tooMany
deriving DecidableEq, Repr

namespace ExpectError

def message : ExpectError → String
  | notObject kind => "'" ++ kind ++ "' object has no attribute 'get'"
  | notIterable kind => "'" ++ kind ++ "' object is not iterable"
  | notPair kind => "cannot unpack non-iterable " ++ kind ++ " object"
  | tooFew found => s!"not enough values to unpack (expected 2, got {found})"
  | tooMany => "too many values to unpack (expected 2)"

def isMalformed : ExpectError → Bool
  | tooFew _ | tooMany => true
  | notObject _ | notIterable _ | notPair _ => false

end ExpectError

inductive Error where
  | file (error : FileError)
  | bytes (fault : Text.Utf8.Fault)
  | read (error : ReadError)
  | expect (error : ExpectError)
  | analysis (failure : Failure)

namespace Error

def message : Error → String
  | file error => error.message
  | bytes fault => fault.message
  | read error => error.message
  | expect error => error.message
  | analysis failure => failure.message

/-- The error says that the input is malformed, which commands report. Others
end the command. -/
def isMalformed : Error → Bool
  | file .nullCharacter | bytes _ => true
  | file (.notFound _) | file (.isDirectory _) | file (.notDirectory _)
  | file (.nameTooLong _) | analysis _ => false
  | read error => error.isMalformed
  | expect error => error.isMalformed

def isFile : Error → Bool
  | file _ => true
  | bytes _ | read _ | expect _ | analysis _ => false

end Error

inductive Stop where
  | exit (code : Nat)
  | error (e : Error)

structure Console (α : Type) where
  out : String := ""
  err : String := ""
  result : Except Stop α

namespace Console

variable {α β : Type}

def done (out : String) (result : α) : Console α := { out, result := .ok result }

def after (out err : String) (c : Console α) : Console α :=
  { c with out := out ++ c.out, err := err ++ c.err }

def fail (out : String) (e : Error) : Console α := { out, result := .error (.error e) }

def andThen (c : Console α) (next : α → Console β) : Console β :=
  match c.result with
  | .error stop => ⟨c.out, c.err, .error stop⟩
  | .ok a => (next a).after c.out c.err

def line (text : String) : String := text ++ "\n"

def paragraph (texts : List String) : String := String.join (texts.map line)

end Console

def readText (lookup : Lookup) (path : String) : Except Error String :=
  match lookup path with
  | .error e => .error (.file e)
  | .ok bytes =>
    match Text.Utf8.decode bytes with
    | .error fault => .error (.bytes fault)
    | .ok cs => .ok (String.ofList (Text.unifyNewlines cs))

def parse (text : String) : Except Error Program := (Program.parse text).mapError .read

def readProgram (lookup : Lookup) (path : String) : Except Error Program := do
  parse (← readText lookup path)

def channel : Note → String
  | .entering _ _ | .skipping _ _ => "analysis.stmt_analysis"
  | .recursing _ _ _ => "analysis.func_analysis"

def debugLog (verbose : Bool) (p : Program) : String :=
  if verbose then
    Console.paragraph ((({} : Analysis).trace p.body).map fun note =>
      s!"DEBUG {channel note}: {note.text}")
  else ""

end DefiniteAssignment.Command
