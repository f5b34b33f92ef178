import DefiniteAssignment.Analysis.Report
import DefiniteAssignment.Json.Printer
import DefiniteAssignment.Text.Blank
import DefiniteAssignment.Text.Lines

/-! Diagnostics for an editor. A problem is shown at the first place of the
document where its symbol is written as the name of an entry. -/
namespace DefiniteAssignment.Editor

structure Position where
  line : Nat := 0
  character : Nat := 0
deriving DecidableEq, Repr

structure Range where
  start : Position := {}
  stop : Position := {}
deriving DecidableEq, Repr

def after? : (lead cs : List Char) → Option (List Char)
  | [], cs => some cs
  | _ :: _, [] => none
  | a :: lead, c :: cs => if a = c then after? lead cs else none

/-- Whether a name entry for the quoted symbol starts here, and how far from here
the symbol is. -/
def entryOffset? (quoted cs : List Char) : Option Nat := do
  let rest ← after? ['"', 'n', 'a', 'm', 'e', '"'] cs
  let rest ← after? [':'] (rest.dropWhile Text.isBlank)
  let rest := rest.dropWhile Text.isBlank
  let _ ← after? quoted rest
  return cs.length - rest.length

def columnIn? (quoted : List Char) (column : Nat) : List Char → Option Nat
  | [] => none
  | c :: rest =>
    match entryOffset? quoted (c :: rest) with
    | some offset => some (column + offset)
    | none => columnIn? quoted (column + 1) rest

def findIn? (quoted : List Char) (line : Nat) : List (List Char) → Option Range
  | [] => none
  | cs :: more =>
    match columnIn? quoted 0 cs with
    | some column => some ⟨⟨line, column⟩, ⟨line, column + quoted.length⟩⟩
    | none => findIn? quoted (line + 1) more

/-- The range of a symbol in a document; the start of the document if it has no
entry for the symbol. -/
def symbolRange (symbol text : String) : Range :=
  (findIn? (Json.stringChars symbol) 0 (Text.lines text.toList)).getD {}

structure Diagnostic where
  range : Range := {}
  code : Option Code := none
  message : String
deriving DecidableEq, Repr

namespace Diagnostic

def severity : Nat := 1

def origin : String := "defassign"

def ofProblem (text : String) (p : Problem) : Diagnostic where
  range := symbolRange p.symbol text
  code := some p.code
  message :=
    p.message ++ ": " ++ (if p.code.isAboutFunction then "function" else "variable") ++
      " '" ++ p.symbol ++ "'"

def ofMessage (message : String) : Diagnostic := { message }

end Diagnostic

end DefiniteAssignment.Editor
