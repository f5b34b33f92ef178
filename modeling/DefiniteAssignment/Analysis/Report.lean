import DefiniteAssignment.Analysis.Check
import DefiniteAssignment.Json.Basic
import DefiniteAssignment.Program.Printer

/-! What an analysis shows to its users: messages of failures, problems as data,
and the state of scopes in one line. -/
namespace DefiniteAssignment

def Failure.message : Failure → String
  | unknownStatement s scope =>
    "Unknown statement of type '" ++ s.kind ++ "' in " ++ scope ++ ": " ++ s.literal
  | unknownContract mark x none =>
    "Unknown contract " ++ Text.quoted mark ++ " for '" ++ x ++ "'"
  | unknownContract mark x (some callee) =>
    "Unknown contract " ++ Text.quoted mark ++ " for '" ++ x ++ "' inside '" ++ callee ++ "'"
  | noSuchScope => "list index out of range"

namespace Problem

def toJson (p : Problem) : Json :=
  .obj [("code", .str p.code.text), ("symbol", .str p.symbol), ("message", .str p.message)]

def literal (p : Problem) : String :=
  "Problem(code=" ++ Text.quoted p.code.text ++ ", symbol=" ++ Text.quoted p.symbol ++ ")"

end Problem

def Sink.literal (s : Sink) : String :=
  "ProblemSink([" ++ ", ".intercalate (s.toList.map Problem.literal) ++ "])"

def Scope.literal (s : Scope) (index : Nat) : String :=
  let flag (b : Bool) : String := if b then "True" else "False"
  s!"FunctionContext(#{index} {Text.quoted s.name}, analyzed={flag s.entered}, " ++
    s!"recursive={flag s.recursive}, {s.contracts.contractText})"

namespace Scope

def alwaysSorted (s : Scope) : List Nat := s.always.mergeSort

end Scope

end DefiniteAssignment
