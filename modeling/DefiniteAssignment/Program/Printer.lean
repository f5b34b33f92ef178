import DefiniteAssignment.Program.Basic
import DefiniteAssignment.Text.Literal

/-! Programs for a reader: as pseudo-source, one statement a line and two spaces
a level, and as the value that messages quote. -/
namespace DefiniteAssignment

namespace Stmt

mutual

def literal : Stmt → String
  | declare x => "VariableDeclaration(name=" ++ Text.quoted x ++ ")"
  | assign x => "AssignVariable(name=" ++ Text.quoted x ++ ")"
  | print x => "PrintVariable(name=" ++ Text.quoted x ++ ")"
  | function f body =>
    "FunctionDeclaration(name=" ++ Text.quoted f ++ ", body=[" ++
      ", ".intercalate (literals body) ++ "])"
  | call f conditional =>
    "Invocation(name=" ++ Text.quoted f ++ ", is_conditional=" ++
      (if conditional then "True" else "False") ++ ")"
  | bare => "Stmt()"
  | block body => "Program(body=[" ++ ", ".intercalate (literals body) ++ "])"

def literals : List Stmt → List String
  | [] => []
  | s :: rest => literal s :: literals rest

end

def margin (level : Int) : String := String.ofList (List.replicate (2 * level.toNat) ' ')

mutual

def lines (level : Int) : Stmt → List String
  | declare x => [margin level ++ "var " ++ x ++ ";"]
  | assign x => [margin level ++ x ++ " = smth;"]
  | print x => [margin level ++ "print(" ++ x ++ ");"]
  | call f true => [margin level ++ "if (smth) " ++ f ++ "();"]
  | call f false => [margin level ++ f ++ "();"]
  | function f body =>
    (margin level ++ "func " ++ f ++ " \x7b") :: bodyLines (level + 1) body ++
      [margin level ++ "\x7d"]
  | bare => [margin level ++ literal bare]
  | block body => [margin level ++ literal (block body)]

def bodyLines (level : Int) : List Stmt → List String
  | [] => []
  | s :: rest => lines level s ++ bodyLines level rest

end

def text (level : Int) (s : Stmt) : String := "\n".intercalate (s.lines level)

end Stmt

namespace Program

def literal (p : Program) : String := (Stmt.block p.body).literal

def text (p : Program) : String := "\n".intercalate (Stmt.bodyLines 0 p.body)

end Program

end DefiniteAssignment
