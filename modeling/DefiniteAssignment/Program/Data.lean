import DefiniteAssignment.Json.Printer
import DefiniteAssignment.Json.Reader
import DefiniteAssignment.Program.Basic

/-! Programs as data. A statement is an object that names its kind; a program is
an object with a body, or a bare list of statements. Other members are ignored. -/
namespace DefiniteAssignment

inductive LoadError where
  /-- Neither a list nor an object of the kind of programs; `found` is the kind. -/
  | notProgram (found : Json)
  | notStatement (kind : String)
  | notList (kind : String)
  | unknownKind (found : Json)
  /-- The kind is itself a list or an object, which no kind is ever looked up by. -/
  | unusableKind (kind : String)
  | badName (kind : String) (found : Json)
  | badConditional (found : Json)

namespace LoadError

def message : LoadError → String
  | notProgram found => "Expected 'Program', got " ++ found.literal
  | notStatement kind => "Expected a statement object, got " ++ kind
  | notList kind => "Expected a list of statements, got " ++ kind
  | unknownKind found => "Unknown statement type " ++ found.literal
  | unusableKind kind => "unhashable type: '" ++ kind ++ "'"
  | badName kind found =>
    kind ++ " node needs a non-empty string 'name', got " ++ found.literal
  | badConditional found => "'conditional' must be a boolean, got " ++ found.literal

/-- The error says that the data is malformed. The one exception is a kind that
cannot be looked up: it breaks the loading instead of being refused by it. -/
def isMalformed : LoadError → Bool
  | unusableKind _ => false
  | notProgram _ | notStatement _ | notList _ | unknownKind _ | badName _ _
  | badConditional _ => true

end LoadError

namespace Stmt

inductive Kind where
  | declare
  | assign
  | print
  | function
  | call
deriving DecidableEq, Repr

namespace Kind

def text : Kind → String
  | declare => "VariableDeclaration"
  | assign => "AssignVariable"
  | print => "PrintVariable"
  | function => "FunctionDeclaration"
  | call => "Invocation"

def ofText? (text : String) : Option Kind :=
  [declare, assign, print, function, call].find? fun k => k.text = text

end Kind

def loadKind (members : List (String × Json)) : Except LoadError Kind :=
  match (Json.find "type" members).getD .null with
  | .str text =>
    match Kind.ofText? text with
    | some k => .ok k
    | none => .error (.unknownKind (.str text))
  | .arr items => .error (.unusableKind (Json.arr items).kind)
  | .obj inner => .error (.unusableKind (Json.obj inner).kind)
  | found => .error (.unknownKind found)

def loadName (kind : Kind) (members : List (String × Json)) : Except LoadError String :=
  match (Json.find "name" members).getD .null with
  | .str name => if name = "" then .error (.badName kind.text (.str name)) else .ok name
  | found => .error (.badName kind.text found)

def loadConditional (members : List (String × Json)) : Except LoadError Bool :=
  match (Json.find "conditional" members).getD (.bool false) with
  | .bool b => .ok b
  | found => .error (.badConditional found)

mutual

def ofJson : Json → Except LoadError Stmt
  | .obj members => do
    let kind ← loadKind members
    let name ← loadName kind members
    match kind with
    | .declare => return declare name
    | .assign => return assign name
    | .print => return print name
    | .function => return function name (← bodyMember members)
    | .call => return call name (← loadConditional members)
  | .null => .error (.notStatement Json.null.kind)
  | .bool b => .error (.notStatement (Json.bool b).kind)
  | .int n => .error (.notStatement (Json.int n).kind)
  | .real x => .error (.notStatement (Json.real x).kind)
  | .str s => .error (.notStatement (Json.str s).kind)
  | .arr items => .error (.notStatement (Json.arr items).kind)

def bodyMember : List (String × Json) → Except LoadError (List Stmt)
  | [] => .ok []
  | (key, v) :: rest => if key = "body" then body v else bodyMember rest

def body : Json → Except LoadError (List Stmt)
  | .arr items => listOfJson items
  | .null => .error (.notList Json.null.kind)
  | .bool b => .error (.notList (Json.bool b).kind)
  | .int n => .error (.notList (Json.int n).kind)
  | .real x => .error (.notList (Json.real x).kind)
  | .str s => .error (.notList (Json.str s).kind)
  | .obj members => .error (.notList (Json.obj members).kind)

def listOfJson : List Json → Except LoadError (List Stmt)
  | [] => .ok []
  | v :: rest => do
    let s ← ofJson v
    let rest ← listOfJson rest
    return s :: rest

end

mutual

/-- The data of a statement, or the first statement in it that has none. -/
def toJson : Stmt → Except Stmt Json
  | declare x => .ok (.obj [("type", .str "VariableDeclaration"), ("name", .str x)])
  | assign x => .ok (.obj [("type", .str "AssignVariable"), ("name", .str x)])
  | print x => .ok (.obj [("type", .str "PrintVariable"), ("name", .str x)])
  | function f body => do
    let items ← listToJson body
    return .obj [("type", .str "FunctionDeclaration"), ("name", .str f), ("body", .arr items)]
  | call f conditional =>
    .ok (.obj [("type", .str "Invocation"), ("name", .str f), ("conditional", .bool conditional)])
  | bare => .error bare
  | block body => .error (block body)

def listToJson : List Stmt → Except Stmt (List Json)
  | [] => .ok []
  | s :: rest => do
    let v ← toJson s
    let rest ← listToJson rest
    return v :: rest

end

end Stmt

namespace Program

def ofJson : Json → Except LoadError Program
  | .arr items => Program.mk <$> Stmt.listOfJson items
  | .obj members =>
    match (Json.find "type" members).getD .null with
    | .str "Program" => Program.mk <$> Stmt.bodyMember members
    | found => .error (.notProgram found)
  | v => .error (.notProgram (.str v.kind))

def toJson (p : Program) : Except Stmt Json := do
  return .obj [("type", .str "Program"), ("body", .arr (← Stmt.listToJson p.body))]

def render (p : Program) (l : Json.Layout) : Except Stmt String := do
  return (← p.toJson).render l

end Program

inductive ReadError where
  | json (text : String) (fault : Json.Fault)
  | load (error : LoadError)

namespace ReadError

def message : ReadError → String
  | json text fault => fault.message text.toList
  | load error => error.message

def isMalformed : ReadError → Bool
  | json _ _ => true
  | load error => error.isMalformed

end ReadError

def Json.parse (text : String) : Except ReadError Json :=
  match Json.read text.toList with
  | .ok v => .ok v
  | .error fault => .error (.json text fault)

def Program.parse (text : String) : Except ReadError Program := do
  let v ← Json.parse text
  match Program.ofJson v with
  | .ok p => .ok p
  | .error error => .error (.load error)

theorem Program.toOption_parse_eq_some_iff {text : String} {p : Program} :
    (Program.parse text).toOption = some p ↔ Program.parse text = .ok p := by
  cases Program.parse text <;> simp [Except.toOption]

instance (text : String) (p : Program) : Decidable (Program.parse text = .ok p) :=
  decidable_of_iff _ Program.toOption_parse_eq_some_iff

end DefiniteAssignment
