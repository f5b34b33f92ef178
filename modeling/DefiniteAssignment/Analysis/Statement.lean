import DefiniteAssignment.Analysis.Invocation

/-! Entering a scope and dispatching the statements of its body. The functions
a body declares are registered on entry, so a call may stand before the
declaration it refers to. -/
namespace DefiniteAssignment

def Stmt.function? : Stmt → Option (String × List Stmt)
  | function f body => some (f, body)
  | declare _ | assign _ | print _ | call _ _ | bare | block _ => none

namespace Analysis

def registerOne (a : Analysis) (i : Nat) (f : String) (body : List Stmt) : Analysis :=
  if a.isTaken i f then a.report .alreadyDeclared f
  else
    let place := a.scopes.size
    (a.addFunction i f body).setFunction i f place

/-- Of two declarations of one name the earlier wins. -/
def register (a : Analysis) (i : Nat) (functions : List (String × List Stmt)) : Analysis :=
  functions.foldl (fun a (f, body) => a.registerOne i f body) a

/-- A scope counts as entered before its body is walked, so that a recursive
call does not enter it again. -/
def enter (a : Analysis) (i : Nat) : Analysis :=
  let body := (a.scope i).body
  let a := a.update i fun s => { s with entered := true }
  { a with count := a.count + 1 }.register i (body.filterMap Stmt.function?)

def dispatch (a : Analysis) (i : Nat) : Stmt → Analysis × Signal
  | .declare x => (a.declareVariable i x, .proceed)
  | .assign x =>
    (if a.isFunction i x then a.report .assignToFunction x else a.use i .assigned x, .proceed)
  | .print x => (a.use i .read x, .proceed)
  | .function _ _ => (a, .proceed)
  | .call f conditional =>
    match a.resolveCall i f with
    | (a, none) => (a, .proceed)
    | (a, some j) =>
      if (a.scope j).entered then a.complete i j conditional else (a, .suspend j conditional)
  | .bare => (a, .fail (.unknownStatement .bare (a.scope i).name))
  | .block body => (a, .fail (.unknownStatement (.block body) (a.scope i).name))

end Analysis

end DefiniteAssignment
