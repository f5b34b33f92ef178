import DefiniteAssignment.Analysis.Walk

/-! Checking a program: its outermost scope is walked at once, function bodies
when they are first called. An obligation left at the outermost scope has
nobody left to meet it. -/
namespace DefiniteAssignment

namespace Analysis

def sweep (a : Analysis) : List (String × Contract) → Analysis × Option Failure
  | [] => (a, none)
  | (x, c) :: rest =>
    if c.isObligation then (a.report .notDeclared x).sweep rest
    else if c.isDeclared then a.sweep rest
    else (a, some (.unknownContract c.text x none))

def bind (a : Analysis) (i : Nat) (bindings : List (String × Contract)) : Analysis :=
  bindings.foldl (fun a (x, c) => a.setContract i x c) a

/-- Checks a list of statements in a new outermost scope, whose contracts start
as `bindings`. Scopes and problems of earlier checks stay. -/
def checkFrom (a : Analysis) (bindings : List (String × Contract)) (body : List Stmt) :
    Analysis × Option Failure :=
  let root := a.scopes.size
  match ((a.addRoot body).bind root bindings).walk root with
  | (a, some failure) => (a, some failure)
  | (a, none) => a.sweep (a.scope root).contracts.entries

def check (a : Analysis) (body : List Stmt) : Analysis × Option Failure := a.checkFrom [] body

end Analysis

def Program.problems (p : Program) : Except Failure (List Problem) :=
  match ({} : Analysis).check p.body with
  | (_, some failure) => .error failure
  | (a, none) => .ok a.problems.toList

end DefiniteAssignment
