import DefiniteAssignment.Scope

/-! Uses of a name by a scope. What a use does to the scope's contract depends
on its view of that one name and on nothing else. A name that stands for a
visible function is declared and has a value, so no use of it leaves a trace. -/
namespace DefiniteAssignment

structure View where
  isFunction : Bool
  own : Option Contract
  boundAround : Bool
deriving DecidableEq, Repr

inductive Use where
  | declared
  /-- The name has to be declared, and has a value from here on. -/
  | assigned
  | read
deriving DecidableEq, Repr

namespace View

def resolve (v : View) : Option Contract :=
  match v.own with
  | some c => some c
  | none => if v.boundAround then some .outer else none

def after (v : View) (u : Use) : Option Contract :=
  if v.isFunction then none else
  match u with
  | .declared => if v.resolve = none then some .outer else none
  | .assigned =>
    match v.own with
    | none | some .external | some .outer => some .outerAssigned
    | some .inner => some .innerAssigned
    | some .outerAssigned | some .innerAssigned | some (.alien _) => none
  | .read =>
    match v.resolve with
    | none | some .outer => some .external
    | some .external | some .outerAssigned | some .inner | some .innerAssigned
    | some (.alien _) => none

def readsUnassigned (v : View) (u : Use) : Bool :=
  !v.isFunction && u = .read && v.own = some .inner

end View

namespace Analysis

def view (a : Analysis) (i : Nat) (x : String) : View where
  isFunction := a.isFunction i x
  own := (a.contracts i).get? x
  boundAround := (a.contracts i).boundAround x

def use (a : Analysis) (i : Nat) (u : Use) (x : String) : Analysis :=
  let v := a.view i x
  let a := if v.readsUnassigned u then a.report .notAssigned x else a
  match v.after u with
  | some c => a.setContract i x c
  | none => a

/-- A declaration in the body of a scope. Used before, the name was taken for
one from outside; declared before, here or around, it exists already. Either
way the scope owns it from here on. -/
def declareVariable (a : Analysis) (i : Nat) (x : String) : Analysis :=
  let v := a.view i x
  if v.isFunction then a.report .alreadyDeclared x else
  let a :=
    match v.own with
    | some c => a.report (if c.isObligation then .usedBeforeDeclared else .alreadyDeclared) x
    | none => if (a.contracts i).declaredAround x then a.report .alreadyDeclared x else a
  a.setContract i x .inner

end Analysis

end DefiniteAssignment
