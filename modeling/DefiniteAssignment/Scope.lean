import DefiniteAssignment.Contract.Map
import DefiniteAssignment.Problem
import DefiniteAssignment.Program.Basic

/-! Scopes and the state of an analysis. A scope is named by its place in the
arena, and a scope made inside another lists the scopes around it, nearest
first; so everything visible from a scope is found along that list. -/
namespace DefiniteAssignment

structure Scope where
  name : String
  body : List Stmt
  enclosing : List Nat := []
  contracts : Table Contract := {}
  functions : Table Nat := {}
  entered : Bool := false
  recursive : Bool := false
  /-- Scopes that every completed run of the body passes through. -/
  always : List Nat := []
deriving Inhabited

namespace Scope

def rootName : String := "<program>"

def parent? (s : Scope) : Option Nat := s.enclosing.head?

end Scope

structure Analysis where
  scopes : Array Scope := #[]
  problems : Sink := {}
  count : Nat := 0
deriving Inhabited

namespace Analysis

def scope (a : Analysis) (i : Nat) : Scope := a.scopes[i]?.getD default

def update (a : Analysis) (i : Nat) (f : Scope → Scope) : Analysis :=
  { a with scopes := a.scopes.modify i f }

@[simp] theorem size_update (a : Analysis) (i : Nat) (f : Scope → Scope) :
    (a.update i f).scopes.size = a.scopes.size := by
  simp [update]

theorem scope_update_self (a : Analysis) (f : Scope → Scope) {i : Nat}
    (h : i < a.scopes.size) : (a.update i f).scope i = f (a.scope i) := by
  simp [scope, update, Array.getElem_modify, h]

theorem scope_update_of_ne (a : Analysis) (f : Scope → Scope) {i j : Nat} (h : j ≠ i) :
    (a.update i f).scope j = a.scope j := by
  simp [scope, update, Array.getElem?_modify, Ne.symm h]

def report (a : Analysis) (code : Code) (x : String) : Analysis :=
  { a with problems := a.problems.insert ⟨code, x⟩ }

def contracts (a : Analysis) (i : Nat) : ContractMap :=
  ⟨(a.scope i).contracts, (a.scope i).enclosing.map fun j => (a.scope j).contracts⟩

def setContract (a : Analysis) (i : Nat) (x : String) (c : Contract) : Analysis :=
  a.update i fun s => { s with contracts := s.contracts.insert x c }

/-- The function a name stands for in a scope: its own declaration if there is
one, else the nearest around it. -/
def lookup (a : Analysis) (i : Nat) (f : String) : Option Nat :=
  (i :: (a.scope i).enclosing).findSome? fun j => (a.scope j).functions.get? f

def isFunction (a : Analysis) (i : Nat) (x : String) : Bool := (a.lookup i x).isSome

/-- A function of this name would clash with a visible function or with a
variable declared around the scope. -/
def isTaken (a : Analysis) (i : Nat) (f : String) : Bool :=
  a.isFunction i f || (a.contracts i).declaredAround f

def setFunction (a : Analysis) (i : Nat) (f : String) (j : Nat) : Analysis :=
  a.update i fun s => { s with functions := s.functions.insert f j }

def addRoot (a : Analysis) (body : List Stmt) : Analysis :=
  { a with scopes := a.scopes.push { name := Scope.rootName, body } }

def addFunction (a : Analysis) (i : Nat) (f : String) (body : List Stmt) : Analysis :=
  let enclosing := i :: (a.scope i).enclosing
  { a with scopes := a.scopes.push { name := f, body, enclosing } }

end Analysis

end DefiniteAssignment
