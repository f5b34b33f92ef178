import DefiniteAssignment.Analysis.Use

/-! Calls. The contracts of a called scope are met by the caller, name by name;
an unconditional call also extends what the caller always passes through, which
is how bodies that never return are found. -/
namespace DefiniteAssignment

/-- Why an analysis cannot go on. None of these arises from a program written in
the language. -/
inductive Failure where
  | unknownStatement (s : Stmt) (scope : String)
  | unknownContract (mark x : String) (callee : Option String)
  | noSuchScope
deriving DecidableEq

inductive Signal where
  | proceed
  | suspend (callee : Nat) (conditional : Bool)
  | finish
  /-- The body never returns from here; what is left of it is not walked. -/
  | unreachable
  | fail (failure : Failure)
deriving DecidableEq

inductive Demand where
  | nothing
  | use (u : Use)
  | unknown (mark : String)
deriving DecidableEq

def Contract.demand (conditional : Bool) : Contract → Demand
  | external => .use .read
  | outer => .use (if conditional then .declared else .assigned)
  | outerAssigned => .use .declared
  | inner | innerAssigned => .nothing
  | alien mark => .unknown mark

theorem Contract.demand_eq_read_iff {conditional : Bool} {c : Contract} :
    c.demand conditional = .use .read ↔ c = .external := by
  cases c <;> cases conditional <;> simp [demand]

def union (l new : List Nat) : List Nat := l ++ new.filter fun i => !l.contains i

theorem mem_union {l new : List Nat} {i : Nat} : i ∈ union l new ↔ i ∈ l ∨ i ∈ new := by
  by_cases h : i ∈ l <;> simp [union, h]

def Scope.passThrough (s : Scope) (callee : Nat) (reach : List Nat) : Scope :=
  { s with always := union (union s.always [callee]) reach }

namespace Analysis

def propagate (a : Analysis) (caller : Nat) (callee : String) (conditional : Bool) :
    List (String × Contract) → Analysis × Option Failure
  | [] => (a, none)
  | (x, c) :: rest =>
    match c.demand conditional with
    | .nothing => a.propagate caller callee conditional rest
    | .use u => (a.use caller u x).propagate caller callee conditional rest
    | .unknown mark => (a, some (.unknownContract mark x (some callee)))

def flag (a : Analysis) (i : Nat) : Analysis := a.update i fun s => { s with recursive := true }

def isRecursive (a : Analysis) (i : Nat) : Bool := (a.scope i).recursive

/-- An unconditional call. The caller never returns if it has called itself,
directly or through scopes it always passes through, or if it passes through a
scope that never returns. -/
def recordCall (a : Analysis) (caller callee : Nat) : Analysis × Option Failure :=
  let reach := (a.scope callee).always
  let a := a.update caller (·.passThrough callee reach)
  if callee = caller ∨ caller ∈ (a.scope caller).always then (a.flag caller, none)
  else if (callee :: reach).any a.isRecursive then (a.flag caller, none)
  else if (callee :: reach).all (· < a.scopes.size) then (a, none)
  else (a, some .noSuchScope)

def invoke (a : Analysis) (caller callee : Nat) (conditional : Bool) : Analysis × Option Failure :=
  let s := a.scope callee
  match a.propagate caller s.name conditional s.contracts.entries with
  | (a, some failure) => (a, some failure)
  | (a, none) => if conditional then (a, none) else a.recordCall caller callee

def complete (a : Analysis) (caller callee : Nat) (conditional : Bool) : Analysis × Signal :=
  match a.invoke caller callee conditional with
  | (a, some failure) => (a, .fail failure)
  | (a, none) => (a, if a.isRecursive caller then .unreachable else .proceed)

def resolveCall (a : Analysis) (i : Nat) (f : String) : Analysis × Option Nat :=
  match a.lookup i f with
  | some j => (a, some j)
  | none => (a.report .unknownFunction f, none)

end Analysis

end DefiniteAssignment
