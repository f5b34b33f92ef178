import DefiniteAssignment.Analysis.Walk

/-! What a walk does, told step by step. The notes are read off the machine and
change nothing about it. -/
namespace DefiniteAssignment

inductive Note where
  | entering (scope : Nat) (name : String)
  /-- A scope is found to call itself without condition, through `callee`. -/
  | recursing (scope : Nat) (name callee : String)
  | skipping (scope : Nat) (name : String)
deriving DecidableEq, Repr

def Note.text : Note → String
  | entering scope name => s!"Analyzing scope #{scope} {name}"
  | recursing scope name callee =>
    s!"Scope #{scope} {name} recurses unconditionally via {callee}"
  | skipping scope name => s!"Scope #{scope} {name} never returns; skipping the rest of its body"

namespace Frame

def callee? (f : Frame) (a : Analysis) : Option Nat :=
  match f.pending, f.rest with
  | some (callee, _), _ => some callee
  | none, .call name _ :: _ => a.lookup f.scope name
  | none, _ => none

end Frame

structure Glance where
  scope : Nat
  name : String
  callee : Option String
  recursive : Bool
  isDone : Bool
  depth : Nat

namespace Glance

def at? (m : Machine) : Option Glance :=
  m.stack.head?.map fun f =>
    { scope := f.scope
      name := (m.analysis.scope f.scope).name
      callee := (f.callee? m.analysis).map fun j => (m.analysis.scope j).name
      recursive := m.analysis.isRecursive f.scope
      isDone := f.pending.isNone && f.rest.isEmpty
      depth := m.stack.length }

def notes (g : Glance) (m : Machine) : List Note :=
  let flagged :=
    if m.analysis.isRecursive g.scope && !g.recursive then
      g.callee.toList.map (Note.recursing g.scope g.name)
    else []
  let skipped :=
    if m.stack.length < g.depth && !g.isDone && m.failure.isNone then
      [Note.skipping g.scope g.name]
    else []
  let entered :=
    if g.depth < m.stack.length then
      m.stack.head?.toList.map fun f => Note.entering f.scope (m.analysis.scope f.scope).name
    else []
  flagged ++ skipped ++ entered

end Glance

namespace Machine

def trace (m : Machine) : List Note :=
  if m.stack = [] then []
  else
    let glance := Glance.at? m
    let next := m.step
    (glance.toList.flatMap fun g => g.notes next) ++ next.trace
termination_by m.work
decreasing_by exact work_step_lt m ‹_›

end Machine

def Analysis.trace (a : Analysis) (body : List Stmt) : List Note :=
  let root := a.scopes.size
  .entering root Scope.rootName :: ((a.addRoot body).start root).trace

end DefiniteAssignment
