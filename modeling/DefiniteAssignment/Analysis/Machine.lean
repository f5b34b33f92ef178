import DefiniteAssignment.Analysis.Statement

/-! The machine that walks bodies. A call of a scope not entered yet suspends
its body on a stack until the called body is done, so call chains may be of any
length. -/
namespace DefiniteAssignment

/-- A body being walked: its scope, the statements left, and the call that waits
for its callee, if one does. -/
structure Frame where
  scope : Nat
  rest : List Stmt
  pending : Option (Nat × Bool) := none
deriving Inhabited

structure Machine where
  analysis : Analysis
  stack : List Frame
  failure : Option Failure := none
deriving Inhabited

namespace Frame

def start (a : Analysis) (i : Nat) : Frame := ⟨i, (a.scope i).body, none⟩

def advance (f : Frame) (a : Analysis) : Analysis × Frame × Signal :=
  match f.pending with
  | some (callee, conditional) =>
    let (a, signal) := a.complete f.scope callee conditional
    (a, { f with pending := none }, signal)
  | none =>
    match f.rest with
    | [] => (a, f, .finish)
    | s :: rest =>
      let (a, signal) := a.dispatch f.scope s
      (a, { f with rest }, signal)

end Frame

namespace Machine

def follow (a : Analysis) (f : Frame) (below : List Frame) : Signal → Machine
  | .proceed => ⟨a, f :: below, none⟩
  | .suspend callee conditional =>
    let called := Frame.start a callee
    ⟨a.enter callee, called :: { f with pending := some (callee, conditional) } :: below, none⟩
  | .finish | .unreachable => ⟨a, below, none⟩
  | .fail failure => ⟨a, [], some failure⟩

def step (m : Machine) : Machine :=
  match m.stack with
  | [] => m
  | f :: below =>
    let (a, f, signal) := f.advance m.analysis
    follow a f below signal

end Machine

end DefiniteAssignment
