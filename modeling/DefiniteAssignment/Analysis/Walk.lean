import DefiniteAssignment.Analysis.Work

/-! Walks to the end: of a machine, and of a scope with all that its calls lead
to. -/
namespace DefiniteAssignment

namespace Machine

def run (m : Machine) : Machine :=
  if m.stack = [] then m else m.step.run
termination_by m.work
decreasing_by exact work_step_lt m ‹_›

end Machine

namespace Analysis

def start (a : Analysis) (i : Nat) : Machine := ⟨a.enter i, [.start a i], none⟩

def walk (a : Analysis) (i : Nat) : Analysis × Option Failure :=
  if (a.scope i).entered then (a, none) else
  let m := (a.start i).run
  (m.analysis, m.failure)

end Analysis

end DefiniteAssignment
