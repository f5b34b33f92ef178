import DefiniteAssignment.Program.Basic

/-! Generated programs for timing: many functions that read one variable, each
called right after its declaration. -/
namespace DefiniteAssignment.Program

def reader (i : Nat) : List Stmt :=
  [.function s!"Bar{i}" [.print "foo"], .call s!"Bar{i}" false]

def benchmark (n : Nat) : Program :=
  ⟨.declare "foo" :: .assign "foo" :: (List.range n).flatMap reader⟩

end DefiniteAssignment.Program
