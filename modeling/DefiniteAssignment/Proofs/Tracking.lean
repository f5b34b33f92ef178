import DefiniteAssignment.Proofs.Exposure

/-! Runs of a program that exposes a variable nowhere. Every activation stands at a passable
place of its body, and the variable has a value wherever the statements before that place
supply it, or the body comes to a read of it; so no such read is without a value. This
holds as far down the stack as runs can still return. -/
namespace DefiniteAssignment

open Execution

namespace Program

def Covers (p : Program) (x : String) : Prop := ∀ chain done s, ¬ p.Exposure x chain done s

/-- An activation on top of `below` has come behind the statements `done` of its body, and `x`
has a value where the text promises or needs one. -/
structure Follows (p : Program) (x : String) (act : Activation) (below : List Activation)
    (done : List Stmt) : Prop where
  visits : p.Visits act.bodies
  place : done ++ act.rest = act.bodies.headD []
  passable : Passable act.bodies done
  declared : act.vars.contains x ↔ .declare x ∈ done
  supplied : Supplied x act.bodies done → Ready x (act :: below)
  needs : Needs x act.bodies → Ready x below

def Sticks (chain : List (List Stmt)) (rest : List Stmt) : Prop :=
  ∃ g chain', .call g false ∈ rest ∧ resolve g chain = some chain' ∧ Hangs chain'

def Delivers (x : String) (chain : List (List Stmt)) (done rest : List Stmt) : Prop :=
  .declare x ∉ done ∧ SuppliesCaller x chain rest

/-- Every activation follows its text, down to the first that hangs. Below one that will assign
`x` the text is ahead of the run by that assignment. -/
inductive Tracked (p : Program) (x : String) : List Activation → Prop
  | nil : Tracked p x []
  | returns {act : Activation} {below : List Activation} {done : List Stmt} :
      p.Follows x act below done → Tracked p x below → Tracked p x (act :: below)
  | hangs {act : Activation} {below : List Activation} {done : List Stmt} :
      p.Follows x act below done → Sticks act.bodies act.rest → Tracked p x (act :: below)
  | delivers {act : Activation} {below : List Activation} {done : List Stmt} :
      p.Follows x act below done → Delivers x act.bodies done act.rest →
      Tracked p x (assign x below) → Tracked p x (act :: below)

def Awaits (p : Program) (x : String) (chain : List (List Stmt)) (done rest : List Stmt)
    (below : List Activation) : Prop :=
  p.Tracked x below ∨ Sticks chain rest ∨
    Delivers x chain done rest ∧ p.Tracked x (assign x below)

section

variable {p : Program} {x : String} {act : Activation} {below : List Activation}
  {chain : List (List Stmt)} {done rest : List Stmt} {s : Stmt} {y : String}

theorem Tracked.cons (hf : p.Follows x act below done)
    (h : p.Awaits x act.bodies done act.rest below) : p.Tracked x (act :: below) := by
  rcases h with hbelow | hsticks | ⟨hdelivers, hbelow⟩
  · exact .returns hf hbelow
  · exact .hangs hf hsticks
  · exact .delivers hf hdelivers hbelow

theorem Tracked.cases (h : p.Tracked x (act :: below)) :
    ∃ done, p.Follows x act below done ∧ p.Awaits x act.bodies done act.rest below := by
  cases h with
  | returns hf hbelow => exact ⟨_, hf, .inl hbelow⟩
  | hangs hf hsticks => exact ⟨_, hf, .inr (.inl hsticks)⟩
  | delivers hf hdelivers hbelow => exact ⟨_, hf, .inr (.inr ⟨hdelivers, hbelow⟩)⟩

theorem Follows.assign_here (hf : p.Follows x act below done) (hy : act.vars.contains y) :
    p.Follows x { act with vars := act.vars.insert y true } below done := by
  refine ⟨hf.visits, hf.place, hf.passable, ?_, fun h => ?_, hf.needs⟩
  · rw [← hf.declared, Table.contains, Table.get?_insert]
    split
    · rename_i hxy
      rw [hxy, hy]
      rfl
    · rfl
  · have hready := (hf.supplied h).assign y
    rw [assign_of_contains hy] at hready
    exact hready

theorem Follows.assign_below (hf : p.Follows x act below done) (hy : act.vars.get? y = none) :
    p.Follows x act (assign y below) done := by
  refine ⟨hf.visits, hf.place, hf.passable, hf.declared, fun h => ?_, fun h => (hf.needs h).assign y⟩
  have hready := (hf.supplied h).assign y
  rw [assign_of_get?_eq_none hy] at hready
  exact hready

theorem Tracked.assign_cons (hf : p.Follows x act below done) (y : String)
    (hhere : p.Awaits x act.bodies done act.rest below)
    (hbelow : p.Awaits x act.bodies done act.rest (assign y below)) :
    p.Tracked x (Execution.assign y (act :: below)) := by
  cases hy : act.vars.get? y with
  | some v =>
    have hcontains : act.vars.contains y := by simp [Table.contains, hy]
    rw [assign_of_contains hcontains]
    exact .cons (hf.assign_here hcontains) hhere
  | none =>
    rw [assign_of_get?_eq_none hy]
    exact .cons (hf.assign_below hy) hbelow

theorem Tracked.assign {stack : List Activation} (h : p.Tracked x stack) (y : String) :
    p.Tracked x (Execution.assign y stack) := by
  induction h with
  | nil => exact .nil
  | returns hf hbelow ih => exact .assign_cons hf y (.inl hbelow) (.inl ih)
  | hangs hf hsticks => exact .assign_cons hf y (.inr (.inl hsticks)) (.inr (.inl hsticks))
  | delivers hf hdelivers hbelow ih =>
    -- The assignment that is still to come can be made before this one.
    rw [assign_comm] at ih
    exact .assign_cons hf y (.inr (.inr ⟨hdelivers, hbelow⟩)) (.inr (.inr ⟨hdelivers, ih⟩))

theorem Awaits.assign (h : p.Awaits x chain done rest below) (y : String) :
    p.Awaits x chain done rest (Execution.assign y below) := by
  rcases h with hbelow | hsticks | ⟨hdelivers, hbelow⟩
  · exact .inl (hbelow.assign y)
  · exact .inr (.inl hsticks)
  · rw [Awaits, assign_comm]
    exact .inr (.inr ⟨hdelivers, hbelow.assign y⟩)

/-- What is below an activation that goes on behind `s`, where `s` does not hang. The last
case is that of an `s` that assigns the `x` of the caller. -/
theorem Awaits.tail (h : p.Awaits x chain done (s :: rest) below)
    (hs : ∀ g chain', s = .call g false → resolve g chain = some chain' → ¬ Hangs chain') :
    p.Awaits x chain (done ++ [s]) rest below ∨
      .declare x ∉ done ∧ p.Tracked x (Execution.assign x below) ∧ Supplies x chain s := by
  rcases h with hbelow | ⟨g, chain', hmem, hr, hhangs⟩ |
    ⟨⟨hdone, before, t, between, heq, hbefore, ht⟩, hbelow⟩
  · exact .inl (.inl hbelow)
  · rcases List.mem_cons.1 hmem with rfl | hmem
    · exact absurd hhangs (hs g chain' rfl hr)
    · exact .inl (.inr (.inl ⟨g, chain', hmem, hr, hhangs⟩))
  · cases before with
    | nil =>
      obtain ⟨rfl, _⟩ := List.cons.inj heq
      exact .inr ⟨hdone, hbelow, ht⟩
    | cons s' before =>
      obtain ⟨rfl, hrest⟩ := List.cons.inj heq
      rw [List.mem_cons, not_or] at hbefore
      refine .inl (.inr (.inr ⟨⟨?_, before, t, between, hrest, hbefore.2, ht⟩, hbelow⟩))
      simpa using ⟨hdone, hbefore.1⟩

theorem Follows.concat (hf : p.Follows x act below done) (hrest : act.rest = s :: rest)
    (hs : ∀ g chain', s = .call g false → resolve g act.bodies = some chain' → ¬ Hangs chain')
    {vars : Table Bool} (hvars : vars.contains x ↔ act.vars.contains x ∨ s = .declare x)
    (hsupplied : Supplied x act.bodies (done ++ [s]) → Ready x (⟨act.bodies, rest, vars⟩ :: below)) :
    p.Follows x ⟨act.bodies, rest, vars⟩ below (done ++ [s]) where
  visits := hf.visits
  place := by
    rw [List.append_assoc, List.singleton_append, ← hrest]
    exact hf.place
  passable := passable_concat.2 ⟨hf.passable, hs⟩
  declared := by
    rw [hvars, hf.declared, List.mem_append, List.mem_singleton, eq_comm (a := s)]
  supplied := hsupplied
  needs := hf.needs

end

end Program

end DefiniteAssignment
