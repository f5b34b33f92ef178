import DefiniteAssignment.Proofs.Arrival

/-! Places in a text where a variable is exposed: a body that runs may come to has declared
it, nothing that always happens has assigned it since, and the next statement comes to a
read of it, there or in a body that it calls. Some run reads the variable without a value
at each such place. -/
namespace DefiniteAssignment

open Relation

namespace Execution

/-- A run may come behind these statements of a body: none is a call that always happens and
never returns. -/
def Passable (chain : List (List Stmt)) (done : List Stmt) : Prop :=
  ∀ g chain', .call g false ∈ done → resolve g chain = some chain' → ¬ Hangs chain'

/-- The statement of a body comes to a read of the nearest `x`. It reads `x` itself, where `x`
is no function; or it calls a body that comes to a read, and before that neither declares
`x` nor supplies it. -/
inductive Asks (x : String) : List (List Stmt) → Stmt → Prop
  | print {chain : List (List Stmt)} : resolve x chain = none → Asks x chain (.print x)
  | call {chain chain' : List (List Stmt)} {g : String} {c : Bool} {done : List Stmt} {s : Stmt} :
      resolve g chain = some chain' → done ++ [s] <+: chain'.headD [] → Passable chain' done →
      .declare x ∉ done → ¬ Supplied x chain' done → Asks x chain' s → Asks x chain (.call g c)

/-- A body comes to a read of the `x` of its caller, while it leaves it without a value. -/
def Needs (x : String) (chain : List (List Stmt)) : Prop := ∃ done s,
  done ++ [s] <+: chain.headD [] ∧ Passable chain done ∧ .declare x ∉ done ∧
    ¬ Supplied x chain done ∧ Asks x chain s

theorem Asks.cases {x : String} {chain : List (List Stmt)} {s : Stmt} (h : Asks x chain s) :
    s = .print x ∨ ∃ g c, s = .call g c := by
  cases h with
  | print _ => exact .inl rfl
  | call _ _ _ _ _ _ => exact .inr ⟨_, _, rfl⟩

theorem passable_concat {chain : List (List Stmt)} {done : List Stmt} {s : Stmt} :
    Passable chain (done ++ [s]) ↔ Passable chain done ∧
      ∀ g chain', s = .call g false → resolve g chain = some chain' → ¬ Hangs chain' := by
  constructor
  · intro h
    refine ⟨fun g chain' hmem => h g chain' (List.mem_append_left _ hmem), ?_⟩
    rintro g chain' rfl
    exact h g chain' (by simp)
  · rintro ⟨hdone, hs⟩ g chain' hmem
    rcases List.mem_append.1 hmem with hmem | hmem
    · exact hdone g chain' hmem
    · exact hs g chain' (List.mem_singleton.1 hmem).symm

end Execution

namespace Program

open Execution

inductive Visits (p : Program) : List (List Stmt) → Prop
  | root : Visits p [p.body]
  | call {chain chain' : List (List Stmt)} {g : String} {c : Bool} {done : List Stmt} :
      Visits p chain → done ++ [.call g c] <+: chain.headD [] → Passable chain done →
      resolve g chain = some chain' → Visits p chain'

/-- Behind the statements `done`, the body has declared `x` and leaves it without a value, and
`s` comes to a read of it. -/
structure Exposure (p : Program) (x : String) (chain : List (List Stmt)) (done : List Stmt)
    (s : Stmt) : Prop where
  visits : p.Visits chain
  place : done ++ [s] <+: chain.headD []
  passable : Passable chain done
  declared : .declare x ∈ done
  unsupplied : ¬ Supplied x chain done
  asks : Asks x chain s

variable {p : Program} {x : String} {chain : List (List Stmt)} {done : List Stmt} {s : Stmt}

theorem Visits.reaches (h : p.Visits chain) : p.Reaches chain := by
  induction h with
  | root => exact .refl
  | @call _ _ g c _ _ hplace _ hr ih => exact .tail ih ⟨g, c, hplace.subset (by simp), hr⟩

theorem Reaches.arrives (hchain : p.Reaches chain) {rest : List Stmt}
    (hbody : done ++ rest = chain.headD []) (hpassable : Passable chain done) (x : String)
    (below : List Activation) : ∃ vars below',
      Comes (⟨chain, chain.headD [], {}⟩ :: below) (⟨chain, rest, vars⟩ :: below') ∧
        Leaves x chain done vars below below' := by
  refine Execution.arrives hbody (fun g chain' hmem hr => ?_) below
  refine Reaches.returns (hchain.tail ⟨g, false, ?_, hr⟩) (hpassable g chain' hmem hr) x
  rw [← hbody]
  exact List.mem_append_left _ hmem

theorem Visits.comes (h : p.Visits chain) :
    ∃ below, Comes p.initial (⟨chain, chain.headD [], {}⟩ :: below) := by
  induction h with
  | root => exact ⟨[], .refl _⟩
  | @call chain chain' g c done hvisits hplace hpassable hr ih =>
    obtain ⟨below, hcomes⟩ := ih
    obtain ⟨rest, hbody⟩ := hplace
    rw [List.append_assoc, List.singleton_append] at hbody
    obtain ⟨vars, below', harrives, _⟩ := hvisits.reaches.arrives hbody hpassable "" below
    exact ⟨_, hcomes.trans (harrives.trans (.step true (step_call c hr rest vars below')))⟩

end Program

end DefiniteAssignment
