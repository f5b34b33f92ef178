import DefiniteAssignment.Analysis.Statement

/-! Runs of a program. Bodies execute in order on a stack of activations. A
function is found where its declaration stands in the text; a variable is found
on the stack, in the nearest activation that has declared it. The only choice
in a run is whether a conditional call happens. -/
namespace DefiniteAssignment

/-- A body in execution. `bodies` is the text it sees functions in: its own
body first, then the bodies around it. -/
structure Activation where
  bodies : List (List Stmt)
  rest : List Stmt
  /-- The variables declared so far; `true` for those with a value. -/
  vars : Table Bool := {}
deriving Inhabited

namespace Execution

/-- The function that a body declares under a name; of two the earlier. -/
def declared? (f : String) (body : List Stmt) : Option (List Stmt) :=
  Table.find f (body.filterMap Stmt.function?)

def resolve (f : String) : List (List Stmt) → Option (List (List Stmt))
  | [] => none
  | body :: around =>
    match declared? f body with
    | some inner => some (inner :: body :: around)
    | none => resolve f around

def valued? (x : String) : List Activation → Option Bool
  | [] => none
  | act :: below =>
    match act.vars.get? x with
    | some valued => some valued
    | none => valued? x below

def assign (x : String) : List Activation → List Activation
  | [] => []
  | act :: below =>
    if act.vars.contains x then { act with vars := act.vars.insert x true } :: below
    else act :: assign x below

/-- One step of a run, where `taken` says whether a conditional call happens. -/
def step (taken : Bool) : List Activation → List Activation
  | [] => []
  | act :: below =>
    match act.rest with
    | [] => below
    | .declare x :: rest => { act with rest, vars := act.vars.insert x false } :: below
    | .assign x :: rest => assign x ({ act with rest } :: below)
    | .call f conditional :: rest =>
      let waiting := { act with rest } :: below
      if conditional && !taken then waiting else
      match resolve f act.bodies with
      | some bodies => ⟨bodies, bodies.headD [], {}⟩ :: waiting
      | none => waiting
    | .print _ :: rest | .function _ _ :: rest | .bare :: rest | .block _ :: rest =>
      { act with rest } :: below

def printsUnassigned (x : String) : List Activation → Bool
  | [] => false
  | act :: below => act.rest.head? = some (.print x) && valued? x (act :: below) = some false

/-- The next step reads a variable without a value, where `x` is no function. -/
def readsUnassigned (x : String) : List Activation → Bool
  | [] => false
  | act :: below => printsUnassigned x (act :: below) && (resolve x act.bodies).isNone

def Ready (x : String) (stack : List Activation) : Prop := valued? x stack ≠ some false

theorem ready_cons_of_get?_eq_none {x : String} {act : Activation} {below : List Activation}
    (h : act.vars.get? x = none) : Ready x (act :: below) ↔ Ready x below := by
  simp [Ready, valued?, h]

theorem ready_assign_self (x : String) (stack : List Activation) : Ready x (assign x stack) := by
  induction stack with
  | nil => simp [Ready, assign, valued?]
  | cons act below ih =>
    simp only [assign]
    split
    · simp [Ready, valued?]
    · rename_i h
      rw [ready_cons_of_get?_eq_none (by simpa [Table.contains] using h)]
      exact ih

theorem valued?_assign_of_ne {x y : String} (hne : x ≠ y) (stack : List Activation) :
    valued? x (assign y stack) = valued? x stack := by
  induction stack with
  | nil => rfl
  | cons act below ih =>
    simp only [assign]
    split
    · simp [valued?, Table.get?_insert_of_ne _ hne]
    · simp [valued?, ih]

theorem Ready.assign {x : String} {stack : List Activation} (h : Ready x stack) (y : String) :
    Ready x (assign y stack) := by
  by_cases hxy : x = y
  · rw [hxy]
    exact ready_assign_self y stack
  · rw [Ready, valued?_assign_of_ne hxy]
    exact h

theorem assign_of_contains {x : String} {act : Activation} (h : act.vars.contains x)
    (below : List Activation) :
    assign x (act :: below) = { act with vars := act.vars.insert x true } :: below := by
  simp [assign, h]

theorem assign_of_get?_eq_none {x : String} {act : Activation} (h : act.vars.get? x = none)
    (below : List Activation) : assign x (act :: below) = act :: assign x below := by
  simp [assign, Table.contains, h]

theorem assign_comm (x y : String) (stack : List Activation) :
    assign x (assign y stack) = assign y (assign x stack) := by
  by_cases hxy : x = y
  · rw [hxy]
  induction stack with
  | nil => rfl
  | cons act below ih =>
    have hinsert := fun hx => Table.insert_comm hxy (t := act.vars) hx true true
    by_cases hx : act.vars.contains x <;> by_cases hy : act.vars.contains y <;>
      simp_all [assign, Table.contains_insert_of_ne, Ne.symm hxy]

end Execution

namespace Program

def initial (p : Program) : List Activation := [⟨[p.body], p.body, {}⟩]

def execute (p : Program) (choices : List Bool) : List Activation :=
  choices.foldl (fun stack taken => Execution.step taken stack) p.initial

end Program

end DefiniteAssignment
