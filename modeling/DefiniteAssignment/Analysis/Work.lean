import DefiniteAssignment.Analysis.Machine

/-! The work that is left to a machine, in steps. Entering a scope moves the
work of its body from the arena to the stack, and every other step only uses
work up; so a walk ends from whatever state it starts. -/
namespace DefiniteAssignment

mutual

/-- The steps that a statement of a body can take, with the bodies it declares. -/
def Stmt.work : Stmt → Nat
  | .function _ body => 4 + Stmt.bodyWork body
  | .declare _ | .assign _ | .print _ | .call _ _ | .bare | .block _ => 3

def Stmt.bodyWork : List Stmt → Nat
  | [] => 0
  | s :: rest => s.work + Stmt.bodyWork rest

end

def total {α : Type} (work : α → Nat) : List α → Nat
  | [] => 0
  | x :: rest => work x + total work rest

section

variable {α : Type} (work : α → Nat)

@[simp] theorem total_nil : total work [] = 0 := rfl

@[simp] theorem total_cons (x : α) (rest : List α) :
    total work (x :: rest) = work x + total work rest := rfl

@[simp] theorem total_append (l l' : List α) :
    total work (l ++ l') = total work l + total work l' := by
  induction l with
  | nil => simp
  | cons x rest ih => simp [ih, Nat.add_assoc]

end

def Scope.work (s : Scope) : Nat := if s.entered then 0 else 1 + Stmt.bodyWork s.body

def Analysis.work (a : Analysis) : Nat := total Scope.work a.scopes.toList

def Frame.work (f : Frame) : Nat :=
  1 + (if f.pending.isSome then 1 else 0) + 3 * f.rest.length

def Machine.work (m : Machine) : Nat := m.analysis.work + total Frame.work m.stack

namespace Analysis

theorem total_work_modify (f : Scope → Scope) (hf : ∀ s, (f s).work = s.work) (i : Nat)
    (l : List Scope) : total Scope.work (l.modify i f) = total Scope.work l := by
  induction l generalizing i with
  | nil => simp
  | cons s rest ih => cases i <;> simp [hf, ih]

@[simp] theorem work_report (a : Analysis) (code : Code) (x : String) :
    (a.report code x).work = a.work := rfl

theorem work_update (a : Analysis) (i : Nat) (f : Scope → Scope)
    (hf : ∀ s, (f s).work = s.work) : (a.update i f).work = a.work := by
  simp only [work, update, Array.toList_modify]
  exact total_work_modify f hf i _

@[simp] theorem work_setContract (a : Analysis) (i : Nat) (x : String) (c : Contract) :
    (a.setContract i x c).work = a.work :=
  work_update a i _ fun _ => rfl

@[simp] theorem work_setFunction (a : Analysis) (i : Nat) (f : String) (j : Nat) :
    (a.setFunction i f j).work = a.work :=
  work_update a i _ fun _ => rfl

@[simp] theorem work_flag (a : Analysis) (i : Nat) : (a.flag i).work = a.work :=
  work_update a i _ fun _ => rfl

@[simp] theorem work_use (a : Analysis) (i : Nat) (u : Use) (x : String) :
    (a.use i u x).work = a.work := by
  simp only [use]
  split <;> split <;> simp

@[simp] theorem work_declareVariable (a : Analysis) (i : Nat) (x : String) :
    (a.declareVariable i x).work = a.work := by
  simp only [declareVariable]
  split
  · simp
  · split
    · simp
    · split <;> simp

theorem work_propagate (caller : Nat) (callee : String) (conditional : Bool)
    (l : List (String × Contract)) (a : Analysis) :
    (a.propagate caller callee conditional l).1.work = a.work := by
  induction l generalizing a with
  | nil => rfl
  | cons e rest ih =>
    simp only [propagate]
    split <;> simp [ih]

theorem work_recordCall (a : Analysis) (caller callee : Nat) :
    (a.recordCall caller callee).1.work = a.work := by
  have h : ∀ reach, (a.update caller (·.passThrough callee reach)).work = a.work :=
    fun _ => work_update a caller _ fun _ => rfl
  simp only [recordCall]
  split
  · simp [h]
  · split
    · simp [h]
    · split <;> simp [h]

theorem work_invoke (a : Analysis) (caller callee : Nat) (conditional : Bool) :
    (a.invoke caller callee conditional).1.work = a.work := by
  have h := work_propagate caller (a.scope callee).name conditional
    (a.scope callee).contracts.entries a
  simp only [invoke]
  split
  · rename_i e
    simpa [e] using h
  · rename_i e
    split
    · simpa [e] using h
    · rw [work_recordCall]
      simpa [e] using h

theorem work_complete (a : Analysis) (caller callee : Nat) (conditional : Bool) :
    (a.complete caller callee conditional).1.work = a.work := by
  have h := work_invoke a caller callee conditional
  unfold complete
  split <;> rename_i e <;> simpa [e] using h

theorem work_dispatch (a : Analysis) (i : Nat) (s : Stmt) :
    (a.dispatch i s).1.work = a.work := by
  cases s with
  | assign x =>
    simp only [dispatch]
    split <;> simp
  | call f conditional =>
    simp only [dispatch, resolveCall]
    split
    · rename_i e
      split at e <;> simp_all
      simp [← e]
    · rename_i e
      split at e <;> simp_all
      split <;> simp [work_complete]
  | _ => simp [dispatch]

def functionsWork (functions : List (String × List Stmt)) : Nat :=
  total (fun entry => 1 + Stmt.bodyWork entry.2) functions

theorem bodyWork_eq (body : List Stmt) :
    Stmt.bodyWork body = 3 * body.length + functionsWork (body.filterMap Stmt.function?) := by
  induction body with
  | nil => rfl
  | cons s rest ih =>
    cases s <;> 
      simp [Stmt.bodyWork, Stmt.work, Stmt.function?, functionsWork, List.filterMap_cons] at ih ⊢ <;>
      omega

theorem work_addFunction (a : Analysis) (i : Nat) (f : String) (body : List Stmt) :
    (a.addFunction i f body).work = a.work + (1 + Stmt.bodyWork body) := by
  simp [addFunction, work, Scope.work]

theorem work_register (i : Nat) (functions : List (String × List Stmt)) (a : Analysis) :
    (a.register i functions).work ≤ a.work + functionsWork functions := by
  induction functions generalizing a with
  | nil => simp [register, functionsWork]
  | cons entry rest ih =>
    have h := ih (a.registerOne i entry.1 entry.2)
    have hone : (a.registerOne i entry.1 entry.2).work ≤ a.work + (1 + Stmt.bodyWork entry.2) := by
      unfold registerOne
      split
      · simp
      · simp [work_addFunction]
    simp only [register, List.foldl_cons, functionsWork, total_cons] at h ⊢
    omega

theorem total_work_enter (l : List Scope) (i : Nat) (h : (l[i]?.getD default).entered = false) :
    total Scope.work (l.modify i fun s => { s with entered := true })
      + Stmt.bodyWork (l[i]?.getD default).body ≤ total Scope.work l := by
  induction l generalizing i with
  | nil => simp [default, instInhabitedScope.default, Stmt.bodyWork]
  | cons s rest ih =>
    cases i with
    | zero =>
      simp only [List.getElem?_cons_zero, Option.getD_some] at h
      simp [Scope.work, h]
      omega
    | succ i =>
      have := ih i (by simpa using h)
      simp at this ⊢
      omega

theorem work_enter (a : Analysis) (i : Nat) (h : (a.scope i).entered = false) :
    (a.enter i).work + (Frame.start a i).work ≤ a.work + 1 := by
  have hreg := work_register i ((a.scope i).body.filterMap Stmt.function?)
    { a.update i (fun s => { s with entered := true }) with count := a.count + 1 }
  have htotal := total_work_enter a.scopes.toList i (by simpa [scope] using h)
  have hbody := bodyWork_eq (a.scope i).body
  have hscope : a.scopes.toList[i]?.getD default = a.scope i := by simp [scope]
  rw [hscope] at htotal
  simp only [enter, update, work, Array.toList_modify, Frame.work, Frame.start] at hreg ⊢
  simp only [Option.isSome_none, Bool.false_eq_true, if_false]
  omega

theorem complete_ne_suspend (a : Analysis) (caller callee : Nat) (conditional : Bool) (j : Nat)
    (c : Bool) : (a.complete caller callee conditional).2 ≠ .suspend j c := by
  unfold complete
  split
  · simp
  · dsimp only
    split <;> simp

theorem entered_of_dispatch_suspend {a : Analysis} {i : Nat} {s : Stmt} {j : Nat} {c : Bool}
    (h : (a.dispatch i s).2 = .suspend j c) : ((a.dispatch i s).1.scope j).entered = false := by
  cases s with
  | call f conditional =>
    simp only [dispatch] at h ⊢
    split
    · rename_i e
      simp [e] at h
    · rename_i e
      simp only [e] at h
      split at h
      · exact absurd h (complete_ne_suspend _ _ _ _ _ _)
      · rename_i hentered
        simp only [Signal.suspend.injEq] at h
        obtain ⟨rfl, rfl⟩ := h
        simp [hentered]
  | _ => simp [dispatch] at h

end Analysis

namespace Machine

theorem work_step_lt (m : Machine) (h : m.stack ≠ []) : m.step.work < m.work := by
  obtain ⟨a, stack, failure⟩ := m
  cases stack with
  | nil => exact absurd rfl h
  | cons f below =>
    obtain ⟨i, rest, pending⟩ := f
    cases pending with
    | some call =>
      obtain ⟨callee, conditional⟩ := call
      have hw := Analysis.work_complete a i callee conditional
      have hs := Analysis.complete_ne_suspend a i callee conditional
      simp only [step, Frame.advance]
      generalize a.complete i callee conditional = result at hw hs
      obtain ⟨a', signal⟩ := result
      dsimp only at hw hs
      cases signal with
      | suspend j c => exact absurd rfl (hs j c)
      | _ => simp [follow, work, Frame.work, hw]; try omega
    | none =>
      cases rest with
      | nil => simp [step, Frame.advance, follow, work, Frame.work]
      | cons s rest =>
        have hw := Analysis.work_dispatch a i s
        have hs := @Analysis.entered_of_dispatch_suspend a i s
        simp only [step, Frame.advance]
        generalize a.dispatch i s = result at hw hs
        obtain ⟨a', signal⟩ := result
        dsimp only at hw hs
        cases signal with
        | suspend j c =>
          have henter := Analysis.work_enter a' j (hs rfl)
          simp only [follow, work, Frame.work, total_cons, List.length_cons, Option.isSome_some, Option.isSome_none, if_true,
            Bool.false_eq_true, if_false] at henter ⊢
          omega
        | _ => simp [follow, work, Frame.work, hw]; try omega

end Machine

end DefiniteAssignment
