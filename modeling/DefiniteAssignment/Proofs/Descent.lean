import DefiniteAssignment.Proofs.Moment

/-! The walk told by recursion. A call first descends into the called scope and
then meets its contracts; nothing is suspended. The machine with its stack comes
to the same end, in the same state, whatever arena it starts from. -/
namespace DefiniteAssignment

namespace Analysis

mutual

def descend (a : Analysis) (i : Nat) : Option (Analysis × Option Failure) :=
  if (a.scope i).entered then some (a, none)
  else descendBody (a.enter i) i (a.scope i).body
termination_by a.work + 1
decreasing_by
  rename_i h
  have := work_enter a i (by simpa using h)
  simp only [Frame.work, Frame.start, Option.isSome_none, Bool.false_eq_true, if_false] at this
  omega

/-- Walks what is left of the body of scope `i`. There is no result where a call
would leave more work than it found. -/
def descendBody (a : Analysis) (i : Nat) (rest : List Stmt) :
    Option (Analysis × Option Failure) :=
  match rest with
  | [] => some (a, none)
  | .declare x :: rest => descendBody (a.declareVariable i x) i rest
  | .assign x :: rest =>
    if a.isFunction i x then descendBody (a.report .assignToFunction x) i rest
    else descendBody (a.use i .assigned x) i rest
  | .print x :: rest => descendBody (a.use i .read x) i rest
  | .function _ _ :: rest => descendBody a i rest
  | .call f conditional :: rest =>
    match a.lookup i f with
    | none => descendBody (a.report .unknownFunction f) i rest
    | some j => do
      match ← descend a j with
      | (b, some failure) => some (b, some failure)
      | (b, none) =>
        match b.invoke i j conditional with
        | (c, some failure) => some (c, some failure)
        | (c, none) =>
          -- A body that never returns from the call is left there.
          if c.isRecursive i then some (c, none)
          else if c.work ≤ a.work then descendBody c i rest
          else none
  | .bare :: _ => some (a, some (.unknownStatement .bare (a.scope i).name))
  | .block body :: _ => some (a, some (.unknownStatement (.block body) (a.scope i).name))
termination_by a.work + 3 * rest.length
decreasing_by
  all_goals simp only [work_declareVariable, work_report, work_use, List.length_cons]
  all_goals omega

end

end Analysis

namespace Machine

theorem run_step (m : Machine) : m.step.run = m.run := by
  by_cases h : m.stack = []
  · rw [step_of_stack_nil h]
  · rw [run.eq_def m, if_neg h]

theorem run_of_stack_nil {m : Machine} (h : m.stack = []) : m.run = m := by
  rw [run, if_pos h]

def resume (below : List Frame) : Analysis × Option Failure → Machine
  | (a, none) => run ⟨a, below, none⟩
  | (a, some failure) => ⟨a, [], some failure⟩

theorem run_of_advance {f : Frame} {a : Analysis} {i j : Nat} {c : Bool} {rest : List Stmt}
    (h : f.advance a = ((a.complete i j c).1, ⟨i, rest, none⟩, (a.complete i j c).2))
    (below : List Frame) : run ⟨a, f :: below, none⟩ =
      match a.invoke i j c with
      | (b, some failure) => ⟨b, [], some failure⟩
      | (b, none) =>
        if b.isRecursive i then run ⟨b, below, none⟩
        else run ⟨b, ⟨i, rest, none⟩ :: below, none⟩ := by
  rw [← run_step]
  simp only [step, h, Analysis.complete]
  cases hinvoke : a.invoke i j c with
  | mk b failure =>
    cases failure with
    | some failure => exact run_of_stack_nil rfl
    | none =>
      dsimp only
      split
      · rfl
      · rfl

end Machine

namespace Analysis

/-- A descent through what is left of a body ends, and a machine that has that
body on top of its stack goes on where the descent ends. -/
structure Descends (a : Analysis) (i : Nat) (rest : List Stmt) (r : Analysis × Option Failure) :
    Prop where
  result : a.descendBody i rest = some r
  work : r.1.work ≤ a.work
  run : ∀ below, Machine.run ⟨a, ⟨i, rest, none⟩ :: below, none⟩ = Machine.resume below r

theorem Descends.nil (a : Analysis) (i : Nat) : a.Descends i [] (a, none) := by
  refine ⟨by rw [descendBody], Nat.le_refl _, fun below => ?_⟩
  rw [← Machine.run_step]
  rfl

theorem Descends.proceed {a b : Analysis} {i : Nat} {s : Stmt} {rest : List Stmt}
    {r : Analysis × Option Failure} (h : b.Descends i rest r)
    (hdispatch : a.dispatch i s = (b, .proceed))
    (hresult : a.descendBody i (s :: rest) = b.descendBody i rest) :
    a.Descends i (s :: rest) r := by
  have hwork := work_dispatch a i s
  rw [hdispatch] at hwork
  refine ⟨hresult.trans h.result, hwork ▸ h.work, fun below => ?_⟩
  have hstep : Machine.step ⟨a, ⟨i, s :: rest, none⟩ :: below, none⟩ =
      ⟨b, ⟨i, rest, none⟩ :: below, none⟩ := Machine.step_of_proceed rfl hdispatch
  rw [← Machine.run_step, hstep]
  exact h.run below

theorem Descends.fail {a : Analysis} {i : Nat} {s : Stmt} (rest : List Stmt) {failure : Failure}
    (hdispatch : a.dispatch i s = (a, .fail failure))
    (hresult : a.descendBody i (s :: rest) = some (a, some failure)) :
    a.Descends i (s :: rest) (a, some failure) := by
  refine ⟨hresult, Nat.le_refl _, fun below => ?_⟩
  have hstep : Machine.step ⟨a, ⟨i, s :: rest, none⟩ :: below, none⟩ = ⟨a, [], some failure⟩ :=
    Machine.step_of_fail rfl hdispatch
  rw [← Machine.run_step, hstep]
  exact Machine.run_of_stack_nil rfl

theorem exists_of_called {a : Analysis} {limit : Nat} (hlimit : a.work ≤ limit) (i j : Nat)
    (c : Bool) (rest : List Stmt)
    (hrest : ∀ b : Analysis, b.work ≤ a.work → ∃ r, b.Descends i rest r) :
    ∃ r : Analysis × Option Failure, r.1.work ≤ a.work ∧
      (match a.invoke i j c with
        | (b, some failure) => some (b, some failure)
        | (b, none) =>
          if b.isRecursive i then some (b, none)
          else if b.work ≤ limit then b.descendBody i rest
          else none) = some r ∧
      ∀ (f : Frame) (below : List Frame),
        f.advance a = ((a.complete i j c).1, ⟨i, rest, none⟩, (a.complete i j c).2) →
          Machine.run ⟨a, f :: below, none⟩ = Machine.resume below r := by
  have hwork := work_invoke a i j c
  cases hinvoke : a.invoke i j c with
  | mk b failure =>
    rw [hinvoke] at hwork
    cases failure with
    | some failure =>
      refine ⟨(b, some failure), Nat.le_of_eq hwork, rfl, fun f below hf => ?_⟩
      rw [Machine.run_of_advance hf, hinvoke]
      rfl
    | none =>
      cases hflag : b.isRecursive i with
      | true =>
        refine ⟨(b, none), Nat.le_of_eq hwork, by simp [hflag], fun f below hf => ?_⟩
        simp only [Machine.run_of_advance hf, hinvoke, hflag, if_true]
        rfl
      | false =>
        obtain ⟨r, hr⟩ := hrest b (Nat.le_of_eq hwork)
        have hle : b.work ≤ limit := Nat.le_trans (Nat.le_of_eq hwork) hlimit
        refine ⟨r, Nat.le_trans hr.work (Nat.le_of_eq hwork), ?_, ?_⟩
        · simpa [hflag, hle] using hr.result
        intro f below hf
        simp only [Machine.run_of_advance hf, hinvoke, hflag, Bool.false_eq_true, if_false]
        exact hr.run below

theorem exists_descends_call {a : Analysis} {i j : Nat} {f : String} (c : Bool) {rest : List Stmt}
    (hj : a.lookup i f = some j)
    (hrest : ∀ b : Analysis, b.work ≤ a.work → ∃ r, b.Descends i rest r)
    (hcallee : (a.scope j).entered = false →
      ∃ r, (a.enter j).Descends j (a.scope j).body r) :
    ∃ r, a.Descends i (.call f c :: rest) r := by
  cases hentered : (a.scope j).entered with
  | true =>
    obtain ⟨r, hwork, hresult, hrun⟩ := exists_of_called (Nat.le_refl _) i j c rest hrest
    refine ⟨r, ?_, hwork, fun below => hrun _ below ?_⟩
    · rw [descendBody, hj]
      simp only [descend, hentered, if_true]
      exact hresult
    · simp [Frame.advance, dispatch, resolveCall, hj, hentered]
  | false =>
    obtain ⟨⟨b, failure⟩, hr⟩ := hcallee hentered
    have henter : b.work ≤ a.work := by
      have := work_enter a j hentered
      have := hr.work
      simp only [Frame.work, Frame.start] at *
      omega
    have hdescend : a.descend j = some (b, failure) := by
      rw [descend, if_neg (by simp [hentered])]
      exact hr.result
    -- The machine suspends the caller, walks the callee and comes back to the caller.
    have hrun : ∀ below, Machine.run ⟨a, ⟨i, .call f c :: rest, none⟩ :: below, none⟩ =
        Machine.resume (⟨i, rest, some (j, c)⟩ :: below) (b, failure) := by
      intro below
      have hstep : Machine.step ⟨a, ⟨i, .call f c :: rest, none⟩ :: below, none⟩ =
          ⟨a.enter j, .start a j :: ⟨i, rest, some (j, c)⟩ :: below, none⟩ :=
        Machine.step_of_new rfl hj hentered
      rw [← Machine.run_step, hstep]
      exact hr.run _
    cases failure with
    | some failure =>
      refine ⟨(b, some failure), ?_, henter, hrun⟩
      rw [descendBody, hj]
      simp only [hdescend]
      rfl
    | none =>
      obtain ⟨r, hwork, hresult, hcompletes⟩ := exists_of_called henter i j c rest
        fun b' hb' => hrest b' (Nat.le_trans hb' henter)
      refine ⟨r, ?_, Nat.le_trans hwork henter, fun below => ?_⟩
      · rw [descendBody, hj]
        simp only [hdescend]
        exact hresult
      · rw [hrun]
        exact hcompletes _ below rfl

theorem exists_descends (k : Nat) (a : Analysis) (i : Nat) (rest : List Stmt)
    (h : a.work + 3 * rest.length ≤ k) : ∃ r, a.Descends i rest r := by
  induction k using Nat.strongRecOn generalizing a i rest with
  | _ k ih =>
    cases rest with
    | nil => exact ⟨_, .nil a i⟩
    | cons s rest =>
      rw [List.length_cons] at h
      have hrest : ∀ b : Analysis, b.work ≤ a.work → ∃ r, b.Descends i rest r := by
        intro b hb
        apply ih (a.work + 3 * rest.length)
        · omega
        · omega
      have hproceed : ∀ b : Analysis, a.dispatch i s = (b, .proceed) →
          a.descendBody i (s :: rest) = b.descendBody i rest → ∃ r, a.Descends i (s :: rest) r := by
        intro b hdispatch hresult
        have hwork := work_dispatch a i s
        rw [hdispatch] at hwork
        obtain ⟨r, hr⟩ := hrest b (Nat.le_of_eq hwork)
        exact ⟨r, hr.proceed hdispatch hresult⟩
      cases s with
      | declare x => exact hproceed _ rfl (by rw [descendBody])
      | assign x =>
        apply hproceed _ rfl
        rw [descendBody]
        split
        · rfl
        · rfl
      | print x => exact hproceed _ rfl (by rw [descendBody])
      | function g body => exact hproceed _ rfl (by rw [descendBody])
      | bare => exact ⟨_, .fail rest rfl (by rw [descendBody])⟩
      | block body => exact ⟨_, .fail rest rfl (by rw [descendBody])⟩
      | call f c =>
        cases hj : a.lookup i f with
        | none =>
          apply hproceed (a.report .unknownFunction f)
          · simp [dispatch, resolveCall, hj]
          · rw [descendBody, hj]
        | some j =>
          apply exists_descends_call c hj hrest
          intro hentered
          have henter := work_enter a j hentered
          simp only [Frame.work, Frame.start, Option.isSome_none, Bool.false_eq_true,
            if_false] at henter
          apply ih (a.work + 3 * rest.length)
          · omega
          · omega

/-- The machine refines the recursion: from every arena and for every scope, the
recursion has a result, and it is the analysis and the failure, if there is one,
in which the walk ends. -/
theorem descend_eq_walk (a : Analysis) (i : Nat) : a.descend i = some (a.walk i) := by
  unfold walk
  rw [descend]
  split
  · rfl
  · obtain ⟨⟨b, failure⟩, hr⟩ := exists_descends _ (a.enter i) i (a.scope i).body (Nat.le_refl _)
    have hrun : (a.start i).run = Machine.resume [] (b, failure) := hr.run []
    rw [hr.result, hrun]
    cases failure with
    | none =>
      have hend : Machine.resume [] (b, none) = ⟨b, [], none⟩ := Machine.run_of_stack_nil rfl
      rw [hend]
    | some failure => rfl

end Analysis

end DefiniteAssignment
