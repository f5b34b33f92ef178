import DefiniteAssignment.Proofs.Moment

/-! Invariants of analyses. A property holds at every moment of a walk if it is
kept by all that a step can do to an analysis: note something about a scope, enter
a scope, complete a call. If it is also kept when an outermost scope is added and
when a problem is reported, it holds after any number of checks. -/
namespace DefiniteAssignment

namespace Analysis

structure KeptByWalks (P : Analysis → Prop) : Prop where
  note : ∀ a b i s, a.WellNested → (a.scope i).entered → a.dispatch i s = (b, .proceed) →
    (∀ g c, s = .call g c → a.lookup i g = none) → P a → P b
  enter : ∀ a i, a.WellNested → i < a.scopes.size → (a.scope i).entered = false → P a →
    P (a.enter i)
  complete : ∀ a i j c, a.WellNested → (a.scope i).entered → (a.scope j).entered → P a →
    P (a.completed i j c)

structure KeptByChecks (P : Analysis → Prop) : Prop extends KeptByWalks P where
  root : ∀ a body, a.WellNested → P a → P (a.addRoot body)
  report : ∀ a code x, P a → P (a.report code x)

variable {P : Analysis → Prop}

theorem KeptByWalks.step (hP : KeptByWalks P) {m : Machine} (hv : m.Valid) (h : P m.analysis) :
    P m.step.analysis := by
  cases hs : m.stack with
  | nil =>
    rw [Machine.step_of_stack_nil hs]
    exact h
  | cons f below =>
    have hf := hv.fits f (by simp [hs])
    have hnext := Machine.next_step hs hv
    generalize m.step = m' at hnext
    cases hnext with
    | finish i => exact h
    | note dispatched unresolved =>
      exact hP.note _ _ _ _ hv.nested hf.entered dispatched unresolved h
    | enter resolved new => exact hP.enter _ _ hv.nested (hv.nested.lookup_lt resolved) new h
    | complete completes =>
      exact hP.complete _ _ _ _ hv.nested hf.entered (hf.completes completes).1 h
    | fail _ => exact h

theorem KeptByWalks.after (hP : KeptByWalks P) {m : Machine} (hv : m.Valid) (h : P m.analysis)
    (n : Nat) : P (m.after n).analysis := by
  induction n with
  | zero => exact h
  | succ n ih =>
    rw [Machine.after_succ]
    exact hP.step (hv.after n) ih

namespace KeptByChecks

variable (hP : KeptByChecks P) {a : Analysis}

include hP

theorem opening (hn : a.WellNested) (h : P a) (body : List Stmt) :
    P (a.opening body).analysis :=
  hP.enter _ _ (hn.addRoot body) (root_lt_size a body) (entered_root a body)
    (hP.root a body hn h)

theorem sweep (l : List (String × Contract)) (a : Analysis) (h : P a) : P (a.sweep l).1 := by
  induction l generalizing a with
  | nil => exact h
  | cons e rest ih =>
    unfold Analysis.sweep
    split
    · exact ih _ (hP.report a _ _ h)
    · split
      · exact ih a h
      · exact h

theorem check (hn : a.WellNested) (h : P a) (body : List Stmt) : P (a.check body).1 := by
  obtain ⟨n, _, hend⟩ := (a.opening body).exists_run_eq
  have hafter := hP.after (hn.opening body) (hP.opening hn h body) n
  rw [check_eq_of_stack_nil hend]
  split
  · exact hafter
  · exact hP.sweep _ _ hafter

theorem reached (hempty : P {}) (h : a.Reached) : P a := by
  induction h with
  | empty => exact hempty
  | check ha body ih => exact hP.check ha.wellNested ih body

end KeptByChecks

end Analysis

end DefiniteAssignment
