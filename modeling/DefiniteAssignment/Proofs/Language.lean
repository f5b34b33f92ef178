import DefiniteAssignment.Proofs.Moment

/-! Programs of the language. No step of their walk fails and the outermost
scope is left with known contracts, so their check always gives a list of
problems. -/
namespace DefiniteAssignment

mutual

/-- Statements of the five kinds, inside function bodies too. -/
def Stmt.inLanguage : Stmt → Bool
  | .function _ body => Stmt.allInLanguage body
  | .declare _ | .assign _ | .print _ | .call _ _ => true
  | .bare | .block _ => false

def Stmt.allInLanguage : List Stmt → Bool
  | [] => true
  | s :: rest => s.inLanguage && Stmt.allInLanguage rest

end

theorem Stmt.allInLanguage_iff {body : List Stmt} :
    allInLanguage body ↔ ∀ s ∈ body, s.inLanguage := by
  induction body with
  | nil => simp [allInLanguage]
  | cons s rest ih => simp [allInLanguage, ih]

theorem Stmt.allInLanguage_inner (body : List Stmt) (f : String) (inner : List Stmt)
    (h : allInLanguage body = true) (hf : .function f inner ∈ body) : allInLanguage inner = true := by
  have hin := allInLanguage_iff.1 h _ hf
  simpa [inLanguage] using hin

namespace Analysis

def InLanguage (a : Analysis) : Prop := ∀ i, Stmt.allInLanguage (a.scope i).body

theorem InLanguage.enters {a b : Analysis} {i : Nat} (h : a.InLanguage) (he : Enters i a b) :
    b.InLanguage :=
  he.forall_body (P := (Stmt.allInLanguage · = true)) rfl Stmt.allInLanguage_inner h

theorem inLanguage_opening {body : List Stmt} (h : Stmt.allInLanguage body) :
    (({} : Analysis).opening body).analysis.InLanguage := by
  refine InLanguage.enters (fun i => ?_) (.enter _ (root_lt_size {} body))
  rw [scope_addRoot]
  split
  · exact h
  · rw [scope_empty]
    rfl

theorem sweep_eq_none (l : List (String × Contract)) (a : Analysis)
    (hl : ∀ e ∈ l, ∀ t, e.2 ≠ .alien t) : (a.sweep l).2 = none := by
  induction l generalizing a with
  | nil => rfl
  | cons e rest ih =>
    have hrest : ∀ e ∈ rest, ∀ t, e.2 ≠ .alien t := fun e he => hl e (List.mem_cons_of_mem _ he)
    have hhead := hl e List.mem_cons_self
    obtain ⟨x, c⟩ := e
    simp only [sweep]
    split
    · exact ih _ hrest
    · split
      · exact ih _ hrest
      · cases c <;> simp_all [Contract.isObligation, Contract.isDeclared]

theorem problems_sweep_subset (l : List (String × Contract)) (a : Analysis) :
    a.problems.toList ⊆ (a.sweep l).1.problems.toList := by
  induction l generalizing a with
  | nil => exact fun _ h => h
  | cons e rest ih =>
    simp only [sweep]
    split
    · exact List.Subset.trans (problems_report_subset a _ _) (ih _)
    · split
      · exact ih a
      · exact fun _ h => h

theorem mem_problems_sweep (l : List (String × Contract)) (a : Analysis)
    (hl : ∀ e ∈ l, ∀ t, e.2 ≠ .alien t) {x : String} {c : Contract} (hx : (x, c) ∈ l)
    (hc : c.isObligation) : ⟨.notDeclared, x⟩ ∈ (a.sweep l).1.problems.toList := by
  induction l generalizing a with
  | nil => simp at hx
  | cons e rest ih =>
    have hrest : ∀ e ∈ rest, ∀ t, e.2 ≠ .alien t := fun e he => hl e (List.mem_cons_of_mem _ he)
    have hhead := hl e List.mem_cons_self
    obtain ⟨y, d⟩ := e
    simp only [sweep]
    rcases List.mem_cons.1 hx with heq | hx
    · obtain ⟨rfl, rfl⟩ := Prod.mk.inj heq
      rw [if_pos hc]
      exact problems_sweep_subset rest _ (mem_problems_report a _ x)
    · split
      · exact ih _ hrest hx
      · split
        · exact ih _ hrest hx
        · cases d <;> simp_all [Contract.isObligation, Contract.isDeclared]

end Analysis

namespace Machine

variable {m : Machine}

theorem inLanguage_step (hv : m.Valid) (h : m.analysis.InLanguage) (hok : m.failure = none) :
    m.step.analysis.InLanguage ∧ m.step.failure = none := by
  refine ⟨hv.forall_body_step (P := (Stmt.allInLanguage · = true)) rfl Stmt.allInLanguage_inner h, ?_⟩
  cases hs : m.stack with
  | nil =>
    rw [step_of_stack_nil hs]
    exact hok
  | cons f below =>
    have hf := hv.fits f (by simp [hs])
    have hnext := next_step hs hv
    generalize m.step = m' at hnext
    cases hnext with
    | @fail i s rest failure outside =>
      have hin := Stmt.allInLanguage_iff.1 (h i) s (hf.rest.mem List.mem_cons_self)
      rcases outside with rfl | ⟨body, rfl⟩ <;> simp [Stmt.inLanguage] at hin
    | _ => rfl

theorem inLanguage_after (hv : m.Valid) (h : m.analysis.InLanguage) (hok : m.failure = none)
    (n : Nat) : (m.after n).analysis.InLanguage ∧ (m.after n).failure = none := by
  induction n with
  | zero => exact ⟨h, hok⟩
  | succ n ih =>
    rw [after_succ]
    exact inLanguage_step (hv.after n) ih.1 ih.2

end Machine

namespace Program

def InLanguage (p : Program) : Prop := Stmt.allInLanguage p.body

def opening (p : Program) : Machine := ({} : Analysis).opening p.body

def checked (p : Program) : Analysis := (({} : Analysis).check p.body).1

theorem valid_opening (p : Program) : p.opening.Valid := Analysis.WellNested.empty.opening p.body

theorem wellNested_checked (p : Program) : p.checked.WellNested :=
  (Analysis.Reached.check .empty p.body).wellNested

theorem entered_opening {p : Program} {i : Nat} (h : (p.opening.analysis.scope i).entered) : i = 0 := by
  have hroot := Analysis.root_lt_size {} p.body
  rcases ((Analysis.Enters.enter _ hroot).entered_iff i).1 h with hi | hi
  · exact hi
  · rw [Analysis.scope_addRoot] at hi
    split at hi
    · assumption
    · simp [Analysis.scope_empty] at hi

theorem checked_eq {p : Program} {n : Nat} (hend : (p.opening.after n).stack = []) :
    ∃ problems, p.checked = { (p.opening.after n).analysis with problems } ∧
      (p.opening.after n).analysis.problems.toList ⊆ problems.toList := by
  have hrun : (({} : Analysis).opening p.body).run = p.opening.after n := Machine.run_eq_after hend
  rw [checked, Analysis.check_eq, hrun]
  split
  · exact ⟨_, rfl, fun _ h => h⟩
  · have hsubset := Analysis.problems_sweep_subset
      ((p.opening.after n).analysis.scope ({} : Analysis).scopes.size).contracts.entries
      (p.opening.after n).analysis
    obtain ⟨problems, hsweep⟩ := Analysis.sweep_eq
      ((p.opening.after n).analysis.scope ({} : Analysis).scopes.size).contracts.entries
      (p.opening.after n).analysis
    rw [hsweep] at hsubset ⊢
    exact ⟨problems, rfl, hsubset⟩

theorem extends_checked (p : Program) (n : Nat) :
    Analysis.Extends (p.opening.after n).analysis p.checked := by
  obtain ⟨last, _, hend⟩ := p.opening.exists_run_eq
  have hlast : Analysis.Extends (p.opening.after n).analysis (p.opening.after last).analysis := by
    rcases Nat.le_total n last with hle | hle
    · exact p.valid_opening.extends_after hle
    · rw [Machine.after_of_le hle hend]
      exact .refl _
  obtain ⟨problems, hchecked, hsubset⟩ := checked_eq hend
  rw [hchecked]
  exact hlast.trans ⟨Nat.le_refl _, fun _ _ => .refl _, hsubset⟩

/-- A check that goes well walks to the end, and then reports what the outermost
scope leaves open. -/
theorem check_eq_sweep {p : Program} {n : Nat} (hend : (p.opening.after n).stack = [])
    (hok : (p.opening.after n).failure = none) :
    ({} : Analysis).check p.body = (p.opening.after n).analysis.sweep
      ((p.opening.after n).analysis.scope 0).contracts.entries := by
  have hrun : (({} : Analysis).opening p.body).run = p.opening.after n := Machine.run_eq_after hend
  rw [Analysis.check_eq, hrun, hok]
  rfl

theorem snd_check_eq_none {p : Program} {n : Nat} (hend : (p.opening.after n).stack = [])
    (hok : (p.opening.after n).failure = none) : (({} : Analysis).check p.body).2 = none := by
  rw [check_eq_sweep hend hok]
  exact Analysis.sweep_eq_none _ _ ((p.valid_opening.after n).nested.entries_known 0)

theorem problems_of_snd_check {p : Program} (h : (({} : Analysis).check p.body).2 = none) :
    p.problems = .ok p.checked.problems.toList := by
  simp only [problems, checked]
  split
  · rename_i heq
    simp [heq] at h
  · rename_i heq
    rw [heq]

theorem problems_eq_ok {p : Program} {n : Nat} (hend : (p.opening.after n).stack = [])
    (hok : (p.opening.after n).failure = none) :
    p.problems = .ok p.checked.problems.toList :=
  problems_of_snd_check (snd_check_eq_none hend hok)

theorem problems_eq_sweep {p : Program} {n : Nat} (hend : (p.opening.after n).stack = [])
    (hok : (p.opening.after n).failure = none) :
    p.problems = .ok ((p.opening.after n).analysis.sweep
      ((p.opening.after n).analysis.scope 0).contracts.entries).1.problems.toList := by
  rw [problems_eq_ok hend hok, checked, check_eq_sweep hend hok]

theorem exists_end_of_problems_eq {p : Program} {ps : List Problem} (h : p.problems = .ok ps) :
    ∃ n, (p.opening.after n).stack = [] ∧ (p.opening.after n).failure = none := by
  obtain ⟨n, hrun, hend⟩ := p.opening.exists_run_eq
  refine ⟨n, hend, ?_⟩
  cases hfailure : (p.opening.after n).failure with
  | none => rfl
  | some failure =>
    have hcheck := Analysis.check_eq {} p.body
    have hrun' : (({} : Analysis).opening p.body).run = p.opening.after n := hrun
    rw [hrun', hfailure] at hcheck
    simp [problems, hcheck] at h

theorem InLanguage.exists_end {p : Program} (h : p.InLanguage) :
    ∃ n, (p.opening.after n).stack = [] ∧ (p.opening.after n).failure = none := by
  obtain ⟨n, _, hend⟩ := p.opening.exists_run_eq
  exact ⟨n, hend, (Machine.inLanguage_after p.valid_opening (Analysis.inLanguage_opening h) rfl n).2⟩

theorem scope_checked {p : Program} {n : Nat} (hend : (p.opening.after n).stack = [])
    (hok : (p.opening.after n).failure = none) (i : Nat) :
    p.checked.scope i = (p.opening.after n).analysis.scope i := by
  obtain ⟨problems, hsweep⟩ := Analysis.sweep_eq
    ((p.opening.after n).analysis.scope 0).contracts.entries (p.opening.after n).analysis
  rw [checked, check_eq_sweep hend hok, hsweep]
  rfl

end Program

end DefiniteAssignment
