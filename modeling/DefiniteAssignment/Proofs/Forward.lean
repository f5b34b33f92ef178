import DefiniteAssignment.Proofs.Visibility

/-! What is known of a scope only moves forward. While its frame is on top of the
stack a scope gathers contracts and marks, and nobody else writes to it; once its
frame is gone it is frozen. Contracts change along the order in which names are
used, and a declaration starts a name over. -/
namespace DefiniteAssignment

theorem Contract.Advances.of_findings {s t : Scope} (h : t.findings = s.findings) (x : String) :
    Advances (s.contracts.get? x) (t.contracts.get? x) := by
  have hcontracts : t.contracts = s.contracts := congrArg Prod.fst h
  rw [hcontracts]
  exact .refl _

namespace Analysis

variable {a b : Analysis} {i : Nat} {x : String}

theorem declareVariable_of_bound (hf : a.isFunction i x = false) {c : Contract}
    (hc : (a.scope i).contracts.get? x = some c) : a.declareVariable i x =
      (a.report (if c.isObligation then .usedBeforeDeclared else .alreadyDeclared) x).setContract
        i x .inner := by
  have hview : (a.view i x).isFunction = false := hf
  have hown : (a.view i x).own = some c := hc
  simp only [declareVariable, hview, hown, Bool.false_eq_true, if_false]

theorem mem_problems_declareVariable (hf : a.isFunction i x = false) {c : Contract}
    (hc : (a.scope i).contracts.get? x = some c) :
    (c.isObligation → ⟨.usedBeforeDeclared, x⟩ ∈ (a.declareVariable i x).problems.toList) ∧
      (c.isDeclared → ⟨.alreadyDeclared, x⟩ ∈ (a.declareVariable i x).problems.toList) := by
  have hmem := fun code => mem_problems_report a code x
  rw [declareVariable_of_bound hf hc]
  constructor
  · intro hobligation
    rw [if_pos hobligation]
    exact hmem _
  · intro hdeclared
    have hobligation : ¬ c.isObligation := by
      cases c <;> simp_all [Contract.isDeclared, Contract.isObligation]
    rw [if_neg hobligation]
    exact hmem _

theorem advances_dispatch {s : Stmt} (hi : i < a.scopes.size)
    (h : a.dispatch i s = (b, .proceed)) (hcall : ∀ g c, s = .call g c → a.lookup i g = none)
    (x : String) :
    Contract.Advances ((a.scope i).contracts.get? x) ((b.scope i).contracts.get? x) ∨
      (b.scope i).contracts.get? x = some .inner ∧ s = .declare x := by
  have hb : (a.dispatch i s).1 = b := congrArg Prod.fst h
  subst hb
  cases s with
  | declare y =>
    simp only [dispatch, get?_declareVariable a hi]
    split
    · rename_i hy
      exact .inr ⟨rfl, by rw [hy.1]⟩
    · exact .inl (.refl _)
  | assign y =>
    refine .inl ?_
    simp only [dispatch]
    split
    · exact .refl _
    · exact advances_use a hi _ y x
  | print y => exact .inl (advances_use a hi _ y x)
  | function f body => exact .inl (.refl _)
  | call g c =>
    simp only [dispatch, resolveCall, hcall g c rfl]
    exact .inl (.refl _)
  | bare => simp [dispatch] at h
  | block body => simp [dispatch] at h

theorem advances_completed (hn : a.WellNested) (hi : i < a.scopes.size) (callee : Nat)
    (conditional : Bool) (x : String) :
    Contract.Advances ((a.scope i).contracts.get? x)
      (((a.completed i callee conditional).scope i).contracts.get? x) := by
  rw [contracts_completed, hn.get?_propagated hi]
  exact View.advances_met (a.view i x) conditional _

end Analysis

namespace Machine

def Declares (m : Machine) (i : Nat) (x : String) : Prop :=
  ∃ rest, m.stack.head? = some ⟨i, .declare x :: rest, none⟩

/-- What a step from `m` to `m'` may do to what is known of the scopes. -/
structure Forward (m m' : Machine) : Prop where
  findings : ∀ i, (∀ f ∈ m.stack.head?, f.scope ≠ i) →
    (m'.analysis.scope i).findings = (m.analysis.scope i).findings
  entered : ∀ i, (m.analysis.scope i).entered → (m'.analysis.scope i).entered
  recursive : ∀ i, m.analysis.isRecursive i → m'.analysis.isRecursive i
  always : ∀ i, (m.analysis.scope i).always ⊆ (m'.analysis.scope i).always
  bound : ∀ i x, (m.analysis.scope i).contracts.contains x →
    (m'.analysis.scope i).contracts.contains x
  contract : ∀ i x,
    Contract.Advances ((m.analysis.scope i).contracts.get? x)
        ((m'.analysis.scope i).contracts.get? x) ∨
      (m'.analysis.scope i).contracts.get? x = some .inner ∧ m.Declares i x
  declared : ∀ i x c, m.Declares i x → (m.analysis.scope i).contracts.get? x = some c →
    (m'.analysis.scope i).contracts.get? x = some .inner ∧
      (c.isObligation → ⟨.usedBeforeDeclared, x⟩ ∈ m'.analysis.problems.toList) ∧
      (c.isDeclared → ⟨.alreadyDeclared, x⟩ ∈ m'.analysis.problems.toList)

open Analysis

variable {m : Machine}

theorem advances_step (hv : m.Valid) (i : Nat) (x : String) :
    Contract.Advances ((m.analysis.scope i).contracts.get? x)
        ((m.step.analysis.scope i).contracts.get? x) ∨
      (m.step.analysis.scope i).contracts.get? x = some .inner ∧ m.Declares i x := by
  cases hs : m.stack with
  | nil =>
    rw [step_of_stack_nil hs]
    exact .inl (.refl _)
  | cons f below =>
    by_cases hi : i = f.scope
    · subst hi
      have hlt := lt_size_of_entered (hv.fits f (by simp [hs])).entered
      have hnext := next_step hs hv
      generalize m.step = m' at hnext
      cases hnext with
      | finish i => exact .inl (.refl _)
      | @note i s rest b dispatched unresolved =>
        rcases advances_dispatch hlt dispatched unresolved x with hadvances | ⟨hinner, rfl⟩
        · exact .inl hadvances
        · exact .inr ⟨hinner, rest, by rw [hs]; rfl⟩
      | enter resolved new =>
        have henters := Enters.enter m.analysis (hv.nested.lookup_lt resolved)
        exact .inl (.of_findings (henters.findings _) x)
      | complete _ => exact .inl (advances_completed hv.nested hlt _ _ x)
      | fail _ => exact .inl (.refl _)
    · exact .inl (.of_findings ((next_step hs hv).findings hv.nested hi) x)

theorem forward_step (hv : m.Valid) (h : m.analysis.Unambiguous) : m.Forward m.step where
  findings i hi := by
    apply hv.findings_step
    intro f below hs
    exact (hi f (by simp [hs])).symm
  entered _ hi := hv.extends_step.entered hi
  recursive _ hi := hv.extends_step.isRecursive hi
  always _ _ hk := hv.extends_step.always hk
  bound _ _ hx := hv.extends_step.bound hx
  contract := advances_step hv
  declared i x c hdeclares hc := by
    obtain ⟨rest, hhead⟩ := hdeclares
    obtain ⟨below, hs⟩ := List.head?_eq_some_iff.1 hhead
    have hlt := lt_size_of_entered (hv.fits _ (by rw [hs]; exact List.mem_cons_self)).entered
    have hf := h.apart i x (by simp [Table.contains, hc])
    rw [step_of_proceed hs rfl]
    refine ⟨?_, mem_problems_declareVariable hf hc⟩
    rw [get?_declareVariable _ hlt, if_pos ⟨rfl, hf⟩]

end Machine

namespace Analysis

/-- In every check, after any others, each step moves what is known of the scopes
forward; and a scope that a step takes off the stack stays as it is then, at all
later moments and when the check has ended. -/
theorem moves_forward {a : Analysis} (h : a.Reached) (body : List Stmt) (n : Nat) :
    ((a.opening body).after n).Forward ((a.opening body).after (n + 1)) ∧
      ∀ i ∈ ((a.opening body).after n).stack.map Frame.scope,
        i ∉ ((a.opening body).after (n + 1)).stack.map Frame.scope →
          (∀ k, n < k → (((a.opening body).after k).analysis.scope i).findings =
            (((a.opening body).after (n + 1)).analysis.scope i).findings) ∧
          ((a.check body).1.scope i).findings =
            (((a.opening body).after (n + 1)).analysis.scope i).findings := by
  have hv := h.wellNested.opening body
  have hreached := Unambiguous.kept.reached .empty h
  have hnames := Unambiguous.kept.after hv (Unambiguous.kept.opening h.wellNested hreached body) n
  constructor
  · rw [Machine.after_succ]
    exact Machine.forward_step (hv.after n) hnames
  · intro i hon hoff
    obtain ⟨f, hf, rfl⟩ := List.mem_map.1 hon
    have hentered := (hv.extends_after (Nat.le_succ n)).entered ((hv.after n).fits f hf).entered
    have hfrozen : ∀ k, n < k → (((a.opening body).after k).analysis.scope f.scope).findings =
        (((a.opening body).after (n + 1)).analysis.scope f.scope).findings :=
      fun k hk => (hv.finished hk hentered hoff).2
    refine ⟨hfrozen, ?_⟩
    obtain ⟨last, hrun, hend⟩ := (a.opening body).exists_run_eq
    have hlater : (a.opening body).run = (a.opening body).after (last + (n + 1)) := by
      rw [hrun, Machine.after_of_le (Nat.le_add_right last (n + 1)) hend]
    unfold scope
    rw [scopes_check, hlater]
    exact hfrozen _ (by omega)

def redeclared : List Stmt :=
  [.function "F" [.print "x"], .call "F" false, .assign "x", .declare "x", .assign "x", .declare "x"]

theorem moves_forward_redeclared : ({} : Analysis).Reached ∧
    ((({} : Analysis).opening redeclared).after 6).Declares 0 "x" ∧
    (((({} : Analysis).opening redeclared).after 6).analysis.scope 0).contracts.get? "x" =
      some .outerAssigned ∧
    ⟨.usedBeforeDeclared, "x"⟩ ∈
      ((({} : Analysis).opening redeclared).after 7).analysis.problems.toList ∧
    1 ∈ ((({} : Analysis).opening redeclared).after 3).stack.map Frame.scope ∧
    1 ∉ ((({} : Analysis).opening redeclared).after 4).stack.map Frame.scope ∧
    ((({} : Analysis).check redeclared).1.scope 1).findings =
      (((({} : Analysis).opening redeclared).after 4).analysis.scope 1).findings := by
  have hdeclares : ((({} : Analysis).opening redeclared).after 6).Declares 0 "x" := ⟨_, rfl⟩
  have hbefore : (((({} : Analysis).opening redeclared).after 6).analysis.scope 0).contracts.get?
      "x" = some .outerAssigned := rfl
  have hreported := (moves_forward .empty redeclared 6).1.declared 0 "x" _ hdeclares hbefore
  have hfrozen := (moves_forward .empty redeclared 3).2 1 (by decide) (by decide)
  exact ⟨.empty, hdeclares, hbefore, hreported.2.1 rfl, by decide, by decide, hfrozen.2⟩

end Analysis

end DefiniteAssignment
