import DefiniteAssignment.Proofs.Language

/-! What is reported, and when. For each operation of an analysis, the problems
that it can add and the state in which it adds them. -/
namespace DefiniteAssignment

namespace Analysis

variable {a : Analysis} {i : Nat} {x : String} {problem : Problem}

theorem problems_declareVariable_cases (h : problem ∈ (a.declareVariable i x).problems.toList) :
    problem ∈ a.problems.toList ∨
      (problem = ⟨.usedBeforeDeclared, x⟩ ∧
        ∃ c, (a.scope i).contracts.get? x = some c ∧ c.isObligation) ∨
      (problem = ⟨.alreadyDeclared, x⟩ ∧ (a.isTaken i x ∨
        ∃ c, (a.scope i).contracts.get? x = some c ∧ c.isObligation = false)) := by
  have hreport : ∀ code, problem ∈ (a.report code x).problems.toList →
      problem ∈ a.problems.toList ∨ problem = ⟨code, x⟩ := fun _ => Sink.mem_insert.1
  simp only [declareVariable] at h
  split at h
  · rename_i hf
    exact (hreport _ h).imp id fun heq => .inr ⟨heq, .inl (Bool.or_eq_true_iff.2 (.inl hf))⟩
  · split at h
    · rename_i c hc
      cases hobligation : c.isObligation with
      | true =>
        rw [hobligation] at h
        exact (hreport _ h).imp id fun heq => .inl ⟨heq, c, hc, hobligation⟩
      | false =>
        rw [hobligation] at h
        exact (hreport _ h).imp id fun heq => .inr ⟨heq, .inr ⟨c, hc, hobligation⟩⟩
    · split at h
      · rename_i haround
        exact (hreport _ h).imp id fun heq =>
          .inr ⟨heq, .inl (Bool.or_eq_true_iff.2 (.inr haround))⟩
      · exact .inl h

theorem isTaken_registered (hi : i < a.scopes.size) {f g : String} {body : List Stmt}
    (hne : g ≠ f) : ((a.addFunction i f body).setFunction i f a.scopes.size).isTaken i g =
      a.isTaken i g := by
  have hscope := scope_registered hi f body
  have hdefault := scope_of_size_le (Nat.le_refl a.scopes.size)
  generalize (a.addFunction i f body).setFunction i f a.scopes.size = b at hscope
  have hcontracts : ∀ j, (b.scope j).contracts = (a.scope j).contracts := by
    intro j
    rw [hscope]
    split
    · rename_i hj
      rw [hj]
    · split
      · rename_i hj
        rw [hj, hdefault]
      · rfl
  have hfunctions : ∀ j, (b.scope j).functions.get? g = (a.scope j).functions.get? g := by
    intro j
    rw [hscope]
    split
    · rename_i hj
      rw [hj]
      exact Table.get?_insert_of_ne _ hne _
    · split
      · rename_i hj
        rw [hj, hdefault]
      · rfl
  have henclosing : (b.scope i).enclosing = (a.scope i).enclosing := by rw [hscope, if_pos rfl]
  simp only [isTaken, isFunction, lookup, contracts, ContractMap.declaredAround, henclosing,
    hcontracts, hfunctions]

/-- A registration reports names that were taken before it, and names that stand
twice in the list. -/
theorem problems_register_cases (l : List (String × List Stmt)) (a : Analysis)
    (hi : i < a.scopes.size) (h : problem ∈ (a.register i l).problems.toList) :
    problem ∈ a.problems.toList ∨ ∃ before f inner behind, l = before ++ (f, inner) :: behind ∧
      problem = ⟨.alreadyDeclared, f⟩ ∧ (a.isTaken i f ∨ ∃ inner', (f, inner') ∈ before) := by
  induction l generalizing a with
  | nil => exact .inl h
  | cons e rest ih =>
    obtain ⟨g, body⟩ := e
    have hone := Registers.registerOne hi (List.mem_singleton_self (g, body))
    rcases ih _ (Nat.lt_of_lt_of_le hi hone.size) h with
      hold | ⟨before, f, inner, behind, rfl, heq, hf⟩
    · unfold registerOne at hold
      split at hold
      · rename_i htaken
        refine (Sink.mem_insert.1 hold).imp id fun heq => ?_
        exact ⟨[], g, body, rest, rfl, heq, .inl htaken⟩
      · exact .inl hold
    · refine .inr ⟨(g, body) :: before, f, inner, behind, rfl, heq, ?_⟩
      rcases hf with htaken | ⟨inner', hinner⟩
      · by_cases hg : f = g
        · exact .inr ⟨body, by simp [hg]⟩
        · unfold registerOne at htaken
          split at htaken
          · exact .inl htaken
          · rw [isTaken_registered hi hg] at htaken
            exact .inl htaken
      · exact .inr ⟨inner', List.mem_cons_of_mem _ hinner⟩

theorem problems_sweep_cases (l : List (String × Contract)) (a : Analysis)
    (h : problem ∈ (a.sweep l).1.problems.toList) : problem ∈ a.problems.toList ∨
      ∃ x c, (x, c) ∈ l ∧ c.isObligation ∧ problem = ⟨.notDeclared, x⟩ := by
  induction l generalizing a with
  | nil => exact .inl h
  | cons e rest ih =>
    obtain ⟨y, c⟩ := e
    have hrest : ∀ b : Analysis, problem ∈ (b.sweep rest).1.problems.toList →
        problem ∈ b.problems.toList ∨
          ∃ x d, (x, d) ∈ (y, c) :: rest ∧ d.isObligation ∧ problem = ⟨.notDeclared, x⟩ := by
      intro b hb
      refine (ih b hb).imp id ?_
      rintro ⟨x, d, hx, hd⟩
      exact ⟨x, d, List.mem_cons_of_mem _ hx, hd⟩
    simp only [sweep] at h
    split at h
    · rename_i hc
      rcases hrest _ h with hold | hnew
      · refine (Sink.mem_insert.1 hold).imp id fun heq => ?_
        exact ⟨y, c, List.mem_cons_self, hc, heq⟩
      · exact .inr hnew
    · split at h
      · exact hrest a h
      · exact .inl h

end Analysis

end DefiniteAssignment
