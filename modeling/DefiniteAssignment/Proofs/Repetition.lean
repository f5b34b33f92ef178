import DefiniteAssignment.Proofs.Nesting

/-! Doing a thing twice. A use leaves a contract behind under which the same use
asks for nothing more, and a call after which its caller goes on leaves nothing
to ask for the next call of the same scope. So an assignment, a print or a call
that stands right behind an equal one is idle. -/
namespace DefiniteAssignment

def Stmt.isUse : Stmt → Bool
  | assign _ | print _ | call _ _ => true
  | declare _ | function _ _ | bare | block _ => false

theorem union_eq_self {l new : List Nat} (h : ∀ k ∈ new, k ∈ l) : union l new = l := by
  have hnone : new.filter (fun k => !l.contains k) = [] := by
    rw [List.filter_eq_nil_iff]
    intro k hk
    simp [h k hk]
  rw [union, hnone, List.append_nil]

namespace View

def used (v : View) (u : Use) : View := { v with own := (v.after u).or v.own }

theorem after_used (v : View) (u : Use) : (v.used u).after u = none := by
  obtain ⟨isFunction, own, boundAround⟩ := v
  cases isFunction with
  | true => rfl
  | false =>
    cases own with
    | none => cases u <;> cases boundAround <;> rfl
    | some c => cases u <;> cases c <;> rfl

theorem readsUnassigned_used (v : View) (u : Use) :
    (v.used u).readsUnassigned u = v.readsUnassigned u := by
  obtain ⟨isFunction, own, boundAround⟩ := v
  cases isFunction with
  | true => rfl
  | false =>
    cases own with
    | none => cases u <;> cases boundAround <;> rfl
    | some c => cases u <;> cases c <;> rfl

end View

namespace Analysis

variable {a b : Analysis} {i : Nat} {x : String} {u : Use}

theorem report_eq_self {code : Code} (h : ⟨code, x⟩ ∈ a.problems.toList) : a.report code x = a := by
  simp [report, Sink.insert, Sink.contains, h]

theorem use_eq_self (hafter : (a.view i x).after u = none)
    (hread : (a.view i x).readsUnassigned u → ⟨.notAssigned, x⟩ ∈ a.problems.toList) :
    a.use i u x = a := by
  simp only [use, hafter]
  split
  · rename_i h
    exact report_eq_self (hread h)
  · rfl

theorem propagate_eq_self {callee : String} {conditional : Bool} {l : List (String × Contract)}
    (h : ∀ e ∈ l, ∀ u, e.2.demand conditional = .use u → a.use i u e.1 = a) :
    (a.propagate i callee conditional l).1 = a := by
  induction l with
  | nil => rfl
  | cons e rest ih =>
    have hrest := ih fun e he => h e (List.mem_cons_of_mem _ he)
    simp only [propagate]
    split
    · exact hrest
    · rename_i u hu
      rw [h e List.mem_cons_self u hu]
      exact hrest
    · rfl

theorem WellNested.view_within (h : a.WellNested) (hw : Within i a b) (x : String) :
    b.view i x = { a.view i x with own := (b.scope i).contracts.get? x } := by
  have haround : (b.contracts i).boundAround x = (a.contracts i).boundAround x := by
    simp only [contracts, ContractMap.boundAround, List.any_map, hw.enclosing]
    rw [Bool.eq_iff_iff, List.any_eq_true, List.any_eq_true]
    refine exists_congr fun p => and_congr_right fun hp => ?_
    rw [Function.comp_apply, Function.comp_apply, hw.other p (Nat.ne_of_lt (h.mem_enclosing hp).1)]
  simp only [view, isFunction, hw.lookup, haround]
  rfl

theorem use_again (h : a.WellNested) (hi : i < a.scopes.size) (u : Use) (x : String) :
    (a.use i u x).use i u x = a.use i u x := by
  have hview : (a.use i u x).view i x = (a.view i x).used u := by
    rw [h.view_within (Notes.use i a u x).within, get?_use a hi, if_pos rfl]
    rfl
  apply use_eq_self
  · rw [hview, View.after_used]
  · rw [hview, View.readsUnassigned_used]
    intro hread
    simp only [use, hread, if_true]
    split <;> exact mem_problems_report a _ x

/-- A conditional call of a scope by itself asks only for what the scope asks for. -/
theorem propagated_self (hn : (a.scope i).contracts.keys.Nodup) : a.propagated i i true = a := by
  apply propagate_eq_self
  rintro ⟨x, c⟩ he u hu
  have hown : (a.view i x).own = some c := Table.get?_of_mem hn he
  apply use_eq_self
  · unfold View.after
    split
    · rfl
    · cases c <;> cases hu <;> simp [View.resolve, hown]
  · intro hread
    cases c <;> cases hu <;> simp [View.readsUnassigned, hown] at hread

theorem WellNested.propagated_completed (h : a.WellNested) (hi : i < a.scopes.size) {callee : Nat}
    (hne : callee ≠ i) (conditional : Bool) :
    (a.completed i callee conditional).propagated i callee conditional =
      a.completed i callee conditional := by
  have hwithin := Within.completed a i callee conditional
  apply propagate_eq_self
  rw [hwithin.other callee hne]
  rintro ⟨x, c⟩ he u hu
  have hcallee : (a.scope callee).contracts.get? x = some c := Table.get?_of_mem (h.nodup callee) he
  have hview : (a.completed i callee conditional).view i x = (a.view i x).used u := by
    rw [h.view_within hwithin, contracts_completed, h.get?_propagated hi, hcallee]
    simp only [View.met, Option.map_some]
    rw [hu]
    rfl
  apply use_eq_self
  · rw [hview, View.after_used]
  · rw [hview, View.readsUnassigned_used, problems_completed]
    intro hread
    -- Only an external contract is read, and the first call has read it.
    obtain ⟨_, rfl, _⟩ := readsUnassigned_iff.1 hread
    obtain rfl := Contract.demand_eq_read_iff.1 hu
    exact (mem_problems_propagate_iff _ conditional _ a hi (h.nodup callee)
      (h.entries_known callee)).2 (.inr ⟨x, rfl, hcallee, hread⟩)

theorem recordCall_again (hi : i < a.scopes.size) {callee : Nat} (hne : callee ≠ i)
    (hreturns : (a.recordCall i callee).1.isRecursive i = false) :
    ((a.recordCall i callee).1.recordCall i callee).1 = (a.recordCall i callee).1 := by
  -- A call after which the caller goes on only extends what it passes through.
  have hfirst : (a.recordCall i callee).1 =
      a.update i (·.passThrough callee (a.scope callee).always) := by
    have hsize : i < (a.update i (·.passThrough callee (a.scope callee).always)).scopes.size := by
      simpa using hi
    simp only [recordCall] at hreturns ⊢
    split at hreturns
    · simp [isRecursive_flag hsize] at hreturns
    · rename_i hself
      rw [if_neg hself]
      split at hreturns
      · simp [isRecursive_flag hsize] at hreturns
      · rename_i hany
        rw [if_neg hany]
        split <;> rfl
  generalize hb : a.update i (·.passThrough callee (a.scope callee).always) = b at hfirst
  have hreach : (b.scope callee).always = (a.scope callee).always := by
    rw [← hb, scope_update_of_ne a _ hne]
  have hpass : b.update i (·.passThrough callee (a.scope callee).always) = b := by
    apply update_eq_self
    have hown : b.scope i = (a.scope i).passThrough callee (a.scope callee).always := by
      rw [← hb, scope_update_self a _ hi]
    have hmem : ∀ k ∈ [callee] ++ (a.scope callee).always, k ∈ (b.scope i).always := by
      intro k hk
      rw [hown, Scope.passThrough, mem_union, mem_union]
      rw [List.mem_append] at hk
      exact hk.elim (fun hk => .inl (.inr hk)) .inr
    rw [Scope.passThrough, union_eq_self fun k hk => hmem k (List.mem_append_left _ hk),
      union_eq_self fun k hk => hmem k (List.mem_append_right _ hk)]
  have hagain : b.recordCall i callee = a.recordCall i callee := by
    simp only [recordCall, hreach, hpass, hb]
  rw [hfirst, hagain, hfirst]

theorem completed_again (h : a.WellNested) (hi : i < a.scopes.size) {callee : Nat}
    {conditional : Bool} (hreturns : (a.completed i callee conditional).isRecursive i = false) :
    (a.completed i callee conditional).completed i callee conditional =
      a.completed i callee conditional := by
  cases conditional with
  | true =>
    by_cases hne : callee = i
    · subst hne
      have hself : a.completed callee callee true = a := propagated_self (h.nodup callee)
      rw [hself, hself]
    · exact h.propagated_completed hi hne true
  | false =>
    have hne : callee ≠ i := by
      rintro rfl
      rw [(isRecursive_completed hi callee).2 (.inr (.inl rfl))] at hreturns
      exact Bool.noConfusion hreturns
    have hsize := (Notes.propagated a i callee false).size
    have hrecord := recordCall_again (a := a.propagated i callee false) (hsize ▸ hi) hne hreturns
    calc (a.completed i callee false).completed i callee false
        = (((a.completed i callee false).propagated i callee false).recordCall i callee).1 := rfl
      _ = ((a.completed i callee false).recordCall i callee).1 := by
          rw [h.propagated_completed hi hne]
      _ = a.completed i callee false := hrecord

theorem WellNested.dispatch_completed (h : a.WellNested) (hi : (a.scope i).entered) {g : String}
    {j : Nat} (hg : a.lookup i g = some j) (hj : (a.scope j).entered) {c : Bool}
    (hreturns : (a.completed i j c).isRecursive i = false) :
    (a.completed i j c).dispatch i (.call g c) = (a.completed i j c, .proceed) := by
  have hwithin := Within.completed a i j c
  have hnested := h.completed hi (lt_size_of_entered hj) c
  have hlt : j < (a.completed i j c).scopes.size := hwithin.size ▸ lt_size_of_entered hj
  simp only [dispatch, resolveCall, hwithin.lookup, hg, hwithin.entered, hj, if_true]
  rw [hnested.complete_eq hlt, completed_again h (lt_size_of_entered hi) hreturns, hreturns]
  rfl

/-- A use that has been dispatched, and behind which the body goes on, is idle. -/
theorem WellNested.dispatch_again (h : a.WellNested) (hi : (a.scope i).entered) {s : Stmt}
    (hs : s.isUse) (hd : a.dispatch i s = (b, .proceed)) : b.dispatch i s = (b, .proceed) := by
  have hlt := lt_size_of_entered hi
  cases s with
  | assign x =>
    simp only [dispatch] at hd ⊢
    split at hd
    · rename_i hfunction
      obtain rfl := (Prod.mk.inj hd).1
      have hsame : (a.report .assignToFunction x).isFunction i x = a.isFunction i x := rfl
      rw [hsame, if_pos hfunction, report_eq_self (mem_problems_report a _ x)]
    · rename_i hfunction
      obtain rfl := (Prod.mk.inj hd).1
      have hsame : (a.use i .assigned x).isFunction i x = a.isFunction i x := by
        rw [isFunction, (Notes.use i a .assigned x).within.lookup, isFunction]
      rw [hsame, if_neg hfunction, use_again h hlt]
  | print x =>
    obtain rfl := (Prod.mk.inj hd).1
    rw [dispatch, use_again h hlt]
  | call g c =>
    simp only [dispatch, resolveCall] at hd
    cases hg : a.lookup i g with
    | none =>
      rw [hg] at hd
      obtain rfl := (Prod.mk.inj hd).1
      have hsame : (a.report .unknownFunction g).lookup i g = a.lookup i g := rfl
      simp only [dispatch, resolveCall, hsame, hg, report_eq_self (mem_problems_report a _ g)]
    | some j =>
      rw [hg] at hd
      cases hj : (a.scope j).entered with
      | false => simp [hj] at hd
      | true =>
        simp only [hj, if_true, h.complete_eq (lt_size_of_entered hj)] at hd
        obtain ⟨rfl, hsignal⟩ := Prod.mk.inj hd
        split at hsignal
        · exact Signal.noConfusion hsignal
        · rename_i hreturns
          exact h.dispatch_completed hi hg hj (by simpa using hreturns)
  | declare _ | function _ _ | bare | block _ => simp [Stmt.isUse] at hs

end Analysis

end DefiniteAssignment
