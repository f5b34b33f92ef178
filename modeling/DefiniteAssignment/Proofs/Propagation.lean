import DefiniteAssignment.Proofs.Repetition

/-! What a call does to its caller, told name by name. The contracts of the
called scope are met one after another while the map of the caller changes, and
the called scope may be the caller, a scope around it or one inside it. Still
the outcome for a name is settled by what was known of that name before the
call, so it is one and the same for every order of the bindings. -/
namespace DefiniteAssignment

namespace Contract

/-- The contract of a name in the caller after a call, from the contract `own`
before it and the contract `callee` that the called scope has for the name. The
name may be a function that the caller sees, or bound in a map around it. -/
def propagation (conditional isFunction boundAround : Bool) (callee own : Option Contract) :
    Option Contract :=
  -- A visible function is declared and has a value.
  if isFunction then own else
  match callee, conditional, own with
  -- The name is read.
  | some .external, _, none => some .external
  | some .external, _, some .outer => some .external
  -- The name is assigned.
  | some .outer, false, none => some .outerAssigned
  | some .outer, false, some .external => some .outerAssigned
  | some .outer, false, some .outer => some .outerAssigned
  | some .outer, false, some .inner => some .innerAssigned
  -- The name is to be declared, and nothing more.
  | some .outer, true, none => if boundAround then none else some .outer
  | some .outerAssigned, _, none => if boundAround then none else some .outer
  | _, _, own => own

end Contract

theorem View.met_eq (v : View) (conditional : Bool) (c : Option Contract) :
    v.met conditional c =
      Contract.propagation conditional v.isFunction v.boundAround c v.own := by
  obtain ⟨isFunction, own, boundAround⟩ := v
  cases isFunction with
  | true =>
    simp only [met, after, Contract.propagation, if_true, Option.none_or]
    split <;> rfl
  | false =>
    cases c with
    | none => cases conditional <;> cases own <;> rfl
    | some c =>
      cases own with
      | none => cases c <;> cases conditional <;> cases boundAround <;> rfl
      | some own => cases c <;> cases conditional <;> cases own <;> rfl

namespace Analysis

variable {a : Analysis} {i j : Nat}

/-- A scope that can be called without fault: its map lists a name once, with a
contract of the five kinds, and it passes through scopes of the arena only. -/
structure Callable (a : Analysis) (j : Nat) : Prop where
  lt : j < a.scopes.size
  nodup : (a.scope j).contracts.keys.Nodup
  known : ∀ x mark, (a.scope j).contracts.get? x ≠ some (.alien mark)
  inside : ∀ k ∈ (a.scope j).always, k < a.scopes.size

namespace Callable

theorem entries_known (h : a.Callable j) :
    ∀ e ∈ (a.scope j).contracts.entries, ∀ mark, e.2 ≠ .alien mark := by
  rintro ⟨x, c⟩ he mark rfl
  exact h.known x mark (Table.get?_of_mem h.nodup he)

theorem invoke_eq (h : a.Callable j) (i : Nat) (conditional : Bool) :
    a.invoke i j conditional = (a.completed i j conditional, none) := by
  apply Analysis.invoke_eq h.entries_known
  intro k hk
  rcases List.mem_cons.1 hk with rfl | hk
  · exact h.lt
  · exact h.inside k hk

theorem get?_completed (h : a.Callable j) (hi : i < a.scopes.size) (conditional : Bool)
    (x : String) :
    ((a.completed i j conditional).scope i).contracts.get? x =
      (a.view i x).met conditional ((a.scope j).contracts.get? x) := by
  rw [contracts_completed]
  exact get?_propagate _ conditional _ a hi h.nodup h.entries_known x

theorem mem_problems_completed_iff (h : a.Callable j) (hi : i < a.scopes.size)
    (conditional : Bool) {p : Problem} :
    p ∈ (a.completed i j conditional).problems.toList ↔
      p ∈ a.problems.toList ∨ ∃ x, p = ⟨.notAssigned, x⟩ ∧
        (a.scope j).contracts.get? x = some .external ∧ (a.view i x).readsUnassigned .read := by
  rw [problems_completed]
  exact mem_problems_propagate_iff _ conditional _ a hi h.nodup h.entries_known

end Callable

def rebind (a : Analysis) (j : Nat) (t : Table Contract) : Analysis :=
  a.update j fun s => { s with contracts := t }

section Reordered

variable {t : Table Contract}

theorem size_rebind (a : Analysis) (j : Nat) (t : Table Contract) :
    (a.rebind j t).scopes.size = a.scopes.size :=
  size_update a j _

theorem scope_rebind (hj : j < a.scopes.size) (t : Table Contract) (k : Nat) :
    (a.rebind j t).scope k =
      if k = j then { a.scope j with contracts := t } else a.scope k := by
  rw [rebind, scope_update]
  simp only [hj, and_true]

theorem get?_rebind (h : a.Callable j) (ht : t.entries.Perm (a.scope j).contracts.entries)
    (k : Nat) (x : String) :
    ((a.rebind j t).scope k).contracts.get? x = (a.scope k).contracts.get? x := by
  rw [scope_rebind h.lt]
  split
  · rename_i hk
    rw [hk]
    exact Table.get?_eq_of_perm h.nodup ht x
  · rfl

theorem Callable.rebind (h : a.Callable j) (ht : t.entries.Perm (a.scope j).contracts.entries) :
    (a.rebind j t).Callable j where
  lt := by
    rw [size_rebind]
    exact h.lt
  nodup := by
    rw [scope_rebind h.lt, if_pos rfl]
    exact (ht.map Prod.fst).nodup_iff.2 h.nodup
  known x := by
    rw [get?_rebind h ht]
    exact h.known x
  inside := by
    rw [scope_rebind h.lt, if_pos rfl, size_rebind]
    exact h.inside

theorem view_rebind (h : a.Callable j) (ht : t.entries.Perm (a.scope j).contracts.entries)
    (i : Nat) (x : String) : (a.rebind j t).view i x = a.view i x := by
  have houtline : ∀ k, ((a.rebind j t).scope k).outline = (a.scope k).outline := by
    intro k
    rw [scope_rebind h.lt]
    split
    · rename_i hk
      rw [hk]
      rfl
    · rfl
  apply view_congr
  · exact fun k => (congrArg Scope.enclosing (houtline k) :)
  · exact fun k => (congrArg Scope.functions (houtline k) :)
  · exact fun k => get?_rebind h ht k x

theorem get?_completed_rebind (h : a.Callable j)
    (ht : t.entries.Perm (a.scope j).contracts.entries) (hi : i < a.scopes.size)
    (conditional : Bool) (k : Nat) (x : String) :
    (((a.rebind j t).completed i j conditional).scope k).contracts.get? x =
      ((a.completed i j conditional).scope k).contracts.get? x := by
  have hi' : i < (a.rebind j t).scopes.size := (size_rebind a j t).symm ▸ hi
  by_cases hk : k = i
  · rw [hk, (h.rebind ht).get?_completed hi', h.get?_completed hi, view_rebind h ht,
      get?_rebind h ht]
  · rw [(Within.completed _ i j conditional).other k hk,
      (Within.completed a i j conditional).other k hk, get?_rebind h ht]

theorem mem_problems_completed_rebind (h : a.Callable j)
    (ht : t.entries.Perm (a.scope j).contracts.entries) (hi : i < a.scopes.size)
    (conditional : Bool) {p : Problem} :
    p ∈ ((a.rebind j t).completed i j conditional).problems.toList ↔
      p ∈ (a.completed i j conditional).problems.toList := by
  have hi' : i < (a.rebind j t).scopes.size := (size_rebind a j t).symm ▸ hi
  rw [(h.rebind ht).mem_problems_completed_iff hi', h.mem_problems_completed_iff hi]
  simp only [view_rebind h ht, get?_rebind h ht]
  rfl

end Reordered

/-- A call by scope `i` of scope `j`, whichever these are, meets the contracts of
`j` name by name, in any order with the same outcome, and touches only `i`. -/
theorem invoke_pointwise (hi : i < a.scopes.size) (h : a.Callable j) (conditional : Bool) :
    (a.invoke i j conditional).2 = none ∧
      (∀ x, ((a.invoke i j conditional).1.scope i).contracts.get? x =
        Contract.propagation conditional (a.isFunction i x) ((a.contracts i).boundAround x)
          ((a.scope j).contracts.get? x) ((a.scope i).contracts.get? x)) ∧
      (∀ p, p ∈ (a.invoke i j conditional).1.problems.toList ↔ p ∈ a.problems.toList ∨
        ∃ x, p = ⟨.notAssigned, x⟩ ∧ (a.scope j).contracts.get? x = some .external ∧
          a.isFunction i x = false ∧ (a.scope i).contracts.get? x = some .inner) ∧
      (∀ t : Table Contract, t.entries.Perm (a.scope j).contracts.entries →
        ((a.rebind j t).invoke i j conditional).2 = none ∧
        (∀ k x, (((a.rebind j t).invoke i j conditional).1.scope k).contracts.get? x =
          ((a.invoke i j conditional).1.scope k).contracts.get? x) ∧
        ∀ p, p ∈ ((a.rebind j t).invoke i j conditional).1.problems.toList ↔
          p ∈ (a.invoke i j conditional).1.problems.toList) ∧
      (j = i → a.invoke i j true = (a, none)) ∧
      (a.invoke i j conditional).1.scopes.size = a.scopes.size ∧
      ∀ k, k ≠ i → (a.invoke i j conditional).1.scope k = a.scope k := by
  have hwithin := Within.completed a i j conditional
  rw [h.invoke_eq]
  refine ⟨rfl, ?_, ?_, ?_, ?_, hwithin.size, hwithin.other⟩
  · intro x
    rw [h.get?_completed hi, View.met_eq]
    rfl
  · intro p
    rw [h.mem_problems_completed_iff hi]
    simp only [readsUnassigned_iff, true_and]
  · intro t ht
    rw [(h.rebind ht).invoke_eq]
    exact ⟨rfl, get?_completed_rebind h ht hi conditional,
      fun p => mem_problems_completed_rebind h ht hi conditional⟩
  · rintro rfl
    rw [h.invoke_eq]
    exact Prod.ext (propagated_self h.nodup) rfl

def inward : Analysis :=
  ((((({} : Analysis).addRoot []).addFunction 0 "F" []).addFunction 1 "G" []).bind 1
    [("x", .external), ("y", .outer), ("w", .outerAssigned)]).bind 2
      [("x", .inner), ("y", .external)]

theorem callable_inward : inward.Callable 1 where
  lt := by decide
  nodup := by decide
  known := by
    intro x mark hx
    have hentry := Table.mem_entries_of_get? hx
    have hentries : (inward.scope 1).contracts.entries =
        [("x", .external), ("y", .outer), ("w", .outerAssigned)] := rfl
    simp [hentries] at hentry
  inside := by
    have halways : (inward.scope 1).always = [] := rfl
    simp [halways]

theorem invoke_pointwise_inward :
    2 < inward.scopes.size ∧ inward.Callable 1 ∧
      ((inward.invoke 2 1 false).1.scope 2).contracts.get? "x" = some .inner ∧
      ((inward.invoke 2 1 false).1.scope 2).contracts.get? "y" = some .outerAssigned ∧
      ((inward.invoke 2 1 false).1.scope 2).contracts.get? "w" = none ∧
      ⟨.notAssigned, "x"⟩ ∈ (inward.invoke 2 1 false).1.problems.toList ∧
      (((inward.rebind 1 ⟨(inward.scope 1).contracts.entries.reverse⟩).invoke 2 1 false).1.scope
        2).contracts.get? "y" = ((inward.invoke 2 1 false).1.scope 2).contracts.get? "y" ∧
      inward.invoke 1 1 true = (inward, none) ∧
      (inward.invoke 2 1 false).1.scope 1 = inward.scope 1 := by
  have hcaller : 2 < inward.scopes.size := by decide
  obtain ⟨_, hcontract, hproblem, horder, _, _, hother⟩ :=
    invoke_pointwise hcaller callable_inward false
  have hself := (invoke_pointwise callable_inward.lt callable_inward true).2.2.2.2.1 rfl
  exact ⟨hcaller, callable_inward, hcontract "x", hcontract "y", hcontract "w",
    (hproblem _).2 (.inr ⟨"x", rfl, rfl, rfl, rfl⟩),
    (horder _ (List.reverse_perm _)).2.1 2 "y", hself, hother 1 (by decide)⟩

end Analysis

end DefiniteAssignment
