import DefiniteAssignment.Contract.Map
import Mathlib.Logic.Relation

/-! Contract maps told by their history. A tree of maps grows by writes and by
new maps inside those that are there, in any order. What a map answers then is
read off these operations alone: those on the map itself, and those on the maps
around it, whether they came before the map was made or after. -/
namespace DefiniteAssignment

namespace ContractForest

/-- The operations by which one empty map has become a tree of `n` maps. Each is
about a map that was there. -/
inductive History : Nat → Type where
  | root : History 1
  | push {n : Nat} (h : History n) (i : Fin n) : History (n + 1)
  | set {n : Nat} (h : History n) (i : Fin n) (x : String) (c : Contract) : History n

namespace History

def forest {n : Nat} : History n → ContractForest
  | root => {}
  | push h i => h.forest.push i
  | set h i x c => h.forest.set i x c

def host? {n : Nat} : History n → Nat → Option Nat
  | root, _ => none
  | @push k h i, m => if m = k then some i else h.host? m
  | set h _ _ _, m => h.host? m

def Surrounds {n : Nat} (h : History n) (p m : Nat) : Prop :=
  Relation.TransGen (fun m p => h.host? m = some p) m p

def Sets {n : Nat} : History n → Nat → String → Prop
  | root, _, _ => False
  | push h _, m, x => h.Sets m x
  | set h i y _, m, x => m = i ∧ x = y ∨ h.Sets m x

def last? {n : Nat} : History n → Nat → String → Option Contract
  | root, _, _ => none
  | push h _, m, x => h.last? m x
  | set h i y c, m, x => if m = i ∧ x = y then some c else h.last? m x

/-- The names set on the map, in the order of the writes and as often. -/
def names {n : Nat} : History n → Nat → List String
  | root, _ => []
  | push h _, m => h.names m
  | set h i y _, m => if m = i then h.names m ++ [y] else h.names m

variable {n : Nat}

theorem size_forest (h : History n) : h.forest.size = n := by
  induction h with
  | root => rfl
  | push h i ih =>
    simp only [forest, size, ContractForest.push, Array.size_push] at ih ⊢
    omega
  | set h i x c ih =>
    simp only [forest, size, ContractForest.set, Array.size_modify] at ih ⊢
    exact ih

theorem own_forest_root (m : Nat) : root.forest.own m = {} := by
  cases m with
  | zero => rfl
  | succ m => rfl

theorem own_forest_set (h : History n) (i : Fin n) (x : String) (c : Contract) (m : Nat) :
    (h.set i x c).forest.own m =
      if m = i then (h.forest.own i).insert x c else h.forest.own m := by
  apply own_set
  rw [size_forest]
  exact i.isLt

theorem lt_of_host? (h : History n) {m p : Nat} (hm : h.host? m = some p) : p < m ∧ m < n := by
  induction h with
  | root => simp [host?] at hm
  | push h i ih =>
    simp only [host?] at hm
    split at hm
    · have := i.isLt
      obtain rfl : (i : Nat) = p := by simpa using hm
      omega
    · have := ih hm
      omega
  | set h i x c ih => exact ih hm

theorem around_forest (h : History n) (m : Nat) :
    h.forest.around m = (h.host? m).elim [] fun p => p :: h.forest.around p := by
  induction h with
  | root =>
    cases m with
    | zero => rfl
    | succ m => rfl
  | @push k h i ih =>
    have hi := i.isLt
    simp only [forest, around_push, host?, size_forest]
    split
    · simp only [Option.elim_some]
      rw [if_neg (by omega)]
    · rw [ih]
      cases hm : h.host? m with
      | none => rfl
      | some p =>
        have := h.lt_of_host? hm
        simp only [Option.elim_some]
        rw [if_neg (by omega)]
  | set h i x c ih =>
    simp only [forest, around_set]
    exact ih

theorem mem_around_iff (h : History n) (p m : Nat) :
    p ∈ h.forest.around m ↔ h.Surrounds p m := by
  -- A map is younger than its host.
  induction m using Nat.strongRecOn with
  | _ m ih =>
    rw [around_forest, Surrounds, Relation.TransGen.head'_iff]
    cases hm : h.host? m with
    | none => simp
    | some q =>
      simp only [Option.elim_some, List.mem_cons, ih q (h.lt_of_host? hm).1, Option.some.injEq,
        exists_eq_left', Relation.reflTransGen_iff_eq_or_transGen]
      rfl

theorem get?_own (h : History n) (m : Nat) (x : String) :
    (h.forest.own m).get? x = h.last? m x := by
  induction h with
  | root =>
    rw [own_forest_root]
    rfl
  | push h i ih =>
    rw [forest, own_push]
    exact ih
  | set h i y c ih =>
    rw [own_forest_set, last?]
    by_cases hm : m = i
    · rw [if_pos hm, ← hm, Table.get?_insert, ih]
      simp only [hm, true_and]
    · rw [if_neg hm, if_neg (fun hy => hm hy.1), ih]

theorem nodup_keys_own (h : History n) (m : Nat) : (h.forest.own m).keys.Nodup := by
  induction h with
  | root =>
    rw [own_forest_root]
    exact List.nodup_nil
  | push h i ih =>
    rw [forest, own_push]
    exact ih
  | set h i y c ih =>
    rw [own_forest_set]
    split
    · rename_i hm
      rw [← hm]
      exact Table.nodup_keys_insert ih y c
    · exact ih

theorem keys_own (h : History n) (m : Nat) :
    (h.forest.own m).keys = (h.names m).eraseDups := by
  induction h with
  | root =>
    rw [own_forest_root]
    rfl
  | push h i ih =>
    rw [forest, own_push]
    exact ih
  | set h i y c ih =>
    rw [own_forest_set, names]
    split
    · rename_i hm
      rw [← hm, Table.keys_insert, ih, List.eraseDups_append]
      by_cases hy : y ∈ h.names m
      · simp [List.removeAll, hy]
      · simp [List.removeAll, hy, List.eraseDups_cons]
    · exact ih

theorem isSome_last?_iff (h : History n) (m : Nat) (x : String) :
    (h.last? m x).isSome ↔ h.Sets m x := by
  induction h with
  | root => simp [last?, Sets]
  | push h i ih => exact ih
  | set h i y c ih =>
    rw [last?, Sets]
    split
    · rename_i hy
      simp [hy]
    · rename_i hy
      simp [hy, ih]

theorem contains_own_iff (h : History n) (m : Nat) (x : String) :
    (h.forest.own m).contains x ↔ h.Sets m x := by
  rw [Table.contains, get?_own]
  exact h.isSome_last?_iff m x

theorem any_around_iff (h : History n) (m : Nat) (q : Table Contract → Bool) :
    (h.forest.view m).around.any q ↔ ∃ p, h.Surrounds p m ∧ q (h.forest.own p) := by
  simp only [view, List.any_map, List.any_eq_true, Function.comp_apply, mem_around_iff]

theorem boundAround_iff (h : History n) (m : Nat) (x : String) :
    (h.forest.view m).boundAround x ↔ ∃ p, h.Surrounds p m ∧ h.Sets p x := by
  rw [ContractMap.boundAround, any_around_iff]
  simp only [contains_own_iff]

theorem declaredAround_iff (h : History n) (m : Nat) (x : String) :
    (h.forest.view m).declaredAround x ↔
      ∃ p, h.Surrounds p m ∧ (h.last? p x = some .inner ∨ h.last? p x = some .innerAssigned) := by
  rw [ContractMap.declaredAround, any_around_iff]
  refine exists_congr fun p => and_congr_right fun _ => ?_
  rw [get?_own]
  cases h.last? p x with
  | none => simp
  | some c => cases c <;> simp [Contract.isDeclared]

theorem contains_iff (h : History n) (m : Nat) (x : String) :
    (h.forest.view m).contains x ↔ h.Sets m x ∨ ∃ p, h.Surrounds p m ∧ h.Sets p x := by
  rw [ContractMap.contains, Bool.or_eq_true, boundAround_iff]
  exact or_congr_left (h.contains_own_iff m x)

theorem resolve_of_sets (h : History n) {m : Nat} {x : String} (hx : h.Sets m x) :
    (h.forest.view m).resolve x = (h.forest.view m).get? x := by
  obtain ⟨c, hc⟩ := Option.isSome_iff_exists.1 ((h.contains_own_iff m x).2 hx)
  have hget : (h.forest.view m).get? x = some c := hc
  rw [ContractMap.resolve, hget]

theorem resolve_of_not_sets (h : History n) {m : Nat} {x : String} (hx : ¬ h.Sets m x) :
    (h.forest.view m).resolve x =
      if (h.forest.view m).boundAround x then some .outer else none := by
  have hget : (h.forest.view m).get? x = none := by
    rw [← Option.not_isSome_iff_eq_none]
    exact fun hsome => hx ((h.contains_own_iff m x).1 hsome)
  rw [ContractMap.resolve, hget]

/-- What the maps of a tree answer is what the history of the tree tells. Its
bindings and their order are a map's own: no operation but a write to the map
itself changes them. -/
theorem view_forest (h : History n) (m : Nat) (x : String) :
    (h.forest.view m).get? x = h.last? m x ∧
      ((h.forest.view m).contains x ↔ h.Sets m x ∨ ∃ p, h.Surrounds p m ∧ h.Sets p x) ∧
      (h.Sets m x → (h.forest.view m).resolve x = (h.forest.view m).get? x) ∧
      (¬ h.Sets m x → (∃ p, h.Surrounds p m ∧ h.Sets p x) →
        (h.forest.view m).resolve x = some .outer) ∧
      (¬ h.Sets m x → (¬ ∃ p, h.Surrounds p m ∧ h.Sets p x) →
        (h.forest.view m).resolve x = none) ∧
      ((h.forest.view m).resolve x = none ↔ (h.forest.view m).contains x = false) ∧
      ((h.forest.view m).declaredAround x ↔ ∃ p, h.Surrounds p m ∧
        (h.last? p x = some .inner ∨ h.last? p x = some .innerAssigned)) ∧
      (h.forest.view m).own.entries.map Prod.fst = (h.names m).eraseDups ∧
      ((h.forest.view m).own.entries.map Prod.fst).Nodup ∧
      (∀ e ∈ (h.forest.view m).own.entries, h.last? m e.1 = some e.2) ∧
      (∀ (i : Fin n) y c, m ≠ i → ((h.set i y c).forest.view m).own = (h.forest.view m).own) ∧
      ∀ i : Fin n, ((h.push i).forest.view m).own = (h.forest.view m).own := by
  refine ⟨h.get?_own m x, h.contains_iff m x, h.resolve_of_sets, ?_, ?_,
    ContractMap.resolve_eq_none_iff _ x, h.declaredAround_iff m x, h.keys_own m,
    h.nodup_keys_own m, ?_, ?_, ?_⟩
  · intro hx haround
    rw [h.resolve_of_not_sets hx, if_pos ((h.boundAround_iff m x).2 haround)]
  · intro hx haround
    rw [h.resolve_of_not_sets hx, if_neg (mt (h.boundAround_iff m x).1 haround)]
  · rintro ⟨y, c⟩ he
    rw [← get?_own]
    exact Table.get?_of_mem (h.nodup_keys_own m) he
  · intro i y c hm
    exact (h.own_forest_set i y c m).trans (if_neg hm)
  · intro i
    exact own_push h.forest i m

def belated : History 4 :=
  ((((((root.push 0).push 1).push 0).set 2 "b" .external).set 2 "a" .innerAssigned).set 2 "b"
    .outer).set 0 "x" .inner

theorem view_forest_belated :
    belated.Surrounds 0 2 ∧ ¬ belated.Sets 2 "x" ∧
      (belated.forest.view 2).get? "x" = none ∧
      (belated.forest.view 2).contains "x" ∧
      (belated.forest.view 2).resolve "x" = some .outer ∧
      (belated.forest.view 2).declaredAround "x" ∧
      (belated.forest.view 2).get? "b" = some .outer ∧
      (belated.forest.view 2).own.entries.map Prod.fst = ["b", "a"] ∧
      ((belated.set 0 "b" .innerAssigned).forest.view 2).own = (belated.forest.view 2).own := by
  have haround : belated.Surrounds 0 2 := .tail (.single (b := 1) rfl) rfl
  have hset : belated.Sets 0 "x" := .inl ⟨rfl, rfl⟩
  have hunset : ¬ belated.Sets 2 "x" := by simp [belated, Sets]
  obtain ⟨hget, hcontains, _, houter, _, _, hdeclared, hkeys, _, _, hwrite, _⟩ :=
    view_forest belated 2 "x"
  exact ⟨haround, hunset, hget, hcontains.2 (.inr ⟨0, haround, hset⟩),
    houter hunset ⟨0, haround, hset⟩, hdeclared.2 ⟨0, haround, .inl rfl⟩,
    (view_forest belated 2 "b").1, hkeys, hwrite 0 "b" .innerAssigned (by decide)⟩

end History

end ContractForest

end DefiniteAssignment
