import DefiniteAssignment.Proofs.Effect

/-! How the arena grows. Entering a scope places the scopes of its functions at
the end of the arena, inside the entered scope, and nothing that is there
already goes away; so the scopes form a tree, whose inner nodes are entered. -/
namespace DefiniteAssignment

theorem Stmt.mem_filterMap_function? {body inner : List Stmt} {f : String} :
    (f, inner) ∈ body.filterMap Stmt.function? ↔ .function f inner ∈ body := by
  rw [List.mem_filterMap]
  constructor
  · rintro ⟨s, hs, hf⟩
    cases s with
    | function g body =>
      obtain ⟨rfl, rfl⟩ : g = f ∧ body = inner := by simpa [function?] using hf
      exact hs
    | _ => simp [function?] at hf
  · intro h
    exact ⟨_, h, rfl⟩

namespace Analysis

/-- What the registration of functions of scope `i` changes: their scopes are
placed behind those of the arena, and the scope finds them by name. -/
structure Registers (i : Nat) (functions : List (String × List Stmt)) (a b : Analysis) : Prop where
  size : a.scopes.size ≤ b.scopes.size
  other : ∀ j, j < a.scopes.size → j ≠ i → b.scope j = a.scope j
  own : ∃ t, b.scope i = { a.scope i with functions := t }
  born : ∀ j, a.scopes.size ≤ j → j < b.scopes.size → ∃ f body, (f, body) ∈ functions ∧
    b.scope j = { name := f, body, enclosing := i :: (a.scope i).enclosing }
  found : ∀ f j, (b.scope i).functions.get? f = some j →
    (a.scope i).functions.get? f = some j ∨
      a.scopes.size ≤ j ∧ j < b.scopes.size ∧ (b.scope j).name = f
  problems : a.problems.toList ⊆ b.problems.toList

namespace Registers

variable {i : Nat} {functions : List (String × List Stmt)} {a b c : Analysis}

theorem refl (i : Nat) (functions : List (String × List Stmt)) (a : Analysis) :
    Registers i functions a a where
  size := Nat.le_refl _
  other _ _ _ := rfl
  own := ⟨_, rfl⟩
  born j hj hj' := by omega
  found f j h := .inl h
  problems := fun _ h => h

theorem trans (hi : i < a.scopes.size) (h : Registers i functions a b)
    (h' : Registers i functions b c) : Registers i functions a c where
  size := Nat.le_trans h.size h'.size
  other j hj hne := (h'.other j (Nat.lt_of_lt_of_le hj h.size) hne).trans (h.other j hj hne)
  own := by
    obtain ⟨t, ht⟩ := h.own
    obtain ⟨t', ht'⟩ := h'.own
    exact ⟨t', by rw [ht', ht]⟩
  born j hj hj' := by
    obtain ⟨t, ht⟩ := h.own
    by_cases hb : j < b.scopes.size
    · obtain ⟨f, body, hmem, hscope⟩ := h.born j hj hb
      exact ⟨f, body, hmem, (h'.other j hb (by omega)).trans hscope⟩
    · obtain ⟨f, body, hmem, hscope⟩ := h'.born j (Nat.le_of_not_lt hb) hj'
      exact ⟨f, body, hmem, by rw [hscope, ht]⟩
  found f j hf := by
    rcases h'.found f j hf with hb | ⟨hle, hlt, hname⟩
    · rcases h.found f j hb with ha | ⟨hle, hlt, hname⟩
      · exact .inl ha
      · exact .inr ⟨hle, Nat.lt_of_lt_of_le hlt h'.size, by rw [h'.other j hlt (by omega), hname]⟩
    · exact .inr ⟨Nat.le_trans h.size hle, hlt, hname⟩
  problems := List.Subset.trans h.problems h'.problems

end Registers

theorem scope_registered {a : Analysis} {i : Nat} (hi : i < a.scopes.size) (f : String)
    (body : List Stmt) (j : Nat) :
    ((a.addFunction i f body).setFunction i f a.scopes.size).scope j =
      if j = i then { a.scope i with functions := (a.scope i).functions.insert f a.scopes.size }
      else if j = a.scopes.size then { name := f, body, enclosing := i :: (a.scope i).enclosing }
      else a.scope j := by
  have hsize : (a.addFunction i f body).scopes.size = a.scopes.size + 1 := by simp [addFunction]
  have hadd : ∀ j, (a.addFunction i f body).scope j =
      if j = a.scopes.size then { name := f, body, enclosing := i :: (a.scope i).enclosing }
      else a.scope j := by
    intro j
    simp only [scope, addFunction, Array.getElem?_push]
    split <;> rfl
  rw [setFunction, scope_update, hsize, hadd, hadd]
  by_cases hj : j = i
  · rw [if_pos ⟨hj, by omega⟩, if_pos hj, if_neg (by omega)]
  · rw [if_neg (fun h => hj h.1), if_neg hj]

theorem Registers.registerOne {i : Nat} {functions : List (String × List Stmt)} {a : Analysis}
    (hi : i < a.scopes.size) {f : String} {body : List Stmt} (hf : (f, body) ∈ functions) :
    Registers i functions a (a.registerOne i f body) := by
  unfold Analysis.registerOne
  split
  · exact { refl i functions a with problems := problems_report_subset a _ f }
  · dsimp only
    have hscope := scope_registered hi f body
    have hsize : ((a.addFunction i f body).setFunction i f a.scopes.size).scopes.size =
        a.scopes.size + 1 := by
      simp [setFunction, addFunction]
    constructor
    · rw [hsize]
      exact Nat.le_succ _
    · intro j hj hne
      rw [hscope, if_neg hne, if_neg (by omega)]
    · exact ⟨_, by rw [hscope, if_pos rfl]⟩
    · intro j hj hj'
      obtain rfl : j = a.scopes.size := by omega
      exact ⟨f, body, hf, by rw [hscope, if_neg (by omega), if_pos rfl]⟩
    · intro g j hg
      rw [hscope, if_pos rfl, Table.get?_insert] at hg
      split at hg
      · rename_i hgf
        obtain rfl : a.scopes.size = j := by simpa using hg
        refine .inr ⟨Nat.le_refl _, by omega, ?_⟩
        rw [hscope, if_neg (by omega), if_pos rfl, hgf]
      · exact .inl hg
    · exact fun _ h => h

theorem Registers.register {i : Nat} {functions : List (String × List Stmt)}
    (l : List (String × List Stmt)) (a : Analysis) (hi : i < a.scopes.size)
    (hl : ∀ e ∈ l, e ∈ functions) : Registers i functions a (a.register i l) := by
  induction l generalizing a with
  | nil => exact .refl i functions a
  | cons e rest ih =>
    have hone := Registers.registerOne hi (hl e List.mem_cons_self)
    exact hone.trans hi
      (ih _ (Nat.lt_of_lt_of_le hi hone.size) fun e he => hl e (List.mem_cons_of_mem _ he))

structure Enters (i : Nat) (a b : Analysis) : Prop where
  size : a.scopes.size ≤ b.scopes.size
  other : ∀ j, j < a.scopes.size → j ≠ i → b.scope j = a.scope j
  own : ∃ t, b.scope i = { a.scope i with entered := true, functions := t }
  born : ∀ j, a.scopes.size ≤ j → j < b.scopes.size → ∃ f body,
    (f, body) ∈ (a.scope i).body.filterMap Stmt.function? ∧
      b.scope j = { name := f, body, enclosing := i :: (a.scope i).enclosing }
  found : ∀ f j, (b.scope i).functions.get? f = some j →
    (a.scope i).functions.get? f = some j ∨
      a.scopes.size ≤ j ∧ j < b.scopes.size ∧ (b.scope j).name = f
  problems : a.problems.toList ⊆ b.problems.toList

def marked (a : Analysis) (i : Nat) : Analysis :=
  { a.update i fun s => { s with entered := true } with count := a.count + 1 }

theorem enter_eq (a : Analysis) (i : Nat) :
    a.enter i = (a.marked i).register i ((a.scope i).body.filterMap Stmt.function?) := rfl

@[simp] theorem size_marked (a : Analysis) (i : Nat) :
    (a.marked i).scopes.size = a.scopes.size :=
  size_update a i _

theorem scope_marked (a : Analysis) {i : Nat} (hi : i < a.scopes.size) (j : Nat) :
    (a.marked i).scope j = if j = i then { a.scope i with entered := true } else a.scope j := by
  have h := scope_update a i j fun s => { s with entered := true }
  simp only [hi, and_true] at h
  exact h

theorem exists_scope_marked (a : Analysis) (i j : Nat) :
    ∃ entered, (a.marked i).scope j = { a.scope j with entered } := by
  have h := scope_update a i j fun s => { s with entered := true }
  split at h
  · rename_i hj
    exact ⟨true, h.trans (by rw [hj.1])⟩
  · exact ⟨_, h⟩

@[simp] theorem enclosing_marked (a : Analysis) (i j : Nat) :
    ((a.marked i).scope j).enclosing = (a.scope j).enclosing := by
  obtain ⟨_, h⟩ := a.exists_scope_marked i j
  rw [h]

@[simp] theorem functions_marked (a : Analysis) (i j : Nat) :
    ((a.marked i).scope j).functions = (a.scope j).functions := by
  obtain ⟨_, h⟩ := a.exists_scope_marked i j
  rw [h]

@[simp] theorem contracts_marked (a : Analysis) (i j : Nat) :
    ((a.marked i).scope j).contracts = (a.scope j).contracts := by
  obtain ⟨_, h⟩ := a.exists_scope_marked i j
  rw [h]

theorem Enters.enter (a : Analysis) {i : Nat} (hi : i < a.scopes.size) : Enters i a (a.enter i) := by
  have h := Registers.register ((a.scope i).body.filterMap Stmt.function?) (a.marked i)
    (by simpa using hi) (fun _ he => he)
  have hown : (a.marked i).scope i = { a.scope i with entered := true } := by
    rw [scope_marked a hi, if_pos rfl]
  rw [enter_eq]
  constructor
  · simpa using h.size
  · intro j hj hne
    rw [h.other j (by simpa using hj) hne, scope_marked a hi, if_neg hne]
  · obtain ⟨t, ht⟩ := h.own
    exact ⟨t, by rw [ht, hown]⟩
  · intro j hj hj'
    obtain ⟨f, body, hmem, hscope⟩ := h.born j (by simpa using hj) hj'
    exact ⟨f, body, hmem, by rw [hscope, hown]⟩
  · intro f j hf
    have hfound := h.found f j hf
    rw [hown, size_marked] at hfound
    exact hfound
  · exact h.problems

structure Extends (a b : Analysis) : Prop where
  size : a.scopes.size ≤ b.scopes.size
  scope : ∀ i, i < a.scopes.size → (a.scope i).Extends (b.scope i)
  problems : a.problems.toList ⊆ b.problems.toList

theorem Within.extends {i : Nat} {a b : Analysis} (h : Within i a b) : Extends a b where
  size := Nat.le_of_eq h.size.symm
  scope j _ := by
    by_cases hj : j = i
    · rw [hj]
      exact h.extends_
    · rw [h.other j hj]
      exact .refl _
  problems := h.problems

theorem Enters.extends {i : Nat} {a b : Analysis} (h : Enters i a b)
    (hi : (a.scope i).entered = false) : Extends a b where
  size := h.size
  scope j hj := by
    by_cases hne : j = i
    · obtain ⟨t, ht⟩ := h.own
      rw [hne, ht]
      exact ⟨rfl, rfl, fun _ => rfl, by simp [hi], fun _ => id, fun _ => id, id⟩
    · rw [h.other j hj hne]
      exact .refl _
  problems := h.problems

theorem scope_of_size_le {a : Analysis} {i : Nat} (h : a.scopes.size ≤ i) :
    a.scope i = { name := "", body := [] } := by
  simp [scope, Array.getElem?_eq_none h, default, instInhabitedScope.default]

theorem scope_empty (i : Nat) : ({} : Analysis).scope i = { name := "", body := [] } :=
  scope_of_size_le (Nat.zero_le i)

namespace Extends

variable {a b c : Analysis}

theorem refl (a : Analysis) : Extends a a :=
  ⟨Nat.le_refl _, fun _ _ => .refl _, fun _ => id⟩

theorem trans (h : Extends a b) (h' : Extends b c) : Extends a c where
  size := Nat.le_trans h.size h'.size
  scope i hi := (h.scope i hi).trans (h'.scope i (Nat.lt_of_lt_of_le hi h.size))
  problems := List.Subset.trans h.problems h'.problems

theorem entered (h : Extends a b) {i : Nat} (hi : (a.scope i).entered) : (b.scope i).entered :=
  (h.scope i (lt_size_of_entered hi)).entered hi

theorem bound (h : Extends a b) {i : Nat} {x : String}
    (hx : ((a.scope i).contracts.get? x).isSome) : ((b.scope i).contracts.get? x).isSome := by
  by_cases hi : i < a.scopes.size
  · exact (h.scope i hi).bound x hx
  · simp [scope_of_size_le (Nat.le_of_not_lt hi)] at hx

theorem always (h : Extends a b) {i k : Nat} (hk : k ∈ (a.scope i).always) :
    k ∈ (b.scope i).always := by
  by_cases hi : i < a.scopes.size
  · exact (h.scope i hi).always hk
  · simp [scope_of_size_le (Nat.le_of_not_lt hi)] at hk

theorem isRecursive (h : Extends a b) {i : Nat} (hr : a.isRecursive i) : b.isRecursive i := by
  by_cases hi : i < a.scopes.size
  · exact (h.scope i hi).recursive hr
  · simp [Analysis.isRecursive, scope_of_size_le (Nat.le_of_not_lt hi)] at hr

end Extends

theorem scope_addRoot (a : Analysis) (body : List Stmt) (i : Nat) : (a.addRoot body).scope i =
    if i = a.scopes.size then { name := Scope.rootName, body } else a.scope i := by
  simp only [scope, addRoot, Array.getElem?_push]
  split <;> rfl

theorem findings_addRoot (a : Analysis) (body : List Stmt) (i : Nat) :
    ((a.addRoot body).scope i).findings = (a.scope i).findings := by
  rw [scope_addRoot]
  split
  · rename_i hi
    rw [hi, scope_of_size_le (Nat.le_refl _)]
    rfl
  · rfl

namespace Enters

variable {i : Nat} {a b : Analysis}

theorem scope_cases (h : Enters i a b) (j : Nat) : j = i ∨ j < a.scopes.size ∧ b.scope j = a.scope j ∨
    a.scopes.size ≤ j ∧ ∃ name body enclosing, b.scope j = { name, body, enclosing } := by
  by_cases hj : j < a.scopes.size
  · by_cases hne : j = i
    · exact .inl hne
    · exact .inr (.inl ⟨hj, h.other j hj hne⟩)
  · by_cases hb : j < b.scopes.size
    · obtain ⟨f, body, _, hborn⟩ := h.born j (Nat.le_of_not_lt hj) hb
      exact .inr (.inr ⟨Nat.le_of_not_lt hj, f, body, _, hborn⟩)
    · exact .inr (.inr ⟨Nat.le_of_not_lt hj, _, _, _, scope_of_size_le (Nat.le_of_not_lt hb)⟩)

theorem findings (h : Enters i a b) (j : Nat) : (b.scope j).findings = (a.scope j).findings := by
  rcases h.scope_cases j with rfl | ⟨_, hsame⟩ | ⟨hle, name, body, enclosing, hscope⟩
  · obtain ⟨t, ht⟩ := h.own
    rw [ht]
    rfl
  · rw [hsame]
  · rw [hscope, scope_of_size_le hle]
    rfl

theorem entered_iff (h : Enters i a b) (j : Nat) :
    (b.scope j).entered ↔ j = i ∨ (a.scope j).entered := by
  by_cases hne : j = i
  · obtain ⟨t, ht⟩ := h.own
    simp [hne, ht]
  · rcases h.scope_cases j with heq | ⟨_, hsame⟩ | ⟨hle, name, body, enclosing, hscope⟩
    · exact absurd heq hne
    · simp [hsame, hne]
    · simp [hscope, scope_of_size_le hle, hne]

theorem name (h : Enters i a b) {j : Nat} (hj : j < a.scopes.size) :
    (b.scope j).name = (a.scope j).name := by
  rcases h.scope_cases j with rfl | ⟨_, hsame⟩ | ⟨hle, _⟩
  · obtain ⟨t, ht⟩ := h.own
    rw [ht]
  · rw [hsame]
  · omega

theorem enclosing (h : Enters i a b) {j : Nat} (hj : j < a.scopes.size) :
    (b.scope j).enclosing = (a.scope j).enclosing := by
  rcases h.scope_cases j with rfl | ⟨_, hsame⟩ | ⟨hle, _⟩
  · obtain ⟨t, ht⟩ := h.own
    rw [ht]
  · rw [hsame]
  · omega

end Enters

/-- What holds of every body holds of every body after a scope is entered, if it
passes from a body to the bodies of the functions declared in it. -/
theorem Enters.forall_body {i : Nat} {a b : Analysis} (he : Enters i a b) {P : List Stmt → Prop}
    (hnil : P []) (hinner : ∀ body f inner, P body → .function f inner ∈ body → P inner)
    (h : ∀ j, P (a.scope j).body) (j : Nat) : P (b.scope j).body := by
  by_cases hi : j = i
  · obtain ⟨t, ht⟩ := he.own
    rw [hi, ht]
    exact h i
  · by_cases hj : j < a.scopes.size
    · rw [he.other j hj hi]
      exact h j
    · by_cases hb : j < b.scopes.size
      · obtain ⟨f, body, hmem, hborn⟩ := he.born j (Nat.le_of_not_lt hj) hb
        rw [hborn]
        exact hinner _ f body (h i) (Stmt.mem_filterMap_function?.1 hmem)
      · rw [scope_of_size_le (Nat.le_of_not_lt hb)]
        exact hnil

/-- The shape of an arena: scopes lie inside entered scopes placed before them,
functions lie directly inside the scope that declares them, and a scope not
entered yet knows nothing. -/
structure WellNested (a : Analysis) : Prop where
  chain : ∀ i, i < a.scopes.size → (a.scope i).enclosing = [] ∨
    ∃ p, p < i ∧ (a.scope p).entered ∧ (a.scope i).enclosing = p :: (a.scope p).enclosing
  function : ∀ i f j, (a.scope i).functions.get? f = some j → i < j ∧ j < a.scopes.size ∧
    (a.scope j).name = f ∧ (a.scope j).enclosing = i :: (a.scope i).enclosing
  fresh : ∀ i, (a.scope i).entered = false →
    ∃ name body enclosing, a.scope i = { name, body, enclosing }
  known : ∀ i x t, (a.scope i).contracts.get? x ≠ some (.alien t)
  nodup : ∀ i, (a.scope i).contracts.keys.Nodup
  inside : ∀ i, ∀ k ∈ (a.scope i).always, k < a.scopes.size

namespace WellNested

variable {a b : Analysis}

theorem congr (h : a.WellNested) (hs : b.scopes = a.scopes) : b.WellNested := by
  have hscope : ∀ i, b.scope i = a.scope i := fun i => by simp only [scope, hs]
  constructor
  · simpa only [hscope, hs] using h.chain
  · simpa only [hscope, hs] using h.function
  · simpa only [hscope] using h.fresh
  · simpa only [hscope] using h.known
  · simpa only [hscope] using h.nodup
  · simpa only [hscope, hs] using h.inside

theorem mem_enclosing (h : a.WellNested) {i p : Nat} (hp : p ∈ (a.scope i).enclosing) :
    p < i ∧ (a.scope p).entered := by
  induction i using Nat.strongRecOn with
  | _ i ih =>
    have hi : i < a.scopes.size := by
      refine Nat.lt_of_not_le fun hi => ?_
      simp [scope_of_size_le hi] at hp
    rcases h.chain i hi with hnil | ⟨q, hq, hentered, hcons⟩
    · simp [hnil] at hp
    · rw [hcons, List.mem_cons] at hp
      rcases hp with rfl | hp
      · exact ⟨hq, hentered⟩
      · exact ⟨Nat.lt_trans (ih q hq hp).1 hq, (ih q hq hp).2⟩

theorem lookup_lt (h : a.WellNested) {i j : Nat} {f : String} (hf : a.lookup i f = some j) :
    j < a.scopes.size := by
  obtain ⟨k, -, hk⟩ := List.exists_of_findSome?_eq_some hf
  exact (h.function k f j hk).2.1

theorem lookup_extends (h : a.WellNested) (he : Extends a b) {i : Nat} (hi : (a.scope i).entered)
    (f : String) : b.lookup i f = a.lookup i f := by
  have hscope := he.scope i (lt_size_of_entered hi)
  -- All scopes that the name is looked for in are entered.
  have hfunctions : ∀ j ∈ i :: (a.scope i).enclosing,
      (b.scope j).functions = (a.scope j).functions := by
    intro j hj
    have hentered : (a.scope j).entered := by
      rcases List.mem_cons.1 hj with rfl | hj
      · exact hi
      · exact (h.mem_enclosing hj).2
    exact (he.scope j (lt_size_of_entered hentered)).functions hentered
  simp only [lookup, hscope.enclosing]
  generalize i :: (a.scope i).enclosing = l at hfunctions
  induction l with
  | nil => rfl
  | cons j rest ih =>
    rw [List.findSome?_cons, List.findSome?_cons, hfunctions j List.mem_cons_self,
      ih fun k hk => hfunctions k (List.mem_cons_of_mem _ hk)]

theorem entries_known (h : a.WellNested) (i : Nat) :
    ∀ e ∈ (a.scope i).contracts.entries, ∀ t, e.2 ≠ .alien t := by
  intro e he t ht
  exact h.known i e.1 t (Table.get?_of_mem (h.nodup i) (ht ▸ he))

theorem within {i : Nat} (h : a.WellNested) (hw : Within i a b) (hi : (a.scope i).entered)
    (hknown : ∀ x t, (b.scope i).contracts.get? x ≠ some (.alien t))
    (hinside : ∀ k ∈ (b.scope i).always, k < a.scopes.size) : b.WellNested where
  chain j hj := by
    simp only [hw.enclosing, hw.entered]
    exact h.chain j (hw.size ▸ hj)
  function j f k hk := by
    rw [hw.functions] at hk
    rw [hw.size, hw.name, hw.enclosing, hw.enclosing]
    exact h.function j f k hk
  fresh j hj := by
    rw [hw.entered] at hj
    have hne : j ≠ i := by
      rintro rfl
      simp [hi] at hj
    rw [hw.other j hne]
    exact h.fresh j hj
  known j := by
    by_cases hj : j = i
    · rw [hj]
      exact hknown
    · rw [hw.other j hj]
      exact h.known j
  nodup j := by
    by_cases hj : j = i
    · rw [hj]
      exact hw.nodup (h.nodup i)
    · rw [hw.other j hj]
      exact h.nodup j
  inside j := by
    rw [hw.size]
    by_cases hj : j = i
    · rw [hj]
      exact hinside
    · rw [hw.other j hj]
      exact h.inside j

theorem notes {i : Nat} (h : a.WellNested) (hn : Notes i a b) (hi : (a.scope i).entered)
    (hknown : ∀ x t, (b.scope i).contracts.get? x ≠ some (.alien t)) : b.WellNested := by
  refine h.within hn.within hi hknown ?_
  rw [hn.always]
  exact h.inside i

theorem get?_propagated (h : a.WellNested) {i : Nat} (hi : i < a.scopes.size) (callee : Nat)
    (conditional : Bool) (x : String) :
    ((a.propagated i callee conditional).scope i).contracts.get? x =
      (a.view i x).met conditional ((a.scope callee).contracts.get? x) :=
  get?_propagate _ conditional _ a hi (h.nodup callee) (h.entries_known callee) x

theorem propagated (h : a.WellNested) {i : Nat} (hi : (a.scope i).entered) (callee : Nat)
    (conditional : Bool) : (a.propagated i callee conditional).WellNested := by
  refine h.notes (.propagated a i callee conditional) hi fun x => ?_
  rw [h.get?_propagated (lt_size_of_entered hi)]
  exact (View.advances_met (a.view i x) conditional _).not_alien (h.known i x)

theorem completed (h : a.WellNested) {i callee : Nat} (hi : (a.scope i).entered)
    (hcallee : callee < a.scopes.size) (conditional : Bool) :
    (a.completed i callee conditional).WellNested := by
  have hp := h.propagated hi callee conditional
  have hnotes := Notes.propagated a i callee conditional
  have hentered := (hnotes.within.entered i).trans hi
  unfold Analysis.completed
  split
  · exact hp
  · have hrecords := Records.recordCall i (a.propagated i callee conditional) callee
    refine hp.within hrecords.within hentered ?_ ?_
    · rw [hrecords.contracts]
      exact hp.known i
    · intro k hk
      rw [mem_always_recordCall (lt_size_of_entered hentered)] at hk
      rcases hk with hk | rfl | hk
      · exact hp.inside i k hk
      · exact hnotes.size ▸ hcallee
      · exact hp.inside callee k hk

theorem complete_eq (h : a.WellNested) {callee : Nat} (hcallee : callee < a.scopes.size) (i : Nat)
    (conditional : Bool) : a.complete i callee conditional =
      (a.completed i callee conditional,
        if (a.completed i callee conditional).isRecursive i then .unreachable else .proceed) := by
  refine Analysis.complete_eq (h.entries_known callee) fun k hk => ?_
  rcases List.mem_cons.1 hk with rfl | hk
  · exact hcallee
  · exact h.inside callee k hk

theorem of_findings (h : a.WellNested) (hsize : a.scopes.size ≤ b.scopes.size)
    (hfindings : ∀ j, (b.scope j).findings = (a.scope j).findings)
    (hchain : ∀ i, i < b.scopes.size → (b.scope i).enclosing = [] ∨
      ∃ p, p < i ∧ (b.scope p).entered ∧ (b.scope i).enclosing = p :: (b.scope p).enclosing)
    (hfunction : ∀ i f j, (b.scope i).functions.get? f = some j → i < j ∧ j < b.scopes.size ∧
      (b.scope j).name = f ∧ (b.scope j).enclosing = i :: (b.scope i).enclosing)
    (hfresh : ∀ i, (b.scope i).entered = false →
      ∃ name body enclosing, b.scope i = { name, body, enclosing }) : b.WellNested := by
  have hcontracts : ∀ j, (b.scope j).contracts = (a.scope j).contracts :=
    fun j => congrArg Prod.fst (hfindings j)
  have halways : ∀ j, (b.scope j).always = (a.scope j).always :=
    fun j => congrArg (fun s => s.2.1) (hfindings j)
  refine ⟨hchain, hfunction, hfresh, ?_, ?_, ?_⟩
  · simpa only [hcontracts] using h.known
  · simpa only [hcontracts] using h.nodup
  · intro i k hk
    rw [halways] at hk
    exact Nat.lt_of_lt_of_le (h.inside i k hk) hsize

theorem enters {i : Nat} (h : a.WellNested) (hi : i < a.scopes.size) (he : Enters i a b) :
    b.WellNested := by
  obtain ⟨t, ht⟩ := he.own
  have hborn : ∀ j, a.scopes.size ≤ j → j < b.scopes.size →
      (b.scope j).enclosing = i :: (b.scope i).enclosing := by
    intro j hle hlt
    obtain ⟨f, body, _, hscope⟩ := he.born j hle hlt
    rw [hscope, he.enclosing hi]
  refine h.of_findings he.size he.findings ?_ ?_ ?_
  · intro j hj
    by_cases hja : j < a.scopes.size
    · rw [he.enclosing hja]
      rcases h.chain j hja with hnil | ⟨p, hp, hpe, hcons⟩
      · exact .inl hnil
      · exact .inr ⟨p, hp, (he.entered_iff p).2 (.inr hpe),
          by rw [hcons, he.enclosing (Nat.lt_trans hp hja)]⟩
    · exact .inr ⟨i, by omega, (he.entered_iff i).2 (.inl rfl), hborn j (Nat.le_of_not_lt hja) hj⟩
  · intro k f j hf
    have hold : (a.scope k).functions.get? f = some j → k < a.scopes.size → k < j ∧
        j < b.scopes.size ∧ (b.scope j).name = f ∧
          (b.scope j).enclosing = k :: (b.scope k).enclosing := by
      intro hf hk
      obtain ⟨hlt, hj, hn, hcons⟩ := h.function k f j hf
      exact ⟨hlt, Nat.lt_of_lt_of_le hj he.size, by rw [he.name hj, hn],
        by rw [he.enclosing hj, he.enclosing hk, hcons]⟩
    rcases he.scope_cases k with rfl | ⟨hk, hsame⟩ | ⟨_, g, body, enclosing, hscope⟩
    · rcases he.found f j hf with hf | ⟨hle, hlt, hn⟩
      · exact hold hf hi
      · exact ⟨by omega, hlt, hn, hborn j hle hlt⟩
    · exact hold (by rw [← hsame, hf]) hk
    · simp [hscope] at hf
  · intro j hj
    rcases he.scope_cases j with rfl | ⟨_, hsame⟩ | ⟨_, hborn⟩
    · simp [ht] at hj
    · rw [hsame] at hj ⊢
      exact h.fresh j hj
    · exact hborn

theorem empty : ({} : Analysis).WellNested := by
  constructor
  · intro i hi
    exact absurd hi (Nat.not_lt_zero i)
  · intro i f j hf
    simp [scope_empty] at hf
  · intro i _
    exact ⟨_, _, _, scope_empty i⟩
  · intro i
    simp [scope_empty]
  · intro i
    simp [scope_empty, Table.keys]
  · intro i k hk
    simp [scope_empty] at hk

theorem addRoot (h : a.WellNested) (body : List Stmt) : (a.addRoot body).WellNested := by
  have hsize : (a.addRoot body).scopes.size = a.scopes.size + 1 := by simp [Analysis.addRoot]
  have hold : ∀ i, i ≠ a.scopes.size → (a.addRoot body).scope i = a.scope i :=
    fun i hi => (scope_addRoot a body i).trans (if_neg hi)
  have hnew : (a.addRoot body).scope a.scopes.size = { name := Scope.rootName, body } :=
    (scope_addRoot a body _).trans (if_pos rfl)
  refine h.of_findings (by omega) (findings_addRoot a body) ?_ ?_ ?_
  · intro i hi
    by_cases hroot : i = a.scopes.size
    · rw [hroot, hnew]
      exact .inl rfl
    · rw [hold i hroot]
      rcases h.chain i (by omega) with hnil | ⟨p, hp, hpe, hcons⟩
      · exact .inl hnil
      · exact .inr ⟨p, hp, by rw [hold p (by omega)]; exact hpe,
          by rw [hold p (by omega)]; exact hcons⟩
  · intro i f j hf
    by_cases hroot : i = a.scopes.size
    · simp [hroot, hnew] at hf
    · rw [hold i hroot] at hf
      obtain ⟨hij, hj, hn, hcons⟩ := h.function i f j hf
      rw [hold i hroot, hold j (by omega)]
      exact ⟨hij, by omega, hn, hcons⟩
  · intro i hi
    by_cases hroot : i = a.scopes.size
    · rw [hroot, hnew]
      exact ⟨_, _, _, rfl⟩
    · rw [hold i hroot] at hi ⊢
      exact h.fresh i hi

end WellNested

end Analysis

end DefiniteAssignment
