import DefiniteAssignment.Proofs.Invariant

/-! What names stand for. A function is registered under a name that stands for
no function yet, here or further out, and a contract is recorded for a name that
stands for no function. What a name stands for in an entered scope never changes,
so a visible name stands for one function, and no name for a function and a
variable at once. -/
namespace DefiniteAssignment

theorem View.after_of_isFunction {v : View} (h : v.isFunction) (u : Use) : v.after u = none := by
  simp [after, h]

theorem View.met_of_isFunction {v : View} (h : v.isFunction) (conditional : Bool)
    (c : Option Contract) : v.met conditional c = v.own := by
  unfold met
  split
  · rw [after_of_isFunction h, Option.none_or]
  all_goals rfl

namespace Analysis

/-- No function has the name of a function of a scope around it, and no name with
a contract is a visible function. -/
structure Unambiguous (a : Analysis) : Prop where
  once : ∀ i, ∀ p ∈ (a.scope i).enclosing, ∀ f, (a.scope i).functions.contains f →
    (a.scope p).functions.contains f = false
  apart : ∀ i x, (a.scope i).contracts.contains x → a.isFunction i x = false

theorem isFunction_eq_false_iff {a : Analysis} {i : Nat} {x : String} :
    a.isFunction i x = false ↔
      ∀ k ∈ i :: (a.scope i).enclosing, (a.scope k).functions.contains x = false := by
  simp only [isFunction, lookup, Table.contains, Option.isSome_eq_false_iff,
    Option.isNone_iff_eq_none, List.findSome?_eq_none_iff]

theorem WellNested.entered_of_contains {a : Analysis} (h : a.WellNested) {i : Nat} {x : String}
    (hx : (a.scope i).contracts.contains x) : (a.scope i).entered := by
  cases hentered : (a.scope i).entered with
  | true => rfl
  | false =>
    obtain ⟨name, body, enclosing, hfresh⟩ := h.fresh i hentered
    simp [hfresh, Table.contains] at hx

theorem free_register {i : Nat} (l : List (String × List Stmt)) (a : Analysis)
    (hi : i < a.scopes.size) (hchain : ∀ p ∈ (a.scope i).enclosing, p < i) {f : String}
    (hf : ((a.register i l).scope i).functions.contains f) :
    (a.scope i).functions.contains f ∨
      ∀ p ∈ (a.scope i).enclosing, (a.scope p).functions.contains f = false := by
  induction l generalizing a with
  | nil => exact .inl hf
  | cons e rest ih =>
    obtain ⟨g, body⟩ := e
    have hone := Registers.registerOne hi (List.mem_singleton_self (g, body))
    have henclosing : ((a.registerOne i g body).scope i).enclosing = (a.scope i).enclosing := by
      obtain ⟨t, ht⟩ := hone.own
      rw [ht]
    have hrest := ih (a.registerOne i g body) (Nat.lt_of_lt_of_le hi hone.size)
      (henclosing ▸ hchain) hf
    rw [henclosing] at hrest
    rcases hrest with hadded | hfree
    · unfold registerOne at hadded
      split at hadded
      · exact .inl hadded
      · rename_i htaken
        rw [scope_registered hi, if_pos rfl] at hadded
        by_cases hg : f = g
        · subst hg
          have hnone : a.isFunction i f = false := by
            simp only [isTaken, Bool.or_eq_true, not_or, Bool.not_eq_true] at htaken
            exact htaken.1
          exact .inr fun p hp => isFunction_eq_false_iff.1 hnone p (List.mem_cons_of_mem _ hp)
        · exact .inl (by rwa [Table.contains_insert_of_ne _ hg] at hadded)
    · refine .inr fun p hp => ?_
      have hlt := hchain p hp
      rw [← hone.other p (by omega) (by omega)]
      exact hfree p hp

namespace Unambiguous

variable {a b : Analysis}

theorem congr (h : a.Unambiguous) (hs : b.scopes = a.scopes) : b.Unambiguous := by
  have hscope : ∀ i, b.scope i = a.scope i := fun i => by simp only [scope, hs]
  have hlookup : ∀ i x, b.isFunction i x = a.isFunction i x := fun i x => by
    simp only [isFunction, lookup, hscope]
  constructor
  · simpa only [hscope] using h.once
  · simpa only [hscope, hlookup] using h.apart

theorem apart_of_findings (h : a.Unambiguous) (hn : a.WellNested) (he : Extends a b)
    (hfindings : ∀ i, (b.scope i).findings = (a.scope i).findings) (i : Nat) (x : String)
    (hx : (b.scope i).contracts.contains x) : b.isFunction i x = false := by
  have hcontracts : (b.scope i).contracts = (a.scope i).contracts :=
    congrArg Prod.fst (hfindings i)
  rw [hcontracts] at hx
  unfold isFunction
  rw [hn.lookup_extends he (hn.entered_of_contains hx)]
  exact h.apart i x hx

theorem empty : ({} : Analysis).Unambiguous := by
  constructor
  · intro i p hp
    simp [scope_empty] at hp
  · intro i x hx
    simp [scope_empty, Table.contains] at hx

theorem addRoot (h : a.Unambiguous) (hn : a.WellNested) (body : List Stmt) :
    (a.addRoot body).Unambiguous := by
  refine ⟨?_, h.apart_of_findings hn (extends_addRoot a body) (findings_addRoot a body)⟩
  intro i p hp f hf
  rw [scope_addRoot] at hp hf
  split at hp
  · simp at hp
  · rename_i hi
    rw [if_neg hi] at hf
    have hlt := lt_size_of_entered (hn.mem_enclosing hp).2
    rw [scope_addRoot, if_neg (by omega)]
    exact h.once i p hp f hf

theorem enter (h : a.Unambiguous) (hn : a.WellNested) {i : Nat} (hi : i < a.scopes.size)
    (new : (a.scope i).entered = false) : (a.enter i).Unambiguous := by
  have he := Enters.enter a hi
  refine ⟨?_, h.apart_of_findings hn (he.extends new) he.findings⟩
  intro j p hp f hf
  rcases he.scope_cases j with rfl | ⟨hj, hsame⟩ | ⟨_, name, body, enclosing, hborn⟩
  · -- The functions of the entered scope are those just registered.
    rw [he.enclosing hi] at hp
    have hlt := (hn.mem_enclosing hp).1
    have hfree := free_register ((a.scope j).body.filterMap Stmt.function?) (a.marked j)
      (by simpa using hi) (fun q hq => (hn.mem_enclosing (by simpa using hq)).1) hf
    simp only [enclosing_marked, functions_marked] at hfree
    obtain ⟨name, body, enclosing, hfresh⟩ := hn.fresh j new
    rw [he.other p (by omega) (by omega)]
    rcases hfree with hold | hfree
    · simp [hfresh, Table.contains] at hold
    · exact hfree p hp
  · -- An entered scope lies around it, which is not the one entered now.
    rw [hsame] at hp hf
    obtain ⟨hlt, hentered⟩ := hn.mem_enclosing hp
    have hne : p ≠ i := by
      rintro rfl
      simp [hentered] at new
    rw [he.other p (by omega) hne]
    exact h.once j p hp f hf
  · simp [hborn, Table.contains] at hf

theorem within (h : a.Unambiguous) {i : Nat} (hw : Within i a b)
    (hfree : ∀ x, (b.scope i).contracts.contains x →
      (a.scope i).contracts.contains x ∨ a.isFunction i x = false) : b.Unambiguous := by
  constructor
  · intro j p hp f hf
    rw [hw.enclosing] at hp
    rw [hw.functions] at hf ⊢
    exact h.once j p hp f hf
  · intro j x hx
    unfold isFunction
    rw [hw.lookup]
    by_cases hj : j = i
    · subst hj
      rcases hfree x hx with hold | hnone
      · exact h.apart j x hold
      · exact hnone
    · rw [hw.other j hj] at hx
      exact h.apart j x hx

/-- A visible name stands for the function of that name in whichever scope, here
or around, declares one. -/
theorem lookup_eq_some_iff (h : a.Unambiguous) (hn : a.WellNested) {i : Nat} {f : String} {j : Nat} :
    a.lookup i f = some j ↔
      ∃ k ∈ i :: (a.scope i).enclosing, (a.scope k).functions.get? f = some j := by
  constructor
  · exact List.exists_of_findSome?_eq_some
  · -- Along the scopes around, nearest first.
    induction i using Nat.strongRecOn with
    | _ i ih =>
      rintro ⟨k, hk, hf⟩
      unfold lookup
      rw [List.findSome?_cons]
      rcases List.mem_cons.1 hk with rfl | hk
      · rw [hf]
      · have hcontains : (a.scope k).functions.contains f := by simp [Table.contains, hf]
        cases hown : (a.scope i).functions.get? f with
        | some l =>
          have honce := h.once i k hk f (by simp [Table.contains, hown])
          simp [hcontains] at honce
        | none =>
          have hi : i < a.scopes.size := by
            refine Nat.lt_of_not_le fun hi => ?_
            simp [scope_of_size_le hi] at hk
          rcases hn.chain i hi with hnil | ⟨p, hp, _, hcons⟩
          · simp [hnil] at hk
          · rw [hcons] at hk ⊢
            exact ih p hp ⟨k, hk, hf⟩

end Unambiguous

theorem free_dispatch {a b : Analysis} {i : Nat} {s : Stmt} (hi : i < a.scopes.size)
    (h : a.dispatch i s = (b, .proceed)) (hcall : ∀ g c, s = .call g c → a.lookup i g = none)
    (x : String) (hx : (b.scope i).contracts.contains x) :
    (a.scope i).contracts.contains x ∨ a.isFunction i x = false := by
  unfold Table.contains at hx ⊢
  obtain ⟨y, rfl⟩ | ⟨u, y, rfl⟩ | ⟨code, y, rfl⟩ | rfl := dispatch_cases h hcall
  · rw [get?_declareVariable a hi] at hx
    split at hx
    · rename_i hy
      exact .inr (hy.1 ▸ hy.2)
    · exact .inl hx
  · rw [get?_use a hi] at hx
    split at hx
    · rename_i hy
      subst hy
      cases hf : a.isFunction i x with
      | false => exact .inr rfl
      | true =>
        have hview : (a.view i x).isFunction := hf
        rw [View.after_of_isFunction hview, Option.none_or] at hx
        exact .inl hx
    · exact .inl hx
  · exact .inl hx
  · exact .inl hx

theorem free_completed {a : Analysis} (hn : a.WellNested) {i : Nat} (hi : i < a.scopes.size)
    (callee : Nat) (conditional : Bool) (x : String)
    (hx : ((a.completed i callee conditional).scope i).contracts.contains x) :
    (a.scope i).contracts.contains x ∨ a.isFunction i x = false := by
  unfold Table.contains at hx ⊢
  rw [contracts_completed, hn.get?_propagated hi] at hx
  cases hf : a.isFunction i x with
  | false => exact .inr rfl
  | true =>
    have hview : (a.view i x).isFunction := hf
    rw [View.met_of_isFunction hview] at hx
    exact .inl hx

theorem Unambiguous.kept : KeptByChecks Unambiguous where
  note _ _ _ _ _ hi dispatched unresolved h :=
    h.within (Notes.dispatch dispatched unresolved).within
      (free_dispatch (lt_size_of_entered hi) dispatched unresolved)
  enter _ _ hn hi new h := h.enter hn hi new
  complete a i j c hn hi _ h :=
    h.within (Within.completed a i j c) (free_completed hn (lt_size_of_entered hi) j c)
  root _ body hn h := h.addRoot hn body
  report _ _ _ h := h.congr rfl

def Rooted (a : Analysis) : Prop :=
  0 < a.scopes.size ∧ ∀ i, i < a.scopes.size → ((a.scope i).enclosing = [] ↔ i = 0)

namespace Rooted

variable {a b : Analysis} {i : Nat}

theorem within (h : a.Rooted) (hw : Within i a b) : b.Rooted := by
  unfold Rooted
  simp only [hw.size, hw.enclosing]
  exact h

theorem enter (h : a.Rooted) (hi : i < a.scopes.size) : (a.enter i).Rooted := by
  have he := Enters.enter a hi
  have hpos := h.1
  refine ⟨Nat.lt_of_lt_of_le hpos he.size, fun j hj => ?_⟩
  by_cases hlt : j < a.scopes.size
  · rw [he.enclosing hlt]
    exact h.2 j hlt
  · obtain ⟨f, body, _, hborn⟩ := he.born j (Nat.le_of_not_lt hlt) hj
    rw [hborn]
    exact iff_of_false (List.cons_ne_nil _ _) (by omega)

theorem kept : KeptByWalks Rooted where
  note _ _ _ _ _ _ dispatched unresolved h := h.within (Notes.dispatch dispatched unresolved).within
  enter _ _ _ hi _ h := h.enter hi
  complete a i j c _ _ _ h := h.within (Within.completed a i j c)

theorem opening (body : List Stmt) : (({} : Analysis).opening body).analysis.Rooted := by
  have hroot : (({} : Analysis).addRoot body).Rooted := by
    refine ⟨root_lt_size {} body, fun i hi => ?_⟩
    obtain rfl : i = 0 := by simpa [addRoot] using hi
    simp [scope_addRoot]
  exact hroot.enter (root_lt_size {} body)

end Rooted

/-- The shape of the arena of one check, and what the names in it stand for. A
scope goes by its place in the arena. -/
structure Orderly (a : Analysis) : Prop where
  root : (a.scope 0).parent? = none
  parent : ∀ i, 0 < i → i < a.scopes.size → ∃ p < i, (a.scope i).parent? = some p ∧
    (a.scope i).enclosing = p :: (a.scope p).enclosing
  function : ∀ i f j, (a.scope i).functions.get? f = some j →
    j < a.scopes.size ∧ (a.scope j).name = f ∧ (a.scope j).parent? = some i
  once : ∀ i, ∀ p ∈ (a.scope i).enclosing, ∀ f, (a.scope i).functions.contains f →
    (a.scope p).functions.contains f = false
  /-- A visible name stands for any function of that name, so there is one only. -/
  visible : ∀ i f j, a.lookup i f = some j ↔
    ∃ k ∈ i :: (a.scope i).enclosing, (a.scope k).functions.get? f = some j
  apart : ∀ i x, (a.scope i).contracts.contains x → a.isFunction i x = false
  inside : ∀ i, ∀ k ∈ (a.scope i).always, k < a.scopes.size

theorem Orderly.congr {a b : Analysis} (h : a.Orderly) (hs : b.scopes = a.scopes) : b.Orderly := by
  have hscope : ∀ i, b.scope i = a.scope i := fun i => by simp only [scope, hs]
  have hlookup : ∀ i f, b.lookup i f = a.lookup i f := fun i f => by simp only [lookup, hscope]
  constructor
  · simpa only [hscope] using h.root
  · simpa only [hscope, hs] using h.parent
  · simpa only [hscope, hs] using h.function
  · simpa only [hscope] using h.once
  · simpa only [hscope, hlookup] using h.visible
  · simpa only [hscope, isFunction, hlookup] using h.apart
  · simpa only [hscope, hs] using h.inside

theorem Unambiguous.orderly {a : Analysis} (h : a.Unambiguous) (hn : a.WellNested)
    (hroot : a.Rooted) : a.Orderly where
  root := by
    unfold Scope.parent?
    rw [(hroot.2 0 hroot.1).2 rfl]
    rfl
  parent i hpos hi := by
    unfold Scope.parent?
    rcases hn.chain i hi with hnil | ⟨p, hp, _, hcons⟩
    · have := (hroot.2 i hi).1 hnil
      omega
    · exact ⟨p, hp, by rw [hcons]; rfl, hcons⟩
  function i f j hf := by
    obtain ⟨_, hj, hname, hcons⟩ := hn.function i f j hf
    refine ⟨hj, hname, ?_⟩
    unfold Scope.parent?
    rw [hcons]
    rfl
  once := h.once
  visible _ _ _ := h.lookup_eq_some_iff hn
  apart := h.apart
  inside := hn.inside

/-- At every moment of the check of any statements in a fresh analysis, and when it
has ended, the arena is in order. -/
theorem orderly_after (body : List Stmt) :
    (∀ n, ((({} : Analysis).opening body).after n).analysis.Orderly) ∧
      (({} : Analysis).check body).1.Orderly := by
  have hafter : ∀ n, ((({} : Analysis).opening body).after n).analysis.Orderly := by
    intro n
    have hv := WellNested.empty.opening body
    have hnames := Unambiguous.kept.after hv (Unambiguous.kept.opening .empty .empty body) n
    have hroot := Rooted.kept.after hv (Rooted.opening body) n
    exact hnames.orderly (hv.after n).nested hroot
  refine ⟨hafter, ?_⟩
  obtain ⟨n, hrun, _⟩ := (({} : Analysis).opening body).exists_run_eq
  have hend := hafter n
  rw [← hrun] at hend
  exact hend.congr (scopes_check {} body)

end Analysis

end DefiniteAssignment
