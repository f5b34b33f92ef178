import DefiniteAssignment.Proofs.Recursion
import Mathlib.Data.Finset.Card
import Mathlib.Algebra.BigOperators.Intervals

/-! A walk only moves forward. The frame of a scope uses up its body from the
front and does not come back once it is gone, and a scope is entered by the one
step that finds it not entered; so nothing is looked at twice. -/
namespace DefiniteAssignment

namespace Machine

variable {m : Machine}

theorem exists_stack_nil (m : Machine) : ∃ n ≤ m.work, (m.after n).stack = [] := by
  fun_induction run m with
  | case1 m h => exact ⟨0, Nat.zero_le _, h⟩
  | case2 m h ih =>
    obtain ⟨n, hle, hn⟩ := ih
    have hafter : m.after (n + 1) = m.step.after n := Function.iterate_succ_apply step n m
    refine ⟨n + 1, ?_, by rw [hafter, hn]⟩
    have := work_step_lt m h
    omega

theorem Valid.eq_of_scope_eq (hv : m.Valid) {f g : Frame} (hf : f ∈ m.stack) (hg : g ∈ m.stack)
    (h : g.scope = f.scope) : g = f :=
  List.inj_on_of_nodup_map hv.distinct hg hf h

theorem Valid.suffix_after (hv : m.Valid) {n k : Nat} (hle : n ≤ k) {f g : Frame}
    (hf : f ∈ (m.after n).stack) (hg : g ∈ (m.after k).stack) (h : g.scope = f.scope) :
    g.rest <:+ f.rest := by
  induction hle generalizing g with
  | refl =>
    rw [(hv.after n).eq_of_scope_eq hf hg h]
  | @step k hle ih =>
    cases hs : (m.after k).stack with
    | nil =>
      rw [after_succ, step_of_stack_nil hs] at hg
      exact ih hg h
    | cons top below =>
      have hnext := next_step hs (hv.after k)
      rw [← after_succ] at hnext
      rcases hnext.exists_frame hg with ⟨f', hf', hscope, hsuffix⟩ | hnew
      · exact hsuffix.trans (ih (hs ▸ hf') (hscope.trans h))
      · have hentered := (hv.extends_after hle).entered ((hv.after n).fits f hf).entered
        rw [← h] at hentered
        simp [hentered] at hnew

theorem Next.rest_eq {a : Analysis} {below : List Frame} {i : Nat} {s : Stmt} {rest : List Stmt}
    {m : Machine} (h : Next a below ⟨i, s :: rest, none⟩ m)
    (hv : Valid ⟨a, ⟨i, s :: rest, none⟩ :: below, none⟩) {g : Frame} (hg : g ∈ m.stack)
    (hi : g.scope = i) : g.rest = rest := by
  have hbelow : g ∉ below := by
    intro hg
    have hd := hv.distinct
    rw [List.map_cons, List.nodup_cons] at hd
    exact hd.1 (List.mem_map.2 ⟨g, hg, hi⟩)
  have hentered := (hv.fits _ List.mem_cons_self).entered
  cases h with
  | note _ _ =>
    rcases List.mem_cons.1 hg with rfl | hg
    · rfl
    · exact absurd hg hbelow
  | @enter _ g' c _ j _ new =>
    rcases List.mem_cons.1 hg with rfl | hg
    · rw [← hi] at hentered
      exact absurd hentered (by simp [Frame.start, new])
    · rcases List.mem_cons.1 hg with rfl | hg
      · rfl
      · exact absurd hg hbelow
  | complete _ =>
    dsimp only at hg
    split at hg
    · exact absurd hg hbelow
    · rcases List.mem_cons.1 hg with rfl | hg
      · rfl
      · exact absurd hg hbelow
  | fail _ => simp at hg

/-- Once a statement has been dispatched, its scope has at most the statements
behind it left. -/
theorem Valid.suffix_of_dispatched (hv : m.Valid) {n k : Nat} (hlt : n < k) {i : Nat} {s : Stmt}
    {rest : List Stmt} {below : List Frame}
    (hs : (m.after n).stack = ⟨i, s :: rest, none⟩ :: below) {g : Frame}
    (hg : g ∈ (m.after k).stack) (hi : g.scope = i) : g.rest <:+ rest := by
  have hvn := hv.after n
  have hnext := next_step hs hvn
  rw [← after_succ] at hnext
  by_cases hon : i ∈ (m.after (n + 1)).stack.map Frame.scope
  · obtain ⟨f, hf, hfi⟩ := List.mem_map.1 hon
    have hrest := hnext.rest_eq ⟨hvn.nested, hs ▸ hvn.fits, hs ▸ hvn.distinct, by simp⟩ hf hfi
    rw [← hrest]
    exact hv.suffix_after hlt hf hg (hi.trans hfi.symm)
  · -- A scope that has left the stack does not come back.
    have hentered := (hvn.fits _ (by rw [hs]; exact List.mem_cons_self)).entered
    have hout := hv.finished hlt ((hv.extends_after (Nat.le_succ n)).entered hentered) hon
    exact absurd (List.mem_map.2 ⟨g, hg, hi⟩) hout.1

theorem dispatches_once (hv : m.Valid) {n k i pos : Nat} (hn : (m.after n).Dispatches i pos)
    (hk : (m.after k).Dispatches i pos) : n = k := by
  -- Of two moments the later one would find the statement gone.
  have hearlier : ∀ n k, n < k → (m.after n).Dispatches i pos → ¬ (m.after k).Dispatches i pos := by
    rintro n k hlt ⟨hpos, hn⟩ ⟨hpos', hk⟩
    obtain ⟨below, hs⟩ := List.head?_eq_some_iff.1 hn
    rw [List.drop_eq_getElem_cons hpos] at hs
    have hsuffix := hv.suffix_of_dispatched hlt hs (List.mem_of_mem_head? hk) rfl
    have hentered := ((hv.after n).fits _ (List.mem_of_mem_head? hn)).entered
    have hbody := ((hv.extends_after (Nat.le_of_lt hlt)).scope i
      (Analysis.lt_size_of_entered hentered)).body
    have hle := hsuffix.length_le
    simp only [hbody, List.length_drop] at hle
    omega
  rcases Nat.lt_trichotomy n k with hlt | heq | hlt
  · exact absurd hk (hearlier n k hlt hn)
  · exact heq
  · exact absurd hn (hearlier k n hlt hk)

def enters? (m : Machine) : Option Nat :=
  match m.stack with
  | [] => none
  | f :: _ =>
    match (f.advance m.analysis).2.2 with
    | .suspend j _ => some j
    | .proceed | .finish | .unreachable | .fail _ => none

theorem enters?_cases {j : Nat} (h : m.enters? = some j) :
    ∃ i g c rest below, m.stack = ⟨i, .call g c :: rest, none⟩ :: below ∧
      m.analysis.lookup i g = some j ∧ (m.analysis.scope j).entered = false := by
  unfold enters? at h
  split at h
  · simp at h
  · rename_i f below hs
    split at h
    · rename_i j' c hsignal
      obtain rfl : j' = j := by simpa using h
      obtain ⟨i, rest, pending⟩ := f
      cases pending with
      | some call => exact absurd hsignal (Analysis.complete_ne_suspend _ _ _ _ _ _)
      | none =>
        cases rest with
        | nil => simp [Frame.advance] at hsignal
        | cons s rest =>
          have hdispatch : (m.analysis.dispatch i s).2 = .suspend j' c := hsignal
          cases s with
          | call g c' =>
            have hentered := Analysis.entered_of_dispatch_suspend hdispatch
            simp only [Analysis.dispatch, Analysis.resolveCall] at hdispatch hentered
            cases hj : m.analysis.lookup i g with
            | none => simp [hj] at hdispatch
            | some j =>
              simp only [hj] at hdispatch hentered
              split at hdispatch
              · exact absurd hdispatch (Analysis.complete_ne_suspend _ _ _ _ _ _)
              · rename_i hnew
                obtain ⟨rfl, rfl⟩ : j = j' ∧ c' = c := by simpa using hdispatch
                exact ⟨i, g, c', rest, below, hs, hj, by simpa using hnew⟩
          | _ => simp [Analysis.dispatch] at hdispatch
    all_goals simp at h

theorem enters?_of_new {i : Nat} {g : String} {c : Bool} {rest : List Stmt} {below : List Frame}
    (hs : m.stack = ⟨i, .call g c :: rest, none⟩ :: below) {j : Nat}
    (hj : m.analysis.lookup i g = some j) (new : (m.analysis.scope j).entered = false) :
    m.enters? = some j := by
  simp [enters?, hs, Frame.advance, Analysis.dispatch, Analysis.resolveCall, hj, new]

theorem analysis_of_enters {j : Nat} (h : m.enters? = some j) :
    m.step.analysis = m.analysis.enter j := by
  obtain ⟨i, g, c, rest, below, hs, hj, new⟩ := enters?_cases h
  rw [step_of_new hs hj new]

theorem Valid.enters_or_within (hv : m.Valid) :
    (∃ j, m.enters? = some j) ∨ ∃ i, Analysis.Within i m.analysis m.step.analysis := by
  have hsame : Analysis.Within 0 m.analysis m.analysis := (Analysis.Notes.refl 0 m.analysis).within
  cases hs : m.stack with
  | nil =>
    rw [step_of_stack_nil hs]
    exact .inr ⟨0, hsame⟩
  | cons f below =>
    have hnext := next_step hs hv
    generalize m.step = m' at hnext
    cases hnext with
    | finish i => exact .inr ⟨0, hsame⟩
    | note dispatched unresolved =>
      exact .inr ⟨_, (Analysis.Notes.dispatch dispatched unresolved).within⟩
    | enter resolved new => exact .inl ⟨_, enters?_of_new hs resolved new⟩
    | complete _ => exact .inr ⟨_, Analysis.Within.completed _ _ _ _⟩
    | fail _ => exact .inr ⟨0, hsame⟩

end Machine

mutual

def Stmt.functionCount : Stmt → Nat
  | .function _ body => 1 + Stmt.bodyFunctionCount body
  | .block body => Stmt.bodyFunctionCount body
  | .declare _ | .assign _ | .print _ | .call _ _ | .bare => 0

def Stmt.bodyFunctionCount : List Stmt → Nat
  | [] => 0
  | s :: rest => s.functionCount + Stmt.bodyFunctionCount rest

end

theorem Stmt.sum_functionCount_le (body : List Stmt) :
    ((body.filterMap Stmt.function?).map fun e => 1 + bodyFunctionCount e.2).sum ≤
      bodyFunctionCount body := by
  induction body with
  | nil => simp
  | cons s rest ih =>
    cases s with
    | function f inner => simpa [Stmt.function?, bodyFunctionCount, functionCount] using ih
    | _ => simp only [Stmt.function?, List.filterMap_cons, bodyFunctionCount]; omega

namespace Analysis

def enteredScopes (a : Analysis) : Finset Nat :=
  (Finset.range a.scopes.size).filter fun i => (a.scope i).entered

theorem mem_enteredScopes {a : Analysis} {i : Nat} :
    i ∈ a.enteredScopes ↔ (a.scope i).entered := by
  unfold enteredScopes
  rw [Finset.mem_filter, Finset.mem_range]
  exact ⟨fun h => h.2, fun h => ⟨lt_size_of_entered h, h⟩⟩

theorem enteredScopes_congr {a b : Analysis} (h : ∀ i, (b.scope i).entered = (a.scope i).entered) :
    b.enteredScopes = a.enteredScopes := by
  ext i
  rw [mem_enteredScopes, mem_enteredScopes, h]

theorem Enters.card_enteredScopes {i : Nat} {a b : Analysis} (h : Enters i a b)
    (new : (a.scope i).entered = false) : b.enteredScopes.card = a.enteredScopes.card + 1 := by
  have hinsert : b.enteredScopes = insert i a.enteredScopes := by
    ext j
    rw [Finset.mem_insert, mem_enteredScopes, mem_enteredScopes, h.entered_iff]
  have hout : i ∉ a.enteredScopes := by
    rw [mem_enteredScopes]
    simp [new]
  rw [hinsert, Finset.card_insert_of_notMem hout]

end Analysis

def Scope.ahead (s : Scope) : Nat := if s.entered then 0 else Stmt.bodyFunctionCount s.body

namespace Analysis

def ahead (a : Analysis) : Nat := ∑ i ∈ Finset.range a.scopes.size, (a.scope i).ahead

theorem Within.ahead {i : Nat} {a b : Analysis} (h : Within i a b) : b.ahead = a.ahead := by
  have hscope : ∀ j, (b.scope j).ahead = (a.scope j).ahead := by
    intro j
    unfold Scope.ahead
    rw [h.entered, h.body]
  unfold Analysis.ahead
  simp only [h.size, hscope]

theorem size_add_ahead_registerOne {a : Analysis} {i : Nat} (hi : i < a.scopes.size)
    (f : String) (body : List Stmt) :
    (a.registerOne i f body).scopes.size + (a.registerOne i f body).ahead ≤
      a.scopes.size + a.ahead + (1 + Stmt.bodyFunctionCount body) := by
  unfold registerOne
  split
  · exact Nat.le_add_right _ _
  · dsimp only
    have hscope := scope_registered hi f body
    have hsize : ((a.addFunction i f body).setFunction i f a.scopes.size).scopes.size =
        a.scopes.size + 1 := by
      simp [setFunction, addFunction]
    have hold : ∀ j ∈ Finset.range a.scopes.size,
        (((a.addFunction i f body).setFunction i f a.scopes.size).scope j).ahead =
          (a.scope j).ahead := by
      intro j hj
      rw [hscope]
      by_cases hji : j = i
      · rw [if_pos hji, hji]
        rfl
      · rw [if_neg hji, if_neg (Nat.ne_of_lt (Finset.mem_range.1 hj))]
    have hnew : (((a.addFunction i f body).setFunction i f a.scopes.size).scope
        a.scopes.size).ahead = Stmt.bodyFunctionCount body := by
      rw [hscope, if_neg (by omega), if_pos rfl]
      rfl
    unfold ahead
    rw [hsize, Finset.sum_range_succ, Finset.sum_congr rfl hold, hnew]
    omega

theorem size_add_ahead_register {i : Nat} (l : List (String × List Stmt)) (a : Analysis)
    (hi : i < a.scopes.size) :
    (a.register i l).scopes.size + (a.register i l).ahead ≤
      a.scopes.size + a.ahead + (l.map fun e => 1 + Stmt.bodyFunctionCount e.2).sum := by
  induction l generalizing a with
  | nil => simp [register]
  | cons e rest ih =>
    have hone := size_add_ahead_registerOne hi e.1 e.2
    have hsize := (@Registers.registerOne i [e] a hi e.1 e.2 List.mem_cons_self).size
    have hrest := ih (a.registerOne i e.1 e.2) (Nat.lt_of_lt_of_le hi hsize)
    rw [List.map_cons, List.sum_cons]
    simp only [register, List.foldl_cons] at hrest ⊢
    omega

theorem ahead_marked {a : Analysis} {i : Nat} (new : (a.scope i).entered = false)
    (hi : i < a.scopes.size) :
    (a.marked i).ahead + Stmt.bodyFunctionCount (a.scope i).body = a.ahead := by
  have hmem := Finset.mem_range.2 hi
  have hother : ∀ j ∈ (Finset.range a.scopes.size).erase i,
      ((a.marked i).scope j).ahead = (a.scope j).ahead := by
    intro j hj
    rw [scope_marked a hi, if_neg (Finset.ne_of_mem_erase hj)]
  have hown : ((a.marked i).scope i).ahead = 0 := by
    rw [scope_marked a hi, if_pos rfl]
    rfl
  have hbefore : (a.scope i).ahead = Stmt.bodyFunctionCount (a.scope i).body := by
    simp [Scope.ahead, new]
  unfold ahead
  rw [size_marked, ← Finset.add_sum_erase _ _ hmem, ← Finset.add_sum_erase _ _ hmem,
    Finset.sum_congr rfl hother, hown, hbefore]
  omega

/-- Entering a scope turns declarations ahead into scopes; it adds none. -/
theorem size_add_ahead_enter {a : Analysis} {i : Nat} (new : (a.scope i).entered = false)
    (hi : i < a.scopes.size) :
    (a.enter i).scopes.size + (a.enter i).ahead ≤ a.scopes.size + a.ahead := by
  have hregister := size_add_ahead_register ((a.scope i).body.filterMap Stmt.function?)
    (a.marked i) (by simpa using hi)
  have hmarked := ahead_marked new hi
  have hbody := Stmt.sum_functionCount_le (a.scope i).body
  rw [← enter_eq, size_marked] at hregister
  omega

theorem count_use (a : Analysis) (i : Nat) (u : Use) (x : String) :
    (a.use i u x).count = a.count := by
  simp only [use]
  split <;> split <;> rfl

theorem count_declareVariable (a : Analysis) (i : Nat) (x : String) :
    (a.declareVariable i x).count = a.count := by
  simp only [declareVariable]
  split
  · rfl
  · split
    · rfl
    · split <;> rfl

theorem count_propagate (i : Nat) (callee : String) (conditional : Bool)
    (l : List (String × Contract)) (a : Analysis) :
    (a.propagate i callee conditional l).1.count = a.count := by
  induction l generalizing a with
  | nil => rfl
  | cons e rest ih =>
    simp only [propagate]
    split
    · exact ih a
    · exact (ih _).trans (count_use a i _ _)
    · rfl

theorem count_completed (a : Analysis) (i callee : Nat) (conditional : Bool) :
    (a.completed i callee conditional).count = a.count := by
  have hpropagated : (a.propagated i callee conditional).count = a.count :=
    count_propagate i _ conditional _ a
  unfold completed
  split
  · exact hpropagated
  · rw [← hpropagated]
    simp only [recordCall]
    split
    · rfl
    · split
      · rfl
      · split <;> rfl

theorem count_dispatch {a b : Analysis} {i : Nat} {s : Stmt} (h : a.dispatch i s = (b, .proceed))
    (hcall : ∀ g c, s = .call g c → a.lookup i g = none) : b.count = a.count := by
  obtain ⟨x, rfl⟩ | ⟨u, x, rfl⟩ | ⟨code, x, rfl⟩ | rfl := dispatch_cases h hcall
  · exact count_declareVariable a i x
  · exact count_use a i u x
  · rfl
  · rfl

theorem count_register (i : Nat) (l : List (String × List Stmt)) (a : Analysis) :
    (a.register i l).count = a.count := by
  induction l generalizing a with
  | nil => rfl
  | cons e rest ih =>
    refine (ih (a.registerOne i e.1 e.2)).trans ?_
    unfold registerOne
    split <;> rfl

theorem count_enter (a : Analysis) (i : Nat) : (a.enter i).count = a.count + 1 := by
  rw [enter_eq, count_register]
  rfl

/-- The count tells how many scopes are entered, and the scopes with the
declarations still ahead are at most `total`. -/
structure Counted (total : Nat) (a : Analysis) : Prop where
  entered : a.count = a.enteredScopes.card
  ahead : a.scopes.size + a.ahead ≤ total

theorem Counted.within {total i : Nat} {a b : Analysis} (h : Counted total a) (hw : Within i a b)
    (hcount : b.count = a.count) : Counted total b where
  entered := by rw [hcount, enteredScopes_congr hw.entered, h.entered]
  ahead := by rw [hw.size, hw.ahead]; exact h.ahead

theorem Counted.enter {total i : Nat} {a : Analysis} (h : Counted total a)
    (hi : i < a.scopes.size) (new : (a.scope i).entered = false) : Counted total (a.enter i) where
  entered := by rw [count_enter, (Enters.enter a hi).card_enteredScopes new, h.entered]
  ahead := Nat.le_trans (size_add_ahead_enter new hi) h.ahead

theorem counted_opening (body : List Stmt) :
    Counted (1 + Stmt.bodyFunctionCount body) (({} : Analysis).opening body).analysis := by
  apply Counted.enter
  · constructor
    · rfl
    · simp [ahead, addRoot, scope, Scope.ahead]
  · exact root_lt_size {} body
  · exact entered_root {} body

end Analysis

namespace Machine

variable {m : Machine}

theorem counted_step {total : Nat} (hv : m.Valid) (h : m.analysis.Counted total) :
    m.step.analysis.Counted total := by
  cases hs : m.stack with
  | nil =>
    rw [step_of_stack_nil hs]
    exact h
  | cons f below =>
    have hnext := next_step hs hv
    generalize m.step = m' at hnext
    cases hnext with
    | finish i => exact h
    | note dispatched unresolved =>
      exact h.within (Analysis.Notes.dispatch dispatched unresolved).within
        (Analysis.count_dispatch dispatched unresolved)
    | enter resolved new => exact h.enter (hv.nested.lookup_lt resolved) new
    | complete _ =>
      exact h.within (Analysis.Within.completed _ _ _ _) (Analysis.count_completed _ _ _ _)
    | fail _ => exact h

theorem counted_after {total : Nat} (hv : m.Valid) (h : m.analysis.Counted total) (n : Nat) :
    (m.after n).analysis.Counted total := by
  induction n with
  | zero => exact h
  | succ n ih =>
    rw [after_succ]
    exact counted_step (hv.after n) ih

end Machine

end DefiniteAssignment
