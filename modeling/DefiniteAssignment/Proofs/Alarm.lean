import DefiniteAssignment.Proofs.Provenance
import DefiniteAssignment.Proofs.Silence

/-! Where a variable without a value is reported. A scope that has declared the variable
and not assigned it since comes to a read of it, at a statement of its own or by a chain of
calls none of which has declared the variable before it goes on. The chain is the trail
that `external` contracts leave from the reading scope to the reporting one. -/
namespace DefiniteAssignment

open Relation

theorem eq_concat_of_append_cons {α : Type} {done done' rest body : List α} {s : α}
    (h : done ++ s :: rest = body) (h' : done' ++ rest = body) : done' = done ++ [s] := by
  refine List.append_cancel_right (h'.trans ?_)
  rw [← h, List.append_assoc, List.singleton_append]

namespace Analysis

section

variable {i : Nat} {f : String}

theorem get?_register_of_isTaken (l : List (String × List Stmt)) (a : Analysis)
    (hi : i < a.scopes.size) (h : a.isTaken i f) :
    ((a.register i l).scope i).functions.get? f = (a.scope i).functions.get? f := by
  induction l generalizing a with
  | nil => rfl
  | cons e rest ih =>
    obtain ⟨g, body⟩ := e
    have hsize := (Registers.registerOne hi (List.mem_singleton_self (g, body))).size
    have hone : (a.registerOne i g body).isTaken i f ∧
        ((a.registerOne i g body).scope i).functions.get? f = (a.scope i).functions.get? f := by
      unfold registerOne
      split
      · exact ⟨h, rfl⟩
      · rename_i hg
        have hne : f ≠ g := by
          rintro rfl
          exact hg h
        rw [isTaken_registered hi hne, scope_registered hi, if_pos rfl]
        exact ⟨h, Table.get?_insert_of_ne _ hne _⟩
    exact (ih _ (Nat.lt_of_lt_of_le hi hsize) hone.1).trans hone.2

theorem find_of_get?_register (l : List (String × List Stmt)) (a : Analysis)
    (hi : i < a.scopes.size) (hnone : (a.scope i).functions.get? f = none) {j : Nat}
    (h : ((a.register i l).scope i).functions.get? f = some j) :
    Table.find f l = some ((a.register i l).scope j).body := by
  induction l generalizing a with
  | nil =>
    rw [register, List.foldl_nil, hnone] at h
    cases h
  | cons e rest ih =>
    obtain ⟨g, body⟩ := e
    by_cases htaken : a.isTaken i f
    · rw [get?_register_of_isTaken _ a hi htaken, hnone] at h
      cases h
    have hone := Registers.registerOne hi (List.mem_singleton_self (g, body))
    have hi' := Nat.lt_of_lt_of_le hi hone.size
    have hrest := Registers.register rest (a.registerOne i g body) hi' fun _ he => he
    by_cases hg : g = f
    · subst hg
      have heq : a.registerOne i g body =
          (a.addFunction i g body).setFunction i g a.scopes.size := by
        simp [registerOne, htaken]
      have hscope := scope_registered hi g body
      rw [← heq] at hscope
      have hfound : ((a.registerOne i g body).scope i).functions.get? g = some a.scopes.size := by
        rw [hscope, if_pos rfl, Table.get?_insert_self]
      have htaken' : (a.registerOne i g body).isTaken i g := by
        simp [isTaken, isFunction, lookup, hfound]
      have hlast : ((a.register i ((g, body) :: rest)).scope i).functions.get? g =
          some a.scopes.size := (get?_register_of_isTaken rest _ hi' htaken').trans hfound
      obtain rfl : a.scopes.size = j := Option.some.inj (hlast.symm.trans h)
      have hsize : (a.registerOne i g body).scopes.size = a.scopes.size + 1 := by
        simp [heq, setFunction, addFunction]
      have hsame : (a.register i ((g, body) :: rest)).scope a.scopes.size =
          (a.registerOne i g body).scope a.scopes.size :=
        hrest.other _ (by omega) (by omega)
      rw [hsame, hscope, if_neg (by omega), if_pos rfl, Table.find, if_pos rfl]
    · have hnone' : ((a.registerOne i g body).scope i).functions.get? f = none := by
        unfold registerOne
        split
        · exact hnone
        · rw [scope_registered hi, if_pos rfl, Table.get?_insert_of_ne _ (Ne.symm hg), hnone]
      rw [Table.find, if_neg hg]
      exact ih _ hi' hnone' h

end

/-- The functions that an entered scope finds stand in its body, each the first of its
name. -/
def Filed (a : Analysis) : Prop := ∀ i, (a.scope i).entered → ∀ f j,
  (a.scope i).functions.get? f = some j →
    Execution.declared? f (a.scope i).body = some (a.scope j).body

/-- No call of an entered scope names a function that is turned away because its name is taken
outside: wherever the call may look for its function, it finds one if one is declared. -/
def Admits (a : Analysis) : Prop := ∀ i, (a.scope i).entered → ∀ g c, .call g c ∈ (a.scope i).body →
  ∀ j ∈ i :: (a.scope i).enclosing, ∀ inner, .function g inner ∈ (a.scope j).body →
    (a.scope j).functions.contains g

def turnedAway (a : Analysis) (i : Nat) : List String :=
  ((a.scope i).body.filterMap Stmt.function?).filterMap fun e =>
    if (a.scope i).functions.contains e.1 then none else some e.1

theorem admits_of_all {a : Analysis} (h : (List.range a.scopes.size).all fun i =>
    (i :: (a.scope i).enclosing).all fun j => (a.turnedAway j).all fun f =>
      (a.scope i).body.all fun s => s ≠ .call f true && s ≠ .call f false) : a.Admits := by
  intro i hi g c hg j hj inner hmem
  by_contra hcontains
  have hturned : g ∈ a.turnedAway j :=
    List.mem_filterMap.2 ⟨(g, inner), Stmt.mem_filterMap_function?.2 hmem, if_neg hcontains⟩
  have hscope := List.all_eq_true.1 h i (List.mem_range.2 (lt_size_of_entered hi))
  have hnot := List.all_eq_true.1 (List.all_eq_true.1 (List.all_eq_true.1 hscope j hj) g hturned) _ hg
  cases c <;> simp at hnot

theorem Filed.extends {a b : Analysis} (h : a.Filed) (hn : a.WellNested) (he : Extends a b)
    {i : Nat} (hi : (a.scope i).entered) {f : String} {j : Nat}
    (hf : (b.scope i).functions.get? f = some j) :
    Execution.declared? f (b.scope i).body = some (b.scope j).body := by
  have hscope := he.scope i (lt_size_of_entered hi)
  rw [hscope.functions hi] at hf
  have hj := (hn.function i f j hf).2.1
  rw [hscope.body, (he.scope j hj).body]
  exact h i hi f j hf

theorem Filed.enter {a : Analysis} (h : a.Filed) (hn : a.WellNested) {i : Nat}
    (hi : i < a.scopes.size) (new : (a.scope i).entered = false) : (a.enter i).Filed := by
  have henters := Enters.enter a hi
  intro k hk f j hf
  rcases (henters.entered_iff k).1 hk with rfl | hold
  · obtain ⟨t, ht⟩ := henters.own
    obtain ⟨name, body, enclosing, hfresh⟩ := hn.fresh k new
    have hbody : ((a.enter k).scope k).body = (a.scope k).body := by rw [ht]
    rw [Execution.declared?, hbody]
    refine find_of_get?_register _ (a.marked k) (by simpa using hi) ?_ hf
    rw [functions_marked, hfresh]
    rfl
  · exact h.extends hn (henters.extends new) hold hf

theorem Filed.kept : KeptByWalks Filed where
  note a b i s hn _ dispatched unresolved h k hk _ _ hf := by
    have hw := (Notes.dispatch dispatched unresolved).within
    exact h.extends hn hw.extends ((hw.entered k).symm.trans hk) hf
  enter _ _ hn hi new h := h.enter hn hi new
  complete a i j c hn _ _ h k hk _ _ hf := by
    have hw := Within.completed a i j c
    exact h.extends hn hw.extends ((hw.entered k).symm.trans hk) hf

theorem filed_addRoot (body : List Stmt) : (({} : Analysis).addRoot body).Filed := by
  intro i _ f j hf
  rw [(blank_addRoot body i).1] at hf
  simp at hf

theorem Filed.resolve_text {a : Analysis} (h : a.Filed) (hn : a.WellNested) (hadmits : a.Admits)
    {i : Nat} (hi : (a.scope i).entered) {g : String} {c : Bool} (hg : .call g c ∈ (a.scope i).body) :
    Execution.resolve g (a.text i) = (a.lookup i g).map a.text := by
  refine resolve_text_of_forall hn hi fun j hj => ?_
  have hentered : (a.scope j).entered := by
    rcases List.mem_cons.1 hj with rfl | hj
    · exact hi
    · exact (hn.mem_enclosing hj).2
  cases hf : (a.scope j).functions.get? g with
  | some k => exact (h j hentered g k hf).symm
  | none =>
    cases hdeclared : Execution.declared? g (a.scope j).body with
    | none => rfl
    | some inner =>
      have hmem := Table.mem_entries_of_get?
        (t := ⟨(a.scope j).body.filterMap Stmt.function?⟩) hdeclared
      have hcontains := hadmits i hi g c hg j hj inner (Stmt.mem_filterMap_function?.1 hmem)
      simp [Table.contains, hf] at hcontains

/-- Statement `s` of scope `i` comes to a read of `x`: it reads `x` itself, or it calls a
scope that comes to a read before it declares `x`. -/
inductive Reads (a : Analysis) (x : String) : Nat → Stmt → Prop
  | print {i : Nat} : Reads a x i (.print x)
  | call {i j : Nat} {g : String} {c : Bool} {done : List Stmt} {s : Stmt} :
      a.lookup i g = some j → (a.scope j).entered → done ++ [s] <+: (a.scope j).body →
      .declare x ∉ done → Reads a x j s → Reads a x i (.call g c)

/-- The scope comes to a read of `x` before it declares it. -/
def Awaits (a : Analysis) (x : String) (i : Nat) : Prop := ∃ done s,
  done ++ [s] <+: (a.scope i).body ∧ .declare x ∉ done ∧ a.Reads x i s

/-- Some scope that is entered comes to a read of `x` after it has declared it, and has not
assigned it itself in between. -/
def Exposes (a : Analysis) (x : String) : Prop := ∃ i done s, (a.scope i).entered ∧
  done ++ [s] <+: (a.scope i).body ∧ Stmt.LeavesOpen x done ∧ a.Reads x i s

theorem Awaits.reads {a : Analysis} {x : String} {i j : Nat} {g : String} {c : Bool}
    (h : a.Awaits x j) (hg : a.lookup i g = some j) (hj : (a.scope j).entered) :
    a.Reads x i (.call g c) := by
  obtain ⟨done, s, hbody, hdone, hs⟩ := h
  exact .call hg hj hbody hdone hs

end Analysis

/-- What the statements that a scope has behind it say about its contract for a variable. -/
structure Contract.Past (x : String) (c : Option Contract) (done : List Stmt) : Prop where
  leavesOpen : c = some .inner → Stmt.LeavesOpen x done
  undeclared : c.any isDeclared = false → .declare x ∉ done

namespace Contract.Past

variable {x : String} {c d : Option Contract} {done : List Stmt} {s : Stmt}

theorem nil : Past x none [] := ⟨by simp, by simp⟩

theorem declare : Past x (some .inner) (done ++ [.declare x]) :=
  ⟨fun _ => Stmt.leavesOpen_concat.2 (.inl rfl), by simp [isDeclared]⟩

theorem advances (h : Past x c done) (ha : Advances c d) : Past x d done := by
  refine ⟨fun hd => h.leavesOpen ?_, fun hd => h.undeclared (ha.any_isDeclared.symm.trans hd)⟩
  -- Only a declaration makes a contract `inner`.
  subst hd
  cases ha with
  | refl => rfl
  | open_ hd => cases hd

theorem concat (h : Past x c done) (hs : s ≠ .declare x) (hassign : s = .assign x → c ≠ some .inner) :
    Past x c (done ++ [s]) := by
  refine ⟨fun hc => ?_, fun hc => ?_⟩
  · exact Stmt.leavesOpen_concat.2 (.inr ⟨h.leavesOpen hc, fun heq => hassign heq hc⟩)
  · simpa [Ne.symm hs] using h.undeclared hc

end Contract.Past

namespace View

variable {v : View}

theorem after_assigned_ne_inner (h : v.isFunction = false) :
    (v.after .assigned).or v.own ≠ some .inner := by
  obtain ⟨isFunction, own, boundAround⟩ := v
  obtain rfl : isFunction = false := h
  cases own with
  | none => simp [after]
  | some c => cases c <;> simp [after]

theorem after_eq_external {u : Use} (h : (v.after u).or v.own = some .external) :
    v.own = some .external ∨ u = .read ∧ v.own.any Contract.isDeclared = false := by
  obtain ⟨isFunction, own, boundAround⟩ := v
  cases isFunction with
  | true => exact .inl (by simpa [after] using h)
  | false =>
    cases own with
    | none =>
      cases u with
      | read => exact .inr ⟨rfl, rfl⟩
      | declared => cases boundAround <;> simp [after, resolve] at h
      | assigned => simp [after] at h
    | some c => cases c <;> cases u <;> simp_all [after, resolve, Contract.isDeclared]

theorem met_eq_external {conditional : Bool} {c : Option Contract}
    (h : v.met conditional c = some .external) :
    v.own = some .external ∨ c = some .external ∧ v.own.any Contract.isDeclared = false := by
  unfold met at h
  split at h
  · rename_i u hu
    obtain ⟨d, rfl, hdemand⟩ := Option.map_eq_some_iff.1 hu
    refine (after_eq_external h).imp id ?_
    rintro ⟨rfl, hown⟩
    refine ⟨?_, hown⟩
    cases d <;> cases conditional <;> simp_all [Contract.demand]
  all_goals exact .inl h

end View

namespace Analysis

namespace Performs

variable {a b : Analysis} {i : Nat} {s : Stmt} (h : a.Performs i s b) {x : String}
include h

theorem past (hi : i < a.scopes.size) (hx : a.isFunction i x = false) {done : List Stmt}
    (hpast : Contract.Past x ((a.scope i).contracts.get? x) done) :
    Contract.Past x ((b.scope i).contracts.get? x) (done ++ [s]) := by
  cases h with
  | declare y =>
    rw [get?_declareVariable a hi]
    by_cases hy : x = y
    · rw [← hy, if_pos ⟨rfl, hx⟩]
      exact .declare
    · rw [if_neg fun h => hy h.1]
      exact hpast.concat (by simp [Ne.symm hy]) (by simp)
  | @refuse y hfunction =>
    refine hpast.concat (by simp) ?_
    rintro ⟨⟩
    simp [hx] at hfunction
  | @assign y _ =>
    refine (hpast.advances (advances_use a hi .assigned y x)).concat (by simp) ?_
    rintro ⟨⟩
    rw [get?_use a hi, if_pos rfl]
    exact View.after_assigned_ne_inner hx
  | print y => exact (hpast.advances (advances_use a hi .read y x)).concat (by simp) (by simp)
  | function f inner => exact hpast.concat (by simp) (by simp)
  | stray g c => exact hpast.concat (by simp) (by simp)

theorem eq_external (hi : i < a.scopes.size)
    (hb : (b.scope i).contracts.get? x = some .external) :
    (a.scope i).contracts.get? x = some .external ∨
      s = .print x ∧ ((a.scope i).contracts.get? x).any Contract.isDeclared = false := by
  cases h with
  | declare y =>
    rw [get?_declareVariable a hi] at hb
    split at hb
    · cases hb
    · exact .inl hb
  | refuse _ | function _ _ | stray _ _ => exact .inl hb
  | @assign y _ =>
    rw [get?_use a hi] at hb
    split at hb
    · rename_i hxy
      subst hxy
      rcases View.after_eq_external (v := a.view i x) hb with hold | ⟨hread, _⟩
      · exact .inl hold
      · cases hread
    · exact .inl hb
  | print y =>
    rw [get?_use a hi] at hb
    split at hb
    · rename_i hxy
      subst hxy
      exact (View.after_eq_external (v := a.view i x) hb).imp id fun hown => ⟨rfl, hown.2⟩
    · exact .inl hb

theorem reports (hb : ⟨.notAssigned, x⟩ ∈ b.problems.toList) :
    ⟨.notAssigned, x⟩ ∈ a.problems.toList ∨
      s = .print x ∧ (a.scope i).contracts.get? x = some .inner := by
  cases h with
  | declare y =>
    rcases problems_declareVariable_cases hb with hold | ⟨heq, _⟩ | ⟨heq, _⟩
    · exact .inl hold
    · cases heq
    · cases heq
  | refuse _ | stray _ _ =>
    rcases Sink.mem_insert.1 hb with hold | heq
    · exact .inl hold
    · cases heq
  | assign _ =>
    rcases mem_problems_use_iff.1 hb with hold | ⟨_, hread⟩
    · exact .inl hold
    · simp [View.readsUnassigned] at hread
  | print y =>
    refine (mem_problems_use_iff.1 hb).imp id ?_
    rintro ⟨heq, hread⟩
    obtain rfl : x = y := congrArg Problem.symbol heq
    simp only [View.readsUnassigned, Bool.and_eq_true, decide_eq_true_eq] at hread
    exact ⟨rfl, hread.2⟩
  | function f inner => exact .inl hb

end Performs

theorem mem_problems_of_enter {a : Analysis} {i : Nat} (hi : i < a.scopes.size) {x : String}
    (h : ⟨.notAssigned, x⟩ ∈ (a.enter i).problems.toList) :
    ⟨.notAssigned, x⟩ ∈ a.problems.toList := by
  rw [enter_eq] at h
  rcases problems_register_cases _ (a.marked i) (by simpa using hi) h with
    hold | ⟨_, _, _, _, _, heq, _⟩
  · exact hold
  · cases heq

end Analysis

namespace Program

open Analysis

variable {p : Program} {n : Nat} {x : String}

theorem filed_checked (p : Program) : p.checked.Filed := by
  obtain ⟨last, _, hend⟩ := p.opening.exists_run_eq
  obtain ⟨problems, hchecked, _⟩ := checked_eq hend
  have hroot := (filed_addRoot p.body).enter (WellNested.empty.addRoot p.body)
    (root_lt_size {} p.body) (entered_root {} p.body)
  rw [hchecked]
  exact Filed.kept.after p.valid_opening hroot last

theorem lookup_eq_none_of_contract {i : Nat} {c : Contract}
    (h : ((p.opening.after n).analysis.scope i).contracts.get? x = some c) :
    p.checked.lookup i x = none := by
  have hnames : p.checked.Unambiguous := Unambiguous.kept.check .empty .empty p.body
  have hbound := (p.extends_checked n).bound (Option.isSome_iff_exists.2 ⟨c, h⟩)
  simpa [isFunction] using hnames.apart i x hbound

theorem leads_of_entered (p : Program) (n : Nat) {i : Nat}
    (hi : ((p.opening.after n).analysis.scope i).entered) :
    ReflTransGen p.checked.Leads 0 i := by
  induction n generalizing i with
  | zero =>
    obtain rfl := entered_opening hi
    exact .refl
  | succ n ih =>
    rw [Machine.after_succ] at hi
    have hv := p.valid_opening.after n
    cases hs : (p.opening.after n).stack with
    | nil =>
      rw [Machine.step_of_stack_nil hs] at hi
      exact ih hi
    | cons f below =>
      rcases (Machine.next_step hs hv).entered hv.nested hi with hold | ⟨t, g, c, rest, rfl, hg, _⟩
      · exact ih hold
      · have hfits := hv.fits ⟨t, .call g c :: rest, none⟩ (by simp [hs])
        have he := p.extends_checked n
        refine .tail (ih hfits.entered) ⟨he.entered hfits.entered, g, c, ?_, ?_⟩
        · rw [(he.scope t (lt_size_of_entered hfits.entered)).body]
          exact hfits.rest.mem List.mem_cons_self
        · rw [hv.nested.lookup_extends he hfits.entered]
          exact hg

theorem exists_done {f : Frame} {below : List Frame}
    (hs : (p.opening.after n).stack = f :: below) :
    ∃ done, done ++ f.rest = (p.checked.scope f.scope).body := by
  have hfits := (p.valid_opening.after n).fits f (by simp [hs])
  rw [((p.extends_checked n).scope f.scope (lt_size_of_entered hfits.entered)).body]
  exact hfits.rest

/-- What the walk knows about `x` at moment `n` has its trail in the bodies. -/
structure Trails (p : Program) (x : String) (n : Nat) : Prop where
  past : ∀ f ∈ (p.opening.after n).stack, p.checked.lookup f.scope x = none →
    ∀ done, done ++ f.rest = (p.checked.scope f.scope).body →
      Contract.Past x (((p.opening.after n).analysis.scope f.scope).contracts.get? x) done
  awaits : ∀ i, ((p.opening.after n).analysis.scope i).contracts.get? x = some .external →
    p.checked.Awaits x i
  exposes : ⟨.notAssigned, x⟩ ∈ (p.opening.after n).analysis.problems.toList → p.checked.Exposes x

namespace Trails

theorem zero (p : Program) (x : String) : p.Trails x 0 := by
  have hblank : ∀ i, (p.opening.analysis.scope i).contracts.get? x = none := by
    intro i
    have hsame : (p.opening.analysis.scope i).contracts = (({} : Analysis).scope i).contracts :=
      congrArg Prod.fst (findings_opening {} p.body i)
    rw [hsame, scope_empty]
    rfl
  refine ⟨fun f hf _ done hdone => ?_, fun i hi => ?_, fun hproblem => ?_⟩
  · obtain rfl : f = .start (({} : Analysis).addRoot p.body) 0 := List.mem_singleton.1 hf
    have hroot := root_lt_size {} p.body
    have hext := ((Enters.enter _ hroot).extends (entered_root {} p.body)).trans
      (p.extends_checked 0)
    obtain rfl : done = [] := by
      rw [Frame.start, (hext.scope 0 hroot).body] at hdone
      simpa using hdone
    rw [Machine.after_zero, hblank]
    exact .nil
  · rw [Machine.after_zero, hblank] at hi
    cases hi
  · have hold := mem_problems_of_enter (root_lt_size {} p.body) hproblem
    simp [addRoot] at hold

variable (h : p.Trails x n)
include h

theorem past_top {f : Frame} {below : List Frame} (hs : (p.opening.after n).stack = f :: below)
    (hx : p.checked.lookup f.scope x = none) {done : List Stmt}
    (hdone : done ++ f.rest = (p.checked.scope f.scope).body) :
    Contract.Past x (((p.opening.after n).analysis.scope f.scope).contracts.get? x) done :=
  h.past f (by simp [hs]) hx done hdone

theorem past_below {f g : Frame} {below : List Frame} (hs : (p.opening.after n).stack = f :: below)
    (hg : g ∈ below) (hx : p.checked.lookup g.scope x = none) {done : List Stmt}
    (hdone : done ++ g.rest = (p.checked.scope g.scope).body) : Contract.Past x
      (((p.opening.after (n + 1)).analysis.scope g.scope).contracts.get? x) done := by
  have hv := p.valid_opening.after n
  have hne : g.scope ≠ f.scope := by
    intro heq
    have hdistinct := hv.distinct
    rw [hs, List.map_cons, List.nodup_cons] at hdistinct
    exact hdistinct.1 (heq ▸ List.mem_map_of_mem hg)
  have hnext := Machine.next_step hs hv
  rw [← Machine.after_succ] at hnext
  have hsame : ((p.opening.after (n + 1)).analysis.scope g.scope).contracts =
      ((p.opening.after n).analysis.scope g.scope).contracts :=
    congrArg Prod.fst (hnext.findings hv.nested hne)
  rw [hsame]
  exact h.past g (by simp [hs, hg]) hx done hdone

theorem note {i : Nat} {s : Stmt} {rest : List Stmt} {below : List Frame}
    (hs : (p.opening.after n).stack = ⟨i, s :: rest, none⟩ :: below) {b : Analysis}
    (hstep : p.opening.after (n + 1) = ⟨b, ⟨i, rest, none⟩ :: below, none⟩)
    (hperforms : (p.opening.after n).analysis.Performs i s b)
    (hother : ∀ j, j ≠ i → b.scope j = (p.opening.after n).analysis.scope j) :
    p.Trails x (n + 1) := by
  have hv := p.valid_opening.after n
  have he := p.extends_checked n
  have hfits := hv.fits ⟨i, s :: rest, none⟩ (by simp [hs])
  have hi := lt_size_of_entered hfits.entered
  obtain ⟨done, hdone⟩ := exists_done hs
  have hplace : done ++ [s] <+: (p.checked.scope i).body := ⟨rest, by simpa using hdone⟩
  have hpast : p.checked.lookup i x = none → Contract.Past x
      (((p.opening.after n).analysis.scope i).contracts.get? x) done :=
    fun hx => h.past_top hs hx hdone
  refine ⟨fun f hf hx done' hdone' => ?_, fun j hj => ?_, fun hproblem => ?_⟩
  · rw [hstep] at hf
    rcases List.mem_cons.1 hf with rfl | hf
    · obtain rfl := eq_concat_of_append_cons hdone hdone'
      have hvariable : (p.opening.after n).analysis.isFunction i x = false := by
        rw [isFunction, ← hv.nested.lookup_extends he hfits.entered, hx]
        rfl
      rw [hstep]
      exact hperforms.past hi hvariable (hpast hx)
    · exact h.past_below hs hf hx hdone'
  · have hx := lookup_eq_none_of_contract hj
    rw [hstep] at hj
    by_cases hji : j = i
    · subst hji
      rcases hperforms.eq_external hi hj with hold | ⟨rfl, hown⟩
      · exact h.awaits j hold
      · exact ⟨done, _, hplace, (hpast hx).undeclared hown, .print⟩
    · rw [hother j hji] at hj
      exact h.awaits j hj
  · rw [hstep] at hproblem
    rcases hperforms.reports hproblem with hold | ⟨rfl, hinner⟩
    · exact h.exposes hold
    · have hx := lookup_eq_none_of_contract hinner
      exact ⟨i, done, _, he.entered hfits.entered, hplace, (hpast hx).leavesOpen hinner, .print⟩

theorem enter {i j : Nat} {g : String} {c : Bool} {rest : List Stmt} {below : List Frame}
    (hs : (p.opening.after n).stack = ⟨i, .call g c :: rest, none⟩ :: below)
    (hstep : p.opening.after (n + 1) = ⟨(p.opening.after n).analysis.enter j,
      .start (p.opening.after n).analysis j :: ⟨i, rest, some (j, c)⟩ :: below, none⟩)
    (hj : j < (p.opening.after n).analysis.scopes.size)
    (new : ((p.opening.after n).analysis.scope j).entered = false) : p.Trails x (n + 1) := by
  have hv := p.valid_opening.after n
  have he := p.extends_checked n
  have hsame : ∀ k, ((p.opening.after (n + 1)).analysis.scope k).contracts =
      ((p.opening.after n).analysis.scope k).contracts := by
    intro k
    rw [hstep]
    exact congrArg Prod.fst ((Enters.enter _ hj).findings k)
  refine ⟨fun f hf hx done hdone => ?_, fun k hk => ?_, fun hproblem => ?_⟩
  · rw [hstep] at hf
    rcases List.mem_cons.1 hf with rfl | hf
    · obtain ⟨name, body, enclosing, hfresh⟩ := hv.nested.fresh j new
      obtain rfl : done = [] := by
        rw [Frame.start, (he.scope j hj).body] at hdone
        simpa using hdone
      rw [hsame, Frame.start, hfresh]
      exact .nil
    · rcases List.mem_cons.1 hf with rfl | hf
      · obtain ⟨done', hdone'⟩ := exists_done hs
        obtain rfl := eq_concat_of_append_cons hdone' hdone
        rw [hsame]
        exact (h.past_top hs hx hdone').concat (by simp) (by simp)
      · exact h.past_below hs hf hx hdone
  · rw [hsame] at hk
    exact h.awaits k hk
  · rw [hstep] at hproblem
    exact h.exposes (mem_problems_of_enter hj hproblem)

theorem past_call {f : Frame} {j : Nat} {c : Bool} {below : List Frame}
    (hs : (p.opening.after n).stack = f :: below)
    (hcompletes : f.completes? (p.opening.after n).analysis = some (j, c))
    (hx : p.checked.lookup f.scope x = none) {g : String} {done : List Stmt}
    (hdone : done ++ .call g c :: f.resumed.rest = (p.checked.scope f.scope).body) :
    Contract.Past x (((p.opening.after n).analysis.scope f.scope).contracts.get? x)
      (done ++ [.call g c]) := by
  rcases Frame.completes_cases hcompletes with hp | ⟨hp, g', rest, hrest, _⟩
  · have hresumed : f.resumed.rest = f.rest := by simp [Frame.resumed, hp]
    exact h.past_top hs hx (by simpa [← hresumed] using hdone)
  · obtain ⟨front, hfront⟩ := exists_done hs
    have hresumed : f.resumed.rest = rest := by simp [Frame.resumed, hp, hrest]
    have hbody : done ++ [.call g c] ++ rest = (p.checked.scope f.scope).body := by
      simpa [← hresumed] using hdone
    rw [eq_concat_of_append_cons (hrest ▸ hfront) hbody]
    exact (h.past_top hs hx hfront).concat (by simp) (by simp)

theorem complete {f : Frame} {j : Nat} {c : Bool} {below : List Frame}
    (hs : (p.opening.after n).stack = f :: below)
    (hcompletes : f.completes? (p.opening.after n).analysis = some (j, c))
    (hanalysis : (p.opening.after (n + 1)).analysis =
      (p.opening.after n).analysis.completed f.scope j c)
    (hstack : (p.opening.after (n + 1)).stack ⊆ f.resumed :: below) : p.Trails x (n + 1) := by
  have hv := p.valid_opening.after n
  have he := p.extends_checked n
  have hfits := hv.fits f (by simp [hs])
  have hi := lt_size_of_entered hfits.entered
  obtain ⟨hj, g, hg, done, hdone⟩ := hfits.completes hcompletes
  rw [← (he.scope f.scope hi).body] at hdone
  rw [← hv.nested.lookup_extends he hfits.entered] at hg
  have hplace : done ++ [.call g c] <+: (p.checked.scope f.scope).body :=
    ⟨f.resumed.rest, by simpa using hdone⟩
  have hpast : p.checked.lookup f.scope x = none → Contract.Past x
      (((p.opening.after n).analysis.scope f.scope).contracts.get? x) (done ++ [.call g c]) :=
    fun hx => h.past_call hs hcompletes hx hdone
  have hcontract : ((p.opening.after (n + 1)).analysis.scope f.scope).contracts.get? x =
      ((p.opening.after n).analysis.view f.scope x).met c
        (((p.opening.after n).analysis.scope j).contracts.get? x) := by
    rw [hanalysis, contracts_completed, hv.nested.get?_propagated hi]
  have hj' := he.entered hj
  refine ⟨fun f' hf hx done' hdone' => ?_, fun k hk => ?_, fun hproblem => ?_⟩
  · rcases List.mem_cons.1 (hstack hf) with rfl | hf
    · rw [Frame.scope_resumed] at hx hdone' ⊢
      obtain rfl := eq_concat_of_append_cons hdone hdone'
      rw [hcontract]
      exact (hpast hx).advances
        (View.advances_met ((p.opening.after n).analysis.view f.scope x) c _)
    · exact h.past_below hs hf hx hdone'
  · have hx := lookup_eq_none_of_contract hk
    by_cases hki : k = f.scope
    · subst hki
      rw [hcontract] at hk
      rcases View.met_eq_external hk with hold | ⟨hexternal, hown⟩
      · exact h.awaits _ hold
      · have hundeclared := (hpast hx).undeclared hown
        exact ⟨done, _, hplace, by simpa using hundeclared, (h.awaits j hexternal).reads hg hj'⟩
    · rw [hanalysis, (Within.completed _ _ _ _).other k hki] at hk
      exact h.awaits k hk
  · rw [hanalysis, problems_completed] at hproblem
    rcases (mem_problems_propagate_iff _ _ _ _ hi (hv.nested.nodup j)
      (hv.nested.entries_known j)).1 hproblem with hold | ⟨y, heq, hexternal, hread⟩
    · exact h.exposes hold
    · obtain rfl : x = y := congrArg Problem.symbol heq
      obtain ⟨_, _, hinner⟩ := readsUnassigned_iff.1 hread
      have hx := lookup_eq_none_of_contract hinner
      have hopen := (hpast hx).leavesOpen hinner
      rw [Stmt.leavesOpen_concat] at hopen
      have hawaits := h.awaits j hexternal
      exact ⟨f.scope, done, _, he.entered hfits.entered, hplace, by simpa using hopen,
        hawaits.reads hg hj'⟩

theorem succ : p.Trails x (n + 1) := by
  have hv := p.valid_opening.after n
  cases hs : (p.opening.after n).stack with
  | nil =>
    have hsame : p.opening.after (n + 1) = p.opening.after n := by
      rw [Machine.after_succ, Machine.step_of_stack_nil hs]
    exact ⟨hsame ▸ h.past, hsame ▸ h.awaits, hsame ▸ h.exposes⟩
  | cons f below =>
    have hnext := Machine.next_step hs hv
    rw [← Machine.after_succ] at hnext
    generalize hm : p.opening.after (n + 1) = m at hnext
    cases hnext with
    | finish i =>
      refine ⟨fun g hg hx done hdone => ?_, ?_, ?_⟩
      · rw [hm] at hg
        exact h.past_below hs hg hx hdone
      · rw [hm]
        exact h.awaits
      · rw [hm]
        exact h.exposes
    | note dispatched unresolved =>
      exact h.note hs hm (performs_dispatch dispatched unresolved)
        (Notes.dispatch dispatched unresolved).other
    | enter resolved new => exact h.enter hs hm (hv.nested.lookup_lt resolved) new
    | complete completes =>
      refine h.complete hs completes (by rw [hm]) ?_
      rw [hm]
      dsimp only
      split
      · exact List.subset_cons_self _ _
      · exact fun _ hg => hg
    | fail _ =>
      refine ⟨fun g hg => ?_, ?_, ?_⟩
      · simp [hm] at hg
      · rw [hm]
        exact h.awaits
      · rw [hm]
        exact h.exposes

end Trails

theorem trails (p : Program) (x : String) (n : Nat) : p.Trails x n := by
  induction n with
  | zero => exact .zero p x
  | succ n ih => exact ih.succ

/-- A variable is reported to be read without a value only where some scope exposes it. -/
theorem exposes_of_mem_problems {ps : List Problem} (hps : p.problems = .ok ps)
    (hx : ⟨.notAssigned, x⟩ ∈ ps) : p.checked.Exposes x := by
  obtain ⟨n, hend, hok⟩ := exists_end_of_problems_eq hps
  rw [problems_eq_sweep hend hok] at hps
  obtain rfl := Except.ok.inj hps
  rcases problems_sweep_cases _ _ hx with hold | ⟨y, c, _, _, heq⟩
  · exact (p.trails x n).exposes hold
  · cases heq

theorem resolve_text_of_call (hadmits : p.checked.Admits) {i : Nat}
    (hi : (p.checked.scope i).entered) {g : String} {c : Bool}
    (hg : .call g c ∈ (p.checked.scope i).body) {j : Nat} (hj : p.checked.lookup i g = some j) :
    Execution.resolve g (p.checked.text i) = some (p.checked.text j) := by
  rw [p.filed_checked.resolve_text p.wellNested_checked hadmits hi hg, hj]
  rfl

theorem reaches_text (hadmits : p.checked.Admits) {i : Nat} (hi : (p.checked.scope i).entered) :
    p.Reaches (p.checked.text i) := by
  have hleads : ReflTransGen p.checked.Leads 0 i := by
    obtain ⟨last, _, hend⟩ := p.opening.exists_run_eq
    obtain ⟨problems, hchecked, _⟩ := checked_eq hend
    rw [hchecked] at hi
    exact p.leads_of_entered last hi
  induction hleads with
  | refl =>
    rw [p.outermost_checked.2.2]
    exact .refl
  | @tail i j _ hleads ih =>
    obtain ⟨hentered, g, c, hmem, hg⟩ := hleads
    exact .tail (ih hentered) ⟨g, c, hmem, resolve_text_of_call hadmits hentered hmem hg⟩

section

open Execution

variable (hacyclic : p.Acyclic) (hadmits : p.checked.Admits)
include hacyclic hadmits

theorem arrives_text {i : Nat} (hi : (p.checked.scope i).entered) {done rest : List Stmt}
    (hbody : done ++ rest = (p.checked.scope i).body) (x : String) (below : List Activation) :
    ∃ vars below', Comes (⟨p.checked.text i, (p.checked.scope i).body, {}⟩ :: below)
      (⟨p.checked.text i, rest, vars⟩ :: below') ∧
      Leaves x (p.checked.text i) done vars below below' :=
  have hreaches := reaches_text hadmits hi
  hreaches.arrives hbody (hacyclic.passable hreaches hbody) x below

theorem comes_of_reads {i : Nat} {s : Stmt} (h : p.checked.Reads x i s)
    (hi : (p.checked.scope i).entered) (hs : s ∈ (p.checked.scope i).body)
    {rest : List Stmt} {vars : Table Bool} {below : List Activation}
    (hopen : LiesOpen x (⟨p.checked.text i, s :: rest, vars⟩ :: below)) :
    ∃ stack, Comes (⟨p.checked.text i, s :: rest, vars⟩ :: below) stack ∧ ReadsOpen x stack := by
  induction h generalizing rest vars below with
  | print => exact ⟨_, .refl _, rfl, hopen⟩
  | @call i j g c done s hg hj hplace hdone _ ih =>
    have hcall := Comes.step true (step_call c (resolve_text_of_call hadmits hi hs hg) rest vars below)
    -- The call has no part in what the caller leaves open.
    have hwaiting : LiesOpen x (⟨p.checked.text i, rest, vars⟩ :: below) :=
      hopen.concat (by simp)
    obtain ⟨behind, hbody⟩ := hplace
    rw [List.append_assoc, List.singleton_append] at hbody
    obtain ⟨vars', below', harrives, hleaves⟩ :=
      arrives_text hacyclic hadmits hj hbody x (⟨p.checked.text i, rest, vars⟩ :: below)
    have hopen' : LiesOpen x (⟨p.checked.text j, s :: behind, vars'⟩ :: below') := by
      rw [LiesOpen, if_neg (by simpa [hleaves.declared] using hdone)]
      exact liesOpen_of_map_outline_eq hwaiting hleaves.outline
    obtain ⟨stack, hcomes, hreads⟩ := ih hj (by simp [← hbody]) hopen'
    exact ⟨stack, hcall.trans (harrives.trans hcomes), hreads⟩

theorem comes_of_exposes (h : p.checked.Exposes x) :
    ∃ stack, Comes p.initial stack ∧ ReadsOpen x stack := by
  obtain ⟨i, done, s, hi, ⟨rest, hbody⟩, hopen, hreads⟩ := h
  rw [List.append_assoc, List.singleton_append] at hbody
  obtain ⟨below, hcomes⟩ := (hacyclic.visits (reaches_text hadmits hi)).comes
  obtain ⟨vars, below', harrives, hleaves⟩ := arrives_text hacyclic hadmits hi hbody x below
  have hlies : LiesOpen x (⟨p.checked.text i, s :: rest, vars⟩ :: below') := by
    rw [LiesOpen, if_pos]
    · exact ⟨done, hbody, hopen⟩
    · obtain ⟨before, between, rfl, _⟩ := hopen
      simp [hleaves.declared]
  obtain ⟨stack, hcomes', hread⟩ :=
    comes_of_reads hacyclic hadmits hreads hi (by simp [← hbody]) hlies
  exact ⟨stack, hcomes.trans (harrives.trans hcomes'), hread⟩

end

/-- Alarms about missing values are not false where there is nothing to choose. A program
without conditional calls and without cycles has a single run, which ends. If none of its
calls names a function that is turned away, and a variable is reported to be read without
a value, the run comes to a read of it where the nearest activation that has declared it has
not assigned it since; and there it has no value, unless another activation has given it
one since that declaration. -/
theorem printsUnassigned_of_mem_problems (hin : p.InLanguage) (hcalls : p.Unconditional)
    (hacyclic : p.Acyclic) (hadmits : p.checked.Admits) :
    (∀ choices, p.execute choices = p.run choices.length) ∧ (∃ last, p.run last = []) ∧
      ∃ ps, p.problems = .ok ps ∧ ∀ x, ⟨.notAssigned, x⟩ ∈ ps →
        ∃ n, Execution.ReadsOpen x (p.run n) ∧ (Execution.printsUnassigned x (p.run n) ∨
          ∃ height, Execution.holder? x (p.run n) = some height ∧ p.GivenAfar x n height) := by
  obtain ⟨last, hend, hok⟩ := hin.exists_end
  have hps := problems_eq_ok hend hok
  refine ⟨hcalls.execute_eq_run, hacyclic.exists_run_eq_nil hcalls, _, hps, fun x hx => ?_⟩
  obtain ⟨stack, hcomes, hreads⟩ :=
    comes_of_exposes hacyclic hadmits (exposes_of_mem_problems hps hx)
  obtain ⟨n, rfl⟩ := hcalls.exists_run_eq hcomes
  exact ⟨n, hreads, hreads.printsUnassigned (p.owned_run x n)⟩

/-- `Report` comes to a read of `total`, by way of `Page` and `Line`, before it assigns it
and once more after that. The `Report` in `Line` is turned away, and nobody in its sight calls
it. -/
def ledger : Program :=
  ⟨[.function "Report" [.declare "total", .call "Page" false, .assign "total", .call "Page" false,
      .function "Page" [.declare "line", .assign "line", .call "Line" false],
      .function "Line" [.function "Report" [], .print "line", .print "total"]],
    .call "Report" false, .call "Report" false]⟩

theorem run_eq_false_of_all {P : List Activation → Bool} (hnil : P [] = false) {last : Nat}
    (hlast : p.run last = []) (h : (List.range last).all fun n => !P (p.run n)) (n : Nat) :
    P (p.run n) = false := by
  rcases Nat.lt_or_ge n last with hlt | hle
  · simpa using List.all_eq_true.1 h n (List.mem_range.2 hlt)
  · rw [run_of_le hlast hle, hnil]

theorem printsUnassigned_of_mem_problems_ledger :
    ledger.InLanguage ∧ ledger.Unconditional ∧ ledger.Acyclic ∧ ledger.checked.Admits ∧
      ledger.problems = .ok [⟨.alreadyDeclared, "Report"⟩, ⟨.notAssigned, "total"⟩] ∧
      ∃ n, Execution.printsUnassigned "total" (ledger.run n) := by
  have hin : ledger.InLanguage := rfl
  have hcalls : ledger.Unconditional := rfl
  have hacyclic : ledger.Acyclic := acyclic_of_shallow (show Execution.shallow 4 _ = true from rfl)
  have hend : (ledger.opening.after 22).stack = [] := rfl
  have hok : (ledger.opening.after 22).failure = none := rfl
  have hproblems : ledger.problems = .ok [⟨.alreadyDeclared, "Report"⟩, ⟨.notAssigned, "total"⟩] :=
    problems_eq_sweep hend hok
  have hadmits : ledger.checked.Admits := by
    obtain ⟨problems, hchecked, _⟩ := checked_eq hend
    rw [hchecked]
    exact admits_of_all rfl
  have hafar : ∀ n, Execution.assignsAfar "total" (ledger.run n) = false :=
    run_eq_false_of_all rfl (show ledger.run 50 = [] from rfl) rfl
  obtain ⟨_, _, ps, hps, halarm⟩ := printsUnassigned_of_mem_problems hin hcalls hacyclic hadmits
  rw [hproblems] at hps
  obtain ⟨n, _, hprints | ⟨height, _, hgiven⟩⟩ := halarm "total" (by simp [← Except.ok.inj hps])
  · exact ⟨hin, hcalls, hacyclic, hadmits, hproblems, n, hprints⟩
  · obtain ⟨k, hk⟩ := hgiven.exists_assignsAfar
    rw [hafar k] at hk
    cases hk

/-- The variable is reported, and yet the one run of the program never reads it without a
value. -/
def FalseAlarm (p : Program) (x : String) : Prop :=
  p.InLanguage ∧ p.Unconditional ∧ p.Acyclic ∧
    (∃ ps, p.problems = .ok ps ∧ ⟨.notAssigned, x⟩ ∈ ps) ∧
    ∀ choices, Execution.printsUnassigned x (p.execute choices) = false

def initialised : Program :=
  ⟨[.declare "x", .call "Init" false, .print "x", .function "Init" [.assign "x"]]⟩

/-- The `G` of `F` is turned away, so the call is taken to lead to the outer one. -/
def overridden : Program :=
  ⟨[.declare "x", .function "G" [.print "x"], .function "F" [.call "G" false, .function "G" []],
    .call "F" false]⟩

/-- False alarms, where a value comes from afar and where a call names a function that is turned
away. -/
theorem falseAlarm_initialised_overridden : initialised.FalseAlarm "x" ∧ overridden.FalseAlarm "x" := by
  refine ⟨⟨rfl, rfl, acyclic_of_shallow (show Execution.shallow 2 _ = true from rfl), ?_, ?_⟩,
    ⟨rfl, rfl, acyclic_of_shallow (show Execution.shallow 3 _ = true from rfl), ?_, ?_⟩⟩
  · have hend : (initialised.opening.after 8).stack = [] := rfl
    exact ⟨[⟨.notAssigned, "x"⟩], problems_eq_sweep hend rfl, List.mem_singleton_self _⟩
  · intro choices
    rw [(show initialised.Unconditional from rfl).execute_eq_run]
    exact run_eq_false_of_all rfl (show initialised.run 7 = [] from rfl) rfl _
  · have hend : (overridden.opening.after 12).stack = [] := rfl
    exact ⟨[⟨.alreadyDeclared, "G"⟩, ⟨.notAssigned, "x"⟩], problems_eq_sweep hend rfl,
      List.mem_cons_of_mem _ (List.mem_singleton_self _)⟩
  · intro choices
    rw [(show overridden.Unconditional from rfl).execute_eq_run]
    exact run_eq_false_of_all rfl (show overridden.run 9 = [] from rfl) rfl _

end Program

end DefiniteAssignment
