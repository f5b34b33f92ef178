import DefiniteAssignment.Proofs.Execution
import DefiniteAssignment.Proofs.Language

/-! What it takes for nothing to be reported. Every function that a body
declares is registered, so names stand for the same functions in the arena and
in the text; declarations are of new names, assignments of variables, and
nothing is read that the scope itself has left without a value. -/
namespace DefiniteAssignment

namespace Analysis

def Silent (a : Analysis) : Prop := a.problems.toList = []

theorem Extends.silent {a b : Analysis} (h : Extends a b) (hb : b.Silent) : a.Silent :=
  List.subset_nil.1 (hb ▸ h.problems)

theorem not_silent_report (a : Analysis) (code : Code) (x : String) :
    ¬ (a.report code x).Silent := by
  intro h
  have hmem := mem_problems_report a code x
  rw [h] at hmem
  simp at hmem

section

variable {a : Analysis} {i : Nat} {x : String}

end

/-- What a statement of scope `i` that completes no call turns the analysis into. -/
inductive Performs (a : Analysis) (i : Nat) : Stmt → Analysis → Prop
  | declare (y : String) : Performs a i (.declare y) (a.declareVariable i y)
  | refuse {y : String} : a.isFunction i y → Performs a i (.assign y) (a.report .assignToFunction y)
  | assign {y : String} : a.isFunction i y = false → Performs a i (.assign y) (a.use i .assigned y)
  | print (y : String) : Performs a i (.print y) (a.use i .read y)
  | function (f : String) (inner : List Stmt) : Performs a i (.function f inner) a
  | stray (g : String) (c : Bool) : Performs a i (.call g c) (a.report .unknownFunction g)

theorem performs_dispatch {a b : Analysis} {i : Nat} {s : Stmt}
    (hd : a.dispatch i s = (b, .proceed)) (hcall : ∀ g c, s = .call g c → a.lookup i g = none) :
    a.Performs i s b := by
  cases s with
  | declare y =>
    obtain rfl := (Prod.mk.inj hd).1
    exact .declare y
  | assign y =>
    obtain rfl := (Prod.mk.inj hd).1
    split
    · rename_i hy
      exact .refuse hy
    · rename_i hy
      exact .assign (by simpa using hy)
  | print y =>
    obtain rfl := (Prod.mk.inj hd).1
    exact .print y
  | function f inner =>
    obtain rfl := (Prod.mk.inj hd).1
    exact .function f inner
  | call g c =>
    simp only [dispatch, resolveCall, hcall g c rfl] at hd
    obtain rfl := (Prod.mk.inj hd).1
    exact .stray g c
  | bare => simp [dispatch] at hd
  | block inner => simp [dispatch] at hd

def text (a : Analysis) (i : Nat) : List (List Stmt) :=
  (i :: (a.scope i).enclosing).map fun j => (a.scope j).body

def Registered (a : Analysis) : Prop :=
  ∀ i, (a.scope i).entered → ∀ f,
    ((a.scope i).functions.get? f).map (fun j => (a.scope j).body) =
      Execution.declared? f (a.scope i).body

theorem registerOne_silent {a : Analysis} {i : Nat} {f : String} {body : List Stmt}
    (h : (a.registerOne i f body).Silent) : (a.scope i).functions.get? f = none ∧
      a.registerOne i f body = (a.addFunction i f body).setFunction i f a.scopes.size := by
  cases htaken : a.isTaken i f with
  | true =>
    simp only [registerOne, htaken, if_true] at h
    exact absurd h (not_silent_report a _ f)
  | false =>
    refine ⟨?_, by simp [registerOne, htaken]⟩
    simp only [isTaken, isFunction, lookup, Bool.or_eq_false_iff, Option.isSome_eq_false_iff,
      Option.isNone_iff_eq_none, List.findSome?_eq_none_iff] at htaken
    exact htaken.1 i List.mem_cons_self

theorem functions_register {i : Nat} (l : List (String × List Stmt)) (a : Analysis)
    (hi : i < a.scopes.size) (h : (a.register i l).Silent)
    (hlt : ∀ f j, (a.scope i).functions.get? f = some j → j < a.scopes.size) (f : String) :
    (((a.register i l).scope i).functions.get? f).map (fun j => ((a.register i l).scope j).body) =
      (((a.scope i).functions.get? f).map fun j => (a.scope j).body).or (Table.find f l) := by
  induction l generalizing a with
  | nil => simp [register, Table.find]
  | cons e rest ih =>
    obtain ⟨g, body⟩ := e
    have hone := Registers.registerOne hi (List.mem_singleton_self (g, body))
    have hi' := Nat.lt_of_lt_of_le hi hone.size
    have hrest := Registers.register rest _ hi' fun _ he => he
    have hsilent : (a.registerOne i g body).Silent := List.subset_nil.1 (h ▸ hrest.problems)
    obtain ⟨hfree, heq⟩ := registerOne_silent hsilent
    have hscope := scope_registered hi g body
    rw [← heq] at hscope
    have hfunctions : ∀ f, ((a.registerOne i g body).scope i).functions.get? f =
        if f = g then some a.scopes.size else (a.scope i).functions.get? f := by
      intro f
      rw [hscope, if_pos rfl, Table.get?_insert]
    have hsize : (a.registerOne i g body).scopes.size = a.scopes.size + 1 := by
      simp [heq, setFunction, addFunction]
    have hstep := ih _ hi' h (fun f j hf => by
      rw [hfunctions] at hf
      split at hf
      · simp at hf
        omega
      · have := hlt f j hf
        omega)
    refine hstep.trans ?_
    rw [hfunctions]
    simp only [Table.find]
    by_cases hfg : f = g
    · have hnew : ((a.registerOne i g body).scope a.scopes.size).body = body := by
        rw [hscope, if_neg (by omega), if_pos rfl]
      simp [hfg, hfree, hnew]
    · rw [if_neg hfg, if_neg (Ne.symm hfg)]
      cases hf : (a.scope i).functions.get? f with
      | none => rfl
      | some j =>
        have hj := hlt f j hf
        have hold : ((a.registerOne i g body).scope j).body = (a.scope j).body := by
          rw [hscope]
          split
          · rename_i hji
            rw [hji]
          · rw [if_neg (by omega)]
        simp [hold]

/-- A name stands for the same function in the arena and in the text, if none of the scopes in
sight has turned away a function of that name. -/
theorem resolve_text_of_forall {a : Analysis} (hn : a.WellNested) {f : String} {i : Nat}
    (hi : (a.scope i).entered)
    (hf : ∀ j ∈ i :: (a.scope i).enclosing, ((a.scope j).functions.get? f).map
      (fun k => (a.scope k).body) = Execution.declared? f (a.scope j).body) :
    Execution.resolve f (a.text i) = (a.lookup i f).map a.text := by
  -- Along the scopes around, nearest first.
  induction i using Nat.strongRecOn with
  | _ i ih =>
    have htext : a.text i =
        (a.scope i).body :: (a.scope i).enclosing.map fun j => (a.scope j).body := rfl
    rw [htext, Execution.resolve, ← hf i List.mem_cons_self, lookup, List.findSome?_cons]
    cases hown : (a.scope i).functions.get? f with
    | some j =>
      obtain ⟨_, _, _, henclosing⟩ := hn.function i f j hown
      simp [text, henclosing]
    | none =>
      rcases hn.chain i (lt_size_of_entered hi) with hnil | ⟨q, hq, hentered, hcons⟩
      · simp [hnil, Execution.resolve]
      · rw [hcons] at hf ⊢
        exact ih q hq hentered fun j hj => hf j (List.mem_cons_of_mem _ hj)

theorem resolve_text {a : Analysis} (hn : a.WellNested) (hr : a.Registered) {i : Nat}
    (hi : (a.scope i).entered) (f : String) :
    Execution.resolve f (a.text i) = (a.lookup i f).map a.text := by
  refine resolve_text_of_forall hn hi fun j hj => hr j ?_ f
  rcases List.mem_cons.1 hj with rfl | hj
  · exact hi
  · exact (hn.mem_enclosing hj).2

theorem Registered.extends {a b : Analysis} (h : a.Registered) (hn : a.WellNested)
    (he : Extends a b) {i : Nat} (hi : (a.scope i).entered) (f : String) :
    ((b.scope i).functions.get? f).map (fun j => (b.scope j).body) =
      Execution.declared? f (b.scope i).body := by
  have hscope := he.scope i (lt_size_of_entered hi)
  rw [hscope.functions hi, hscope.body, ← h i hi f]
  cases hf : (a.scope i).functions.get? f with
  | none => rfl
  | some j => simp [(he.scope j (hn.function i f j hf).2.1).body]

theorem Registered.enter {a : Analysis} (h : a.Registered) (hn : a.WellNested) {i : Nat}
    (hi : i < a.scopes.size) (new : (a.scope i).entered = false) (hs : (a.enter i).Silent) :
    (a.enter i).Registered := by
  have henters := Enters.enter a hi
  intro j hj f
  rcases (henters.entered_iff j).1 hj with rfl | hold
  · obtain ⟨name, body, enclosing, hfresh⟩ := hn.fresh j new
    obtain ⟨t, ht⟩ := henters.own
    have hempty : ((a.marked j).scope j).functions = {} := by
      rw [scope_marked a hi, if_pos rfl, hfresh]
    have hregister := functions_register ((a.scope j).body.filterMap Stmt.function?) (a.marked j)
      (by simpa using hi) hs (by simp [hempty]) f
    rw [hempty] at hregister
    rw [enter_eq] at ht ⊢
    rw [hregister, ht]
    rfl
  · exact h.extends hn (henters.extends new) hold f

end Analysis

namespace Machine

open Analysis

variable {m : Machine}

end Machine

namespace Analysis

end Analysis

namespace Program

structure Accepted (p : Program) (last : Nat) : Prop where
  ended : (p.opening.after last).stack = []
  well : (p.opening.after last).failure = none
  silent : p.checked.Silent

variable {p : Program} {last : Nat}

namespace Accepted

theorem silent_after (h : p.Accepted last) (n : Nat) : (p.opening.after n).analysis.Silent :=
  (p.extends_checked n).silent h.silent

theorem lt_last (h : p.Accepted last) {n : Nat} (hs : (p.opening.after n).stack ≠ []) :
    n < last := by
  refine Nat.lt_of_not_le fun hle => hs ?_
  rw [Machine.after_of_le hle h.ended, h.ended]

end Accepted

theorem outermost_checked (p : Program) : (p.checked.scope 0).entered ∧
    (p.checked.scope 0).body = p.body ∧ p.checked.text 0 = [p.body] := by
  obtain ⟨t, ht⟩ := (Analysis.Enters.enter _ (Analysis.root_lt_size {} p.body)).own
  have hentered : (p.opening.analysis.scope 0).entered := (congrArg Scope.entered ht :)
  have hext := p.extends_checked 0
  have hscope := hext.scope 0 (Analysis.lt_size_of_entered hentered)
  have hbody : (p.checked.scope 0).body = p.body := hscope.body.trans (congrArg Scope.body ht :)
  have henclosing : (p.checked.scope 0).enclosing = [] :=
    hscope.enclosing.trans (congrArg Scope.enclosing ht :)
  exact ⟨hext.entered hentered, hbody, by simp [Analysis.text, henclosing, hbody]⟩

end Program

end DefiniteAssignment
