import DefiniteAssignment.Proofs.Language
import Mathlib.Logic.Relation

/-! Where obligations go. A name that a scope leaves open is taken over by the
scope whose call brought the walk there, or bound further out, or a function
there; so it ends at a scope that declares it, or at the outermost scope, where
it is reported. -/
namespace DefiniteAssignment

open Relation

theorem View.met_of_isObligation (v : View) (conditional : Bool) {c : Contract}
    (hc : c.isObligation) :
    (v.met conditional (some c)).isSome ∨ v.isFunction ∨ v.boundAround := by
  obtain ⟨isFunction, own, boundAround⟩ := v
  cases isFunction with
  | true => exact .inr (.inl rfl)
  | false =>
    cases boundAround with
    | true => exact .inr (.inr rfl)
    | false =>
      refine .inl ?_
      cases own with
      | some d =>
        have hadvances := advances_met ⟨false, some d, false⟩ conditional (some c)
        exact hadvances.isSome rfl
      | none =>
        cases c with
        | external => rfl
        | outer => cases conditional <;> rfl
        | outerAssigned => rfl
        | _ => cases hc

namespace Program

/-- The call that first brought the walk to scope `i` stands in scope `j`. -/
def EnteredBy (p : Program) (i j : Nat) : Prop :=
  ∃ n f below, (p.opening.after n).stack = f :: below ∧ f.scope = j ∧
    ((p.opening.after n).analysis.scope i).entered = false ∧
    ((p.opening.after (n + 1)).analysis.scope i).entered

/-- From scope `i` one step outward: to the scope that first called it, or to a
scope around it. -/
def Outward (p : Program) (i j : Nat) : Prop :=
  (p.checked.scope j).entered ∧ (p.EnteredBy i j ∨ j ∈ (p.checked.scope i).enclosing)

def Declares (p : Program) (i : Nat) (x : String) : Prop :=
  (p.checked.scope i).entered ∧ (((p.checked.scope i).contracts.get? x).any Contract.isDeclared ∨
    ((p.checked.scope i).functions.get? x).isSome)

def Settled (p : Program) (x : String) (i : Nat) : Prop :=
  ∃ j, ReflTransGen p.Outward i j ∧ p.Declares j x

variable {p : Program}

theorem Settled.of_outward {x : String} {i j : Nat} (hij : p.Outward i j) (h : p.Settled x j) :
    p.Settled x i := by
  obtain ⟨k, hjk, hk⟩ := h
  exact ⟨k, .head hij hjk, hk⟩

theorem mem_problems_of_root {n : Nat} (hend : (p.opening.after n).stack = [])
    (hok : (p.opening.after n).failure = none) {x : String} {c : Contract}
    (hx : (p.checked.scope 0).contracts.get? x = some c) (hc : c.isObligation) :
    ⟨.notDeclared, x⟩ ∈ p.checked.problems.toList := by
  rw [scope_checked hend hok] at hx
  rw [checked, check_eq_sweep hend hok]
  exact Analysis.mem_problems_sweep _ _ ((p.valid_opening.after n).nested.entries_known 0)
    (Table.mem_entries_of_get? hx) hc

theorem outward_of_mem_enclosing {k : Nat} (hend : (p.opening.after k).stack = [])
    (hok : (p.opening.after k).failure = none) {n i j : Nat} (hle : n ≤ k)
    (hi : ((p.opening.after n).analysis.scope i).entered)
    (hj : j ∈ ((p.opening.after n).analysis.scope i).enclosing) : p.Outward i j := by
  have hext := p.valid_opening.extends_after hle
  have hentered := ((p.valid_opening.after n).nested.mem_enclosing hj).2
  refine ⟨?_, .inr ?_⟩
  · rw [scope_checked hend hok]
    exact hext.entered hentered
  · rw [scope_checked hend hok, (hext.scope i (Analysis.lt_size_of_entered hi)).enclosing]
    exact hj

theorem settled_of_lookup {k : Nat} (hend : (p.opening.after k).stack = [])
    (hok : (p.opening.after k).failure = none) {n i j : Nat} {x : String} (hle : n ≤ k)
    (hi : ((p.opening.after n).analysis.scope i).entered)
    (hx : (p.opening.after n).analysis.lookup i x = some j) : p.Settled x i := by
  have hext := p.valid_opening.extends_after hle
  have hv := p.valid_opening.after n
  obtain ⟨t, ht, hfound⟩ := List.exists_of_findSome?_eq_some hx
  have hentered : ((p.opening.after n).analysis.scope t).entered := by
    rcases List.mem_cons.1 ht with rfl | ht
    · exact hi
    · exact (hv.nested.mem_enclosing ht).2
  have hdeclares : p.Declares t x := by
    rw [Declares, scope_checked hend hok, (hext.scope t (Analysis.lt_size_of_entered hentered)).functions
      hentered, hfound]
    exact ⟨hext.entered hentered, .inr rfl⟩
  rcases List.mem_cons.1 ht with rfl | ht
  · exact ⟨t, .refl, hdeclares⟩
  · exact ⟨t, .single (outward_of_mem_enclosing hend hok hle hi ht), hdeclares⟩

theorem settled_of_new {k : Nat} (hend : (p.opening.after k).stack = [])
    (hok : (p.opening.after k).failure = none) {n i j : Nat} (hle : n ≤ k) {g : String} {c : Bool}
    {rest : List Stmt} {below : List Frame}
    (hs : (p.opening.after n).stack = ⟨i, .call g c :: rest, none⟩ :: below)
    (hj : (p.opening.after n).analysis.lookup i g = some j)
    (new : ((p.opening.after n).analysis.scope j).entered = false) {x : String} {d : Contract}
    (hx : (p.checked.scope j).contracts.get? x = some d) (hd : d.isObligation)
    (ih : ∀ t, ((p.opening.after n).analysis.scope t).entered →
      ((p.checked.scope t).contracts.get? x).isSome → p.Settled x t) : p.Settled x i := by
  have hv := p.valid_opening
  have hi : ((p.opening.after n).analysis.scope i).entered :=
    ((hv.after n).fits _ (by rw [hs]; exact List.mem_cons_self)).entered
  obtain ⟨l, f, hnl, hlk, hl, rfl, hcompletes, -, -, hout⟩ :=
    hv.exists_completes hle hend hok hs hj
  have hvl := hv.after l
  have hf := hvl.fits f (by rw [hl]; exact List.mem_cons_self)
  have hlate : ∀ t, ((p.opening.after (l + 1)).analysis.scope t).contracts.get? x ≠ none →
      ((p.checked.scope t).contracts.get? x).isSome := by
    intro t ht
    rw [scope_checked hend hok]
    exact (hv.extends_after hlk).bound (Option.isSome_iff_ne_none.2 ht)
  -- The called scope has left the stack, so it knows by now what it knows in the end.
  have hsame : ((p.opening.after l).analysis.scope j).contracts.get? x = some d := by
    have hfinished := hv.finished (Nat.le_of_lt hlk) (hf.completes hcompletes).1 (hout new)
    have hcontracts := congrArg Prod.fst hfinished.2
    rw [scope_checked hend hok] at hx
    rw [← hx]
    exact congrArg (Table.get? · x) hcontracts.symm
  have hstep : (p.opening.after (l + 1)).analysis =
      (p.opening.after l).analysis.completed f.scope j c := by
    rw [Machine.after_succ, Machine.step_of_completes hvl hl hcompletes]
  have hown : ((p.opening.after (l + 1)).analysis.scope f.scope).contracts.get? x =
      ((p.opening.after l).analysis.view f.scope x).met c (some d) := by
    rw [hstep, Analysis.contracts_completed,
      hvl.nested.get?_propagated (Analysis.lt_size_of_entered hf.entered), hsame]
  rcases View.met_of_isObligation ((p.opening.after l).analysis.view f.scope x) c hd with
    hmet | hfunction | haround
  · refine ih f.scope hi (hlate f.scope ?_)
    rw [hown]
    exact Option.isSome_iff_ne_none.1 hmet
  · obtain ⟨t, ht⟩ := Option.isSome_iff_exists.1 (hfunction : Option.isSome _ = true)
    exact settled_of_lookup hend hok (Nat.le_of_lt hlk) hf.entered ht
  · obtain ⟨table, htable, hcontains⟩ := List.any_eq_true.1 (haround : List.any _ _ = true)
    obtain ⟨t, ht, rfl⟩ := List.mem_map.1 htable
    -- The scopes around the caller are the same at both moments.
    have ht' : t ∈ ((p.opening.after n).analysis.scope f.scope).enclosing := by
      rw [← ((hv.extends_after hnl).scope _ (Analysis.lt_size_of_entered hi)).enclosing]
      exact ht
    have hsettled := ih t ((hv.after n).nested.mem_enclosing ht').2 (by
      rw [scope_checked hend hok]
      exact (hv.extends_after (Nat.le_of_lt hlk)).bound hcontains)
    exact .of_outward (outward_of_mem_enclosing hend hok (Nat.le_of_lt hlk) hf.entered ht) hsettled

theorem settled_or_isObligation {k : Nat} (hend : (p.opening.after k).stack = [])
    (hok : (p.opening.after k).failure = none) {x : String} {i : Nat} {c : Contract}
    (hi : (p.checked.scope i).entered) (hc : (p.checked.scope i).contracts.get? x = some c) :
    p.Settled x i ∨ c.isObligation := by
  cases hdeclared : c.isDeclared with
  | true => exact .inl ⟨i, .refl, hi, .inl (by rw [hc]; exact hdeclared)⟩
  | false =>
    have hknown := (p.valid_opening.after k).nested.known i x
    rw [scope_checked hend hok] at hc
    refine .inr ?_
    cases c with
    | alien t => exact absurd hc (hknown t)
    | inner => cases hdeclared
    | innerAssigned => cases hdeclared
    | _ => rfl

theorem settled_of_bound {k : Nat} (hend : (p.opening.after k).stack = [])
    (hok : (p.opening.after k).failure = none) {x : String}
    (hx : ⟨.notDeclared, x⟩ ∉ p.checked.problems.toList) (n i : Nat) (hle : n ≤ k)
    (hi : ((p.opening.after n).analysis.scope i).entered)
    (hbound : ((p.checked.scope i).contracts.get? x).isSome) : p.Settled x i := by
  have hv := p.valid_opening
  have hlate : ∀ l ≤ k, ∀ t, ((p.opening.after l).analysis.scope t).entered →
      (p.checked.scope t).entered := by
    intro l hl t ht
    rw [scope_checked hend hok]
    exact (hv.extends_after hl).entered ht
  -- On the moment at which the scope is entered: the caller was entered before it.
  induction n generalizing i with
  | zero =>
    obtain rfl := entered_opening hi
    obtain ⟨c, hc⟩ := Option.isSome_iff_exists.1 hbound
    rcases settled_or_isObligation hend hok (hlate 0 hle 0 hi) hc with hsettled | hobligation
    · exact hsettled
    · exact absurd (mem_problems_of_root hend hok hc hobligation) hx
  | succ n ih =>
    have hbefore := fun t => ih t (Nat.le_of_succ_le hle)
    cases hs : (p.opening.after n).stack with
    | nil =>
      rw [Machine.after_succ, Machine.step_of_stack_nil hs] at hi
      exact hbefore i hi hbound
    | cons f below =>
      have hnext := Machine.next_step hs (hv.after n)
      rw [← Machine.after_succ] at hnext
      rcases hnext.entered (hv.after n).nested hi with hold | ⟨t, g, b, rest, rfl, hg, new⟩
      · exact hbefore i hold hbound
      · obtain ⟨c, hc⟩ := Option.isSome_iff_exists.1 hbound
        rcases settled_or_isObligation hend hok (hlate _ hle i hi) hc with hsettled | hobligation
        · exact hsettled
        · have hcaller : ((p.opening.after n).analysis.scope t).entered :=
            ((hv.after n).fits _ (by rw [hs]; exact List.mem_cons_self)).entered
          have hentered := hlate n (by omega) t hcaller
          refine .of_outward ⟨hentered, .inl ⟨n, _, below, hs, rfl, new, hi⟩⟩ ?_
          exact settled_of_new hend hok (by omega) hs hg new hc hobligation hbefore

/-- No undeclared use is lost: an obligation that a scope is left with leads
outward to a scope with a variable or function of that name, or is reported. -/
theorem settled_of_not_mem_problems (h : p.InLanguage) :
    ∃ ps, p.problems = .ok ps ∧ ∀ x, ⟨.notDeclared, x⟩ ∉ ps → ∀ i c,
      (p.checked.scope i).entered → (p.checked.scope i).contracts.get? x = some c →
      c.isObligation → ∃ j, ReflTransGen p.Outward i j ∧ p.Declares j x := by
  obtain ⟨k, hend, hok⟩ := h.exists_end
  refine ⟨_, problems_eq_ok hend hok, fun x hx i c hi hc _ => ?_⟩
  rw [scope_checked hend hok] at hi
  exact settled_of_bound hend hok hx k i (Nat.le_refl k) hi (Option.isSome_of_eq_some hc)

def roundabout : Program :=
  ⟨[.declare "x", .assign "x",
    .function "F" [.call "G" true, .print "x"],
    .function "G" [.call "F" true, .assign "x"],
    .call "F" false]⟩

theorem settled_of_not_mem_problems_roundabout :
    roundabout.InLanguage ∧ roundabout.problems = .ok [] ∧ (roundabout.checked.scope 2).entered ∧
      (roundabout.checked.scope 2).contracts.get? "x" = some .outerAssigned ∧
      ∃ j, ReflTransGen roundabout.Outward 2 j ∧ roundabout.Declares j "x" := by
  have hend : (roundabout.opening.after 14).stack = [] := rfl
  have hok : (roundabout.opening.after 14).failure = none := rfl
  have hproblems : roundabout.problems = .ok [] := problems_eq_sweep hend hok
  have hentered : (roundabout.checked.scope 2).entered := by
    rw [scope_checked hend hok]
    rfl
  have hx : (roundabout.checked.scope 2).contracts.get? "x" = some .outerAssigned := by
    rw [scope_checked hend hok]
    rfl
  have hlanguage : roundabout.InLanguage := rfl
  obtain ⟨ps, hps, hall⟩ := settled_of_not_mem_problems hlanguage
  obtain rfl : [] = ps := by simpa [hproblems] using hps
  exact ⟨hlanguage, hproblems, hentered, hx, hall "x" (by simp) 2 _ hentered hx rfl⟩

end Program

end DefiniteAssignment
