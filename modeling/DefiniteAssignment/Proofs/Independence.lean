import DefiniteAssignment.Proofs.Restriction

/-! Variables do not influence each other. The check of a program from which all
that is about one variable has been removed goes through the same moments as the
check of the program, less those at which that variable is declared, assigned or
read; and it finds the same about every other name. -/
namespace DefiniteAssignment

namespace Stmt

def isAbout (y : String) : Stmt → Bool
  | declare x | assign x | print x => x = y
  | function _ _ | call _ _ | bare | block _ => false

mutual

def without (y : String) : Stmt → Stmt
  | .function f body => .function f (bodyWithout y body)
  | .declare x => .declare x
  | .assign x => .assign x
  | .print x => .print x
  | .call f conditional => .call f conditional
  | .bare => .bare
  | .block body => .block body

def bodyWithout (y : String) : List Stmt → List Stmt
  | [] => []
  | s :: rest => if s.isAbout y then bodyWithout y rest else s.without y :: bodyWithout y rest

end

mutual

/-- No function of the name `y` is declared or called in the statement, at any depth. -/
def avoids (y : String) : Stmt → Bool
  | .function f body => f ≠ y && bodyAvoids y body
  | .call f _ => f ≠ y
  | .block body => bodyAvoids y body
  | .declare _ | .assign _ | .print _ | .bare => true

def bodyAvoids (y : String) : List Stmt → Bool
  | [] => true
  | s :: rest => s.avoids y && bodyAvoids y rest

end

theorem bodyAvoids_iff {y : String} {body : List Stmt} :
    bodyAvoids y body ↔ ∀ s ∈ body, s.avoids y := by
  induction body with
  | nil => simp [bodyAvoids]
  | cons s rest ih => simp [bodyAvoids, ih]

theorem bodyAvoids_inner {y : String} (body : List Stmt) (f : String) (inner : List Stmt)
    (h : bodyAvoids y body = true) (hf : .function f inner ∈ body) : bodyAvoids y inner = true := by
  have havoids := bodyAvoids_iff.1 h _ hf
  simp only [avoids, Bool.and_eq_true] at havoids
  exact havoids.2

theorem filterMap_bodyWithout (y : String) (body : List Stmt) :
    (bodyWithout y body).filterMap function? =
      (body.filterMap function?).map fun e => (e.1, bodyWithout y e.2) := by
  induction body with
  | nil => rfl
  | cons s rest ih =>
    cases s with
    | declare x | assign x | print x =>
      simp only [bodyWithout]
      split <;> simpa [List.filterMap_cons, function?, without] using ih
    | _ => simpa [bodyWithout, isAbout, without, List.filterMap_cons, function?] using ih

end Stmt

namespace Restriction

/-- All names but `y`, and bodies without what is about `y`. -/
def allBut (y : String) : Restriction where
  shows x := x ≠ y
  cut := Stmt.bodyWithout y
  cut_nil := rfl

variable {y : String}

theorem allBut_shows {x : String} : (allBut y).shows x ↔ x ≠ y := by simp [allBut]

theorem cut_cons_of_isAbout {s : Stmt} (h : s.isAbout y) (rest : List Stmt) :
    (allBut y).cut (s :: rest) = (allBut y).cut rest := by
  simp [allBut, Stmt.bodyWithout, h]

theorem cut_cons {s : Stmt} (h : s.isAbout y = false) (rest : List Stmt) :
    (allBut y).cut (s :: rest) = s.without y :: (allBut y).cut rest := by
  simp [allBut, Stmt.bodyWithout, h]

theorem allBut_enter {a : Analysis} {i : Nat} (h : Stmt.bodyAvoids y (a.scope i).body) :
    (allBut y).analysis (a.enter i) = ((allBut y).analysis a).enter i := by
  have hshows : ∀ e ∈ (a.scope i).body.filterMap Stmt.function?, (allBut y).shows e.1 := by
    rintro ⟨f, inner⟩ he
    have havoids := Stmt.bodyAvoids_iff.1 h _ (Stmt.mem_filterMap_function?.1 he)
    rw [allBut_shows]
    simp only [Stmt.avoids, Bool.and_eq_true, decide_eq_true_eq] at havoids
    exact havoids.1
  exact analysis_enter _ a i hshows (Stmt.filterMap_bodyWithout y _)

theorem allBut_dispatch_of_isAbout {a b : Analysis} {i : Nat} {s : Stmt} (hs : s.isAbout y)
    (h : a.dispatch i s = (b, .proceed)) : (allBut y).analysis b = (allBut y).analysis a := by
  have hb : b = (a.dispatch i s).1 := by rw [h]
  have hhidden : (allBut y).shows y = false := by simp [allBut]
  subst hb
  cases s with
  | declare x =>
    obtain rfl : x = y := by simpa [Stmt.isAbout] using hs
    simp [Analysis.dispatch, analysis_declareVariable, hhidden]
  | assign x =>
    obtain rfl : x = y := by simpa [Stmt.isAbout] using hs
    simp only [Analysis.dispatch]
    split
    · simp [analysis_report, hhidden]
    · simp [analysis_use, hhidden]
  | print x =>
    obtain rfl : x = y := by simpa [Stmt.isAbout] using hs
    simp [Analysis.dispatch, analysis_use, hhidden]
  | _ => simp [Stmt.isAbout] at hs

theorem allBut_dispatch {a b : Analysis} {i : Nat} {s : Stmt} (hs : s.isAbout y = false)
    (havoids : s.avoids y) (h : a.dispatch i s = (b, .proceed))
    (hcall : ∀ g c, s = .call g c → a.lookup i g = none) :
    ((allBut y).analysis a).dispatch i (s.without y) = ((allBut y).analysis b, .proceed) := by
  have hsymbol : ∀ x ∈ s.symbol?, (allBut y).shows x := by
    intro x hx
    rw [allBut_shows]
    cases s with
    | call g c =>
      obtain rfl : g = x := by simpa [Stmt.symbol?] using hx
      simpa [Stmt.avoids] using havoids
    | _ => simp_all [Stmt.symbol?, Stmt.isAbout]
  have hdispatch := (allBut y).analysis_dispatch hsymbol h hcall
  -- Only function declarations differ, and they are dispatched without effect.
  cases s with
  | function f body => exact hdispatch
  | _ => exact hdispatch

def frame (r : Restriction) (f : Frame) : Frame := { f with rest := r.cut f.rest }

def machine (r : Restriction) (m : Machine) : Machine :=
  ⟨r.analysis m.analysis, m.stack.map r.frame, m.failure⟩

theorem allBut_completes {f : Frame} {a : Analysis} {j : Nat} {c : Bool}
    (h : f.completes? a = some (j, c)) :
    ((allBut y).frame f).completes? ((allBut y).analysis a) = some (j, c) ∧
      ((allBut y).frame f).resumed = (allBut y).frame f.resumed := by
  rcases Frame.completes_cases h with hp | ⟨hp, g, rest, hrest, hj, hentered⟩
  · constructor
    · simp [Frame.completes?, frame, hp]
    · simp [Frame.resumed, frame, hp]
  · have hcut : (allBut y).cut f.rest = .call g c :: (allBut y).cut rest := by
      rw [hrest]
      exact cut_cons rfl rest
    constructor
    · simp [Frame.completes?, frame, hp, hcut, hj, hentered]
    · simp only [Frame.resumed, frame, hp, hcut]
      rw [hrest]
      rfl

/-- A step of the machine is a step in what is shown, or is not seen there. -/
theorem allBut_step {m : Machine} (hv : m.Valid) (hv' : ((allBut y).machine m).Valid)
    (hin : m.analysis.InLanguage) (havoids : ∀ i, Stmt.bodyAvoids y (m.analysis.scope i).body) :
    (allBut y).machine m.step = (allBut y).machine m ∨
      (allBut y).machine m.step = ((allBut y).machine m).step := by
  cases hs : m.stack with
  | nil =>
    rw [Machine.step_of_stack_nil hs]
    exact .inl rfl
  | cons f below =>
    have hf := hv.fits f (by simp [hs])
    have hmem : ∀ s ∈ f.rest, s.avoids y := fun s hs =>
      Stmt.bodyAvoids_iff.1 (havoids f.scope) s (hf.rest.mem hs)
    have hs' : ((allBut y).machine m).stack =
        (allBut y).frame f :: below.map (allBut y).frame := by
      rw [machine, hs]
      rfl
    have hnext := Machine.next_step hs hv
    generalize m.step = m' at hnext
    cases hnext with
    | finish i =>
      refine .inr ?_
      rw [frame, cut_nil] at hs'
      exact (Machine.step_of_finish hs').symm
    | @note i s rest b dispatched unresolved =>
      cases habout : s.isAbout y with
      | true =>
        refine .inl ?_
        simp [machine, hs, hv.failure_eq_none hs, frame, cut_cons_of_isAbout habout,
          allBut_dispatch_of_isAbout habout dispatched]
      | false =>
        refine .inr ?_
        have hd := allBut_dispatch habout (hmem s List.mem_cons_self) dispatched unresolved
        rw [frame, cut_cons habout] at hs'
        exact (Machine.step_of_proceed hs' hd).symm
    | @enter i g c rest j resolved new =>
      refine .inr ?_
      rw [frame, cut_cons rfl] at hs'
      rw [Machine.step_of_new hs' (by simpa [machine] using resolved)
        (by simpa [machine] using new)]
      simp [machine, allBut_enter (havoids j), frame, Frame.start]
    | @complete _ j c completes =>
      refine .inr ?_
      obtain ⟨hc, hresumed⟩ := allBut_completes (y := y) completes
      have hcompleted := (allBut y).analysis_completed hv.nested f.scope j c
      have hstep := Machine.step_of_completes hv' hs' hc
      simp only [machine, frame, ← hcompleted, isRecursive_analysis] at hstep
      simp only [machine, hstep]
      split
      · rfl
      · rw [List.map_cons, ← hresumed]
        rfl
    | @fail i s rest failure outside =>
      have hlanguage := Stmt.allInLanguage_iff.1 (hin i) s (hf.rest.mem List.mem_cons_self)
      rcases outside with rfl | ⟨body, rfl⟩ <;> simp [Stmt.inLanguage] at hlanguage

end Restriction

namespace Program

open Restriction

def without (p : Program) (y : String) : Program := ⟨Stmt.bodyWithout y p.body⟩

variable {p : Program} {y : String}

theorem allBut_opening (h : Stmt.bodyAvoids y p.body) :
    (allBut y).machine p.opening = (p.without y).opening := by
  have hroot : (allBut y).analysis (({} : Analysis).addRoot p.body) =
      ({} : Analysis).addRoot (p.without y).body := by
    rw [analysis_addRoot, analysis_empty]
    rfl
  have henter : (allBut y).analysis ((({} : Analysis).addRoot p.body).enter 0) =
      (({} : Analysis).addRoot (p.without y).body).enter 0 := by
    rw [← hroot]
    apply allBut_enter
    rw [Analysis.scope_addRoot]
    exact h
  have hframe : (allBut y).frame (.start (({} : Analysis).addRoot p.body) 0) =
      .start (({} : Analysis).addRoot (p.without y).body) 0 := by
    rw [← hroot]
    simp [frame, Frame.start]
  unfold opening Analysis.opening Analysis.start machine
  dsimp only
  exact congrArg₂ (fun a f => Machine.mk a [f] none) henter hframe

theorem avoids_after (h : Stmt.bodyAvoids y p.body) (n i : Nat) :
    Stmt.bodyAvoids y ((p.opening.after n).analysis.scope i).body := by
  have hroot : ∀ j, Stmt.bodyAvoids y ((({} : Analysis).addRoot p.body).scope j).body := by
    intro j
    rw [Analysis.scope_addRoot]
    split
    · exact h
    · rw [Analysis.scope_empty]
      rfl
  have hopening := (Analysis.Enters.enter _ (Analysis.root_lt_size {} p.body)).forall_body
    (P := (Stmt.bodyAvoids y · = true)) rfl Stmt.bodyAvoids_inner hroot
  exact p.valid_opening.forall_body_after (P := (Stmt.bodyAvoids y · = true)) rfl
    Stmt.bodyAvoids_inner hopening n i

theorem exists_allBut_after (hin : p.InLanguage) (h : Stmt.bodyAvoids y p.body) (n : Nat) :
    ∃ k, (allBut y).machine (p.opening.after n) = (p.without y).opening.after k := by
  induction n with
  | zero => exact ⟨0, allBut_opening h⟩
  | succ n ih =>
    obtain ⟨k, hk⟩ := ih
    have hlanguage := Machine.inLanguage_after p.valid_opening
      (Analysis.inLanguage_opening hin) rfl n
    have hv' : ((allBut y).machine (p.opening.after n)).Valid := by
      rw [hk]
      exact (p.without y).valid_opening.after k
    rw [Machine.after_succ]
    rcases allBut_step (p.valid_opening.after n) hv' hlanguage.1 (avoids_after h n) with
      hsame | hstep
    · exact ⟨k, by rw [hsame, hk]⟩
    · exact ⟨k + 1, by rw [hstep, hk, Machine.after_succ]⟩

theorem checked_without (hin : p.InLanguage) (h : Stmt.bodyAvoids y p.body) :
    (p.without y).problems = .ok (p.without y).checked.problems.toList ∧
      (p.without y).checked = (allBut y).analysis p.checked := by
  obtain ⟨n, hend, hok⟩ := hin.exists_end
  obtain ⟨k, hk⟩ := exists_allBut_after hin h n
  have hend' : ((p.without y).opening.after k).stack = [] := by
    rw [← hk, machine, hend]
    rfl
  have hok' : ((p.without y).opening.after k).failure = none := by
    rw [← hk]
    exact hok
  refine ⟨problems_eq_ok hend' hok', ?_⟩
  rw [analysis_checked _ hend hok, checked, check_eq_sweep hend' hok', ← hk]
  rfl

/-- Variables are checked independently of each other. For a name `y` that no
function of the program has, checking the program without what is about `y`
finds the same problems in the same order, less those about `y`, and leaves every
scope the same, less its contract for `y`. -/
theorem problems_without (hin : p.InLanguage) (h : Stmt.bodyAvoids y p.body) :
    ∃ ps, p.problems = .ok ps ∧
      (p.without y).problems = .ok (ps.filter fun problem => problem.symbol ≠ y) ∧
      (p.without y).checked.scopes.size = p.checked.scopes.size ∧
      ∀ i, (p.without y).checked.scope i =
        { p.checked.scope i with
          body := Stmt.bodyWithout y (p.checked.scope i).body
          contracts := (p.checked.scope i).contracts.erase y } := by
  obtain ⟨n, hend, hok⟩ := hin.exists_end
  obtain ⟨hproblems, hchecked⟩ := checked_without hin h
  refine ⟨_, problems_eq_ok hend hok, ?_, ?_, fun i => ?_⟩
  · rw [hproblems, hchecked]
    rfl
  · rw [hchecked, size_analysis]
  · rw [hchecked, scope_analysis]
    rfl

def interleaved : Program :=
  ⟨[.function "F" [.print "y", .print "x", .assign "y"],
    .call "F" false, .declare "y", .print "y", .declare "x", .call "F" true]⟩

theorem problems_without_interleaved :
    interleaved.InLanguage ∧ Stmt.bodyAvoids "y" interleaved.body ∧
      interleaved.problems = .ok [⟨.usedBeforeDeclared, "y"⟩, ⟨.notAssigned, "y"⟩,
        ⟨.usedBeforeDeclared, "x"⟩, ⟨.notAssigned, "x"⟩] ∧
      (interleaved.without "y").problems =
        .ok [⟨.usedBeforeDeclared, "x"⟩, ⟨.notAssigned, "x"⟩] := by
  have hin : interleaved.InLanguage := rfl
  have havoids : Stmt.bodyAvoids "y" interleaved.body := rfl
  have hproblems : interleaved.problems = .ok [⟨.usedBeforeDeclared, "y"⟩, ⟨.notAssigned, "y"⟩,
      ⟨.usedBeforeDeclared, "x"⟩, ⟨.notAssigned, "x"⟩] :=
    problems_eq_sweep (n := 20) rfl rfl
  obtain ⟨ps, hps, hwithout, _⟩ := problems_without hin havoids
  obtain rfl := Except.ok.inj (hps.symm.trans hproblems)
  exact ⟨hin, havoids, hproblems, hwithout⟩

end Program

end DefiniteAssignment
