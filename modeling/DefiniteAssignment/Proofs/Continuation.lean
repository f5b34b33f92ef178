import DefiniteAssignment.Proofs.Forward
import DefiniteAssignment.Proofs.Obligation
import DefiniteAssignment.Proofs.Report
import DefiniteAssignment.Proofs.Unwalked

/-! Programs that go on. Statements added at the end of a program are walked after
all others, so the check of the longer program comes to where the walk of the
program ends, and goes on from there. From then on problems are only added, and
what the outermost scope leaves open stays open unless a declaration of the name
is reported. -/
namespace DefiniteAssignment

theorem Contract.Advances.any_isObligation {c d : Option Contract} (h : Advances c d)
    (hc : c.any isObligation) : d.any isObligation := by
  cases h with
  | refl => exact hc
  | open_ hd => exact hd
  | inner_assigned => cases hc
  | _ => rfl

/-- Scope `i` has used `x` as a name from outside, and there is a trace of it: the
obligation stands, or the declaration that came too late is reported. -/
def Analysis.Traced (a : Analysis) (i : Nat) (x : String) : Prop :=
  ((a.scope i).contracts.get? x).any Contract.isObligation ∨
    ⟨.usedBeforeDeclared, x⟩ ∈ a.problems.toList

namespace Machine

variable {m : Machine} {i : Nat} {x : String}

theorem traced_step (hv : m.Valid) (hnames : m.analysis.Unambiguous) (h : m.analysis.Traced i x) :
    m.step.analysis.Traced i x := by
  have hforward := forward_step hv hnames
  rcases h with hopen | hreported
  · rcases hforward.contract i x with hadvances | ⟨_, hdeclares⟩
    · exact .inl (hadvances.any_isObligation hopen)
    · obtain ⟨c, hc, hobligation⟩ := (Option.any_eq_true _ _).1 hopen
      exact .inr ((hforward.declared i x c hdeclares hc).2.1 hobligation)
  · exact .inr (hv.extends_step.problems hreported)

theorem traced_after (hv : m.Valid) (hnames : m.analysis.Unambiguous) {n k : Nat} (hle : n ≤ k)
    (h : (m.after n).analysis.Traced i x) : (m.after k).analysis.Traced i x := by
  induction hle with
  | refl => exact h
  | @step k _ ih =>
    rw [after_succ]
    exact traced_step (hv.after k) (Analysis.Unambiguous.kept.after hv hnames k) ih

theorem Next.lowest {a : Analysis} {below : List Frame} {f : Frame} (h : Next a below f m)
    (hi : (below.getLast?.getD f).scope = i) : ∀ g ∈ m.stack.getLast?, g.scope = i := by
  have hbelow : ∀ g ∈ below.getLast?, g.scope = i := by
    intro g hg
    rw [Option.mem_def.1 hg] at hi
    exact hi
  have hcons : ∀ f', f'.scope = f.scope → ∀ g ∈ (f' :: below).getLast?, g.scope = i := by
    intro f' hf' g hg
    obtain rfl : below.getLast?.getD f' = g := by simpa [List.getLast?_cons] using hg
    cases hlast : below.getLast? with
    | none =>
      rw [hlast] at hi
      exact hf'.trans hi
    | some g => exact hbelow g hlast
  cases h with
  | finish i => exact hbelow
  | note _ _ => exact hcons _ rfl
  | @enter i g c rest j _ _ =>
    rw [List.getLast?_cons_cons]
    exact hcons ⟨i, rest, some (j, c)⟩ rfl
  | complete _ =>
    dsimp only
    split
    · exact hbelow
    · exact hcons _ (Frame.scope_resumed f)
  | fail _ => simp

theorem lowest_step (hv : m.Valid) (h : ∀ f ∈ m.stack.getLast?, f.scope = i) :
    ∀ f ∈ m.step.stack.getLast?, f.scope = i := by
  cases hs : m.stack with
  | nil =>
    rw [step_of_stack_nil hs]
    exact h
  | cons f below =>
    rw [hs, List.getLast?_cons] at h
    exact (next_step hs hv).lowest (h _ rfl)

theorem lowest_after (hv : m.Valid) (h : ∀ f ∈ m.stack.getLast?, f.scope = i) (n : Nat) :
    ∀ f ∈ (m.after n).stack.getLast?, f.scope = i := by
  induction n with
  | zero => exact h
  | succ n ih =>
    rw [after_succ]
    exact lowest_step (hv.after n) ih

theorem Valid.below_eq_nil (hv : m.Valid) (h : ∀ f ∈ m.stack.getLast?, f.scope = i) {f : Frame}
    {below : List Frame} (hs : m.stack = f :: below) (hf : f.scope = i) : below = [] := by
  cases hlast : below.getLast? with
  | none => exact List.getLast?_eq_none_iff.1 hlast
  | some g =>
    rw [hs, List.getLast?_cons, hlast] at h
    have hdistinct := hv.distinct
    rw [hs, List.map_cons, List.nodup_cons, hf, ← h g rfl] at hdistinct
    exact absurd (List.mem_map_of_mem (List.mem_of_getLast? hlast)) hdistinct.1

end Machine

namespace Program

open Restriction

def andThen (p : Program) (tail : List Stmt) : Program := ⟨p.body ++ tail⟩

variable {p : Program} {tail : List Stmt} {n i : Nat}

theorem filterMap_andThen (htail : tail.filterMap Stmt.function? = []) :
    (p.andThen tail).body.filterMap Stmt.function? = p.body.filterMap Stmt.function? := by
  rw [andThen, List.filterMap_append, htail, List.append_nil]

theorem bodyAt_andThen (htail : tail.filterMap Stmt.function? = []) (k : Nat) (path : List Nat) :
    (p.andThen tail).bodyAt (k :: path) = p.bodyAt (k :: path) := by
  induction path generalizing k with
  | nil => simp only [bodyAt, Option.bind_some, filterMap_andThen htail]
  | cons l path ih => rw [bodyAt, ih l, ← bodyAt]

theorem Arises.bodyAt_after {path : List Nat} (h : p.Arises path i)
    (hi : i < (p.opening.after n).analysis.scopes.size) :
    p.bodyAt path = some ((p.opening.after n).analysis.scope i).body := by
  rw [h.bodyAt_eq, ((p.extends_checked n).scope i hi).body]

theorem SideBySide.body_andThen (hside : p.SideBySide (p.andThen tail) n)
    (htail : tail.filterMap Stmt.function? = [])
    (hi : i < (p.opening.after n).analysis.scopes.size) :
    (((p.andThen tail).opening.after n).analysis.scope i).body =
      ((p.opening.after n).analysis.scope i).body ++ if i = 0 then tail else [] := by
  have hi' : i < ((p.andThen tail).opening.after n).analysis.scopes.size := by
    have hsize := congrArg (·.scopes.size) hside.abreast.analysis
    simp only [size_analysis] at hsize
    exact hsize ▸ hi
  obtain ⟨path, hp, hq⟩ := hside.arises i hi
  have hbody := hp.bodyAt_after hi
  have hbody' := hq.bodyAt_after hi'
  cases path with
  | nil =>
    obtain rfl := hp.unique .root
    rw [← Option.some.inj hbody, ← Option.some.inj hbody', if_pos rfl]
    rfl
  | cons k path =>
    have hne : i ≠ 0 := by
      rintro rfl
      exact absurd (hp.unique_path .root) (by simp)
    rw [bodyAt_andThen htail, hbody] at hbody'
    rw [if_neg hne, List.append_nil, Option.some.inj hbody']

theorem SideBySide.seesAlike_andThen (hside : p.SideBySide (p.andThen tail) n)
    (htail : tail.filterMap Stmt.function? = [])
    (hgoing : ∀ below, (p.opening.after n).stack ≠ ⟨0, [], none⟩ :: below) :
    (p.opening.after n).SeesAlike ((p.andThen tail).opening.after n) := by
  have hv := p.valid_opening.after n
  have hlt : ∀ f ∈ (p.opening.after n).stack, f.scope < (p.opening.after n).analysis.scopes.size :=
    fun f hf => Analysis.lt_size_of_entered (hv.fits f hf).entered
  refine ⟨fun i k hd => ?_, fun i below hs => ?_, fun j hj => ?_⟩
  · rw [hside.body_andThen htail (hlt _ (List.mem_of_mem_head? hd.2)),
      List.getElem?_append_left hd.1]
  · have hne : i ≠ 0 := by
      rintro rfl
      exact hgoing below hs
    have hi := hlt ⟨i, [], none⟩ (by rw [hs]; exact List.mem_cons_self)
    rw [hside.body_andThen htail hi, if_neg hne, List.append_nil]
  · have hat : p.EntersAt (n + 1) (p.opening.after n).analysis j := .call hj
    rw [hside.body_andThen htail hat.lt_size]
    unfold Stmt.functionNames
    rw [List.filterMap_append]
    split
    · rw [htail, List.append_nil]
    · rw [List.filterMap_nil, List.append_nil]

theorem lowest_opening (p : Program) (n : Nat) :
    ∀ f ∈ (p.opening.after n).stack.getLast?, f.scope = 0 := by
  refine Machine.lowest_after p.valid_opening ?_ n
  intro f hf
  obtain rfl : Frame.start (({} : Analysis).addRoot p.body) 0 = f := Option.some.inj hf
  rfl

/-- The two checks go side by side until the outermost scope of the first comes to
its end. -/
theorem sideBySide_andThen (htail : tail.filterMap Stmt.function? = [])
    (hok : (p.opening.after n).failure = none) : p.SideBySide (p.andThen tail) n ∨
      ∃ k < n, p.SideBySide (p.andThen tail) k ∧ (p.opening.after k).stack = [⟨0, [], none⟩] := by
  induction n with
  | zero =>
    refine .inl (.zero ?_)
    unfold Stmt.functionNames
    rw [filterMap_andThen htail]
  | succ n ih =>
    rcases ih (p.valid_opening.failure_of_le (Nat.le_succ n) hok) with hside | ⟨k, hk, hend⟩
    · by_cases hroot : ∃ below, (p.opening.after n).stack = ⟨0, [], none⟩ :: below
      · obtain ⟨below, hs⟩ := hroot
        have hbelow := (p.valid_opening.after n).below_eq_nil (p.lowest_opening n) hs rfl
        rw [hbelow] at hs
        exact .inr ⟨n, Nat.lt_succ_self n, hside, hs⟩
      · have halike := hside.seesAlike_andThen htail fun below hs => hroot ⟨below, hs⟩
        exact .inl (hside.succ halike hok)
    · exact .inr ⟨k, Nat.lt_succ_of_lt hk, hend⟩

theorem exists_textless_andThen (htail : tail.filterMap Stmt.function? = [])
    (hok : (p.opening.after n).failure = none) :
    ∃ k, textless.analysis ((p.andThen tail).opening.after k).analysis =
      textless.analysis (p.opening.after n).analysis := by
  rcases sideBySide_andThen htail hok with hside | ⟨k, hk, hside, hs⟩
  · exact ⟨n, hside.abreast.analysis⟩
  · have hstep : p.opening.after (k + 1) = ⟨(p.opening.after k).analysis, [], none⟩ := by
      rw [Machine.after_succ, Machine.step_of_finish hs]
    have hend : (p.opening.after (k + 1)).stack = [] := by rw [hstep]
    rw [Machine.after_of_le hk hend, hstep]
    exact ⟨k, hside.abreast.analysis⟩

theorem unambiguous_opening (p : Program) : p.opening.analysis.Unambiguous :=
  Analysis.Unambiguous.kept.opening .empty .empty p.body

theorem reported_of_traced {p : Program} (hp : p.InLanguage) {x : String}
    (h : (p.opening.after n).analysis.Traced 0 x) :
    ⟨.notDeclared, x⟩ ∈ p.checked.problems.toList ∨
      ⟨.usedBeforeDeclared, x⟩ ∈ p.checked.problems.toList := by
  obtain ⟨last, hend, hok⟩ := hp.exists_end
  have hlast : (p.opening.after last).analysis.Traced 0 x := by
    rw [← Machine.after_of_le (Nat.le_add_left last n) hend]
    exact Machine.traced_after p.valid_opening p.unambiguous_opening (Nat.le_add_right n last) h
  rcases hlast with hopen | hreported
  · obtain ⟨c, hc, hobligation⟩ := (Option.any_eq_true _ _).1 hopen
    rw [← scope_checked hend hok] at hc
    exact .inl (mem_problems_of_root hend hok hc hobligation)
  · exact .inr ((p.extends_checked last).problems hreported)

/-- Statements added at the end of a program heal nothing. For every program and
every list of statements without function declarations, both of the language, the
check of the program followed by the statements gives all problems of the program,
except that a variable no longer missing is reported as used before its
declaration. -/
theorem problems_andThen {p : Program} {tail : List Stmt} (hp : p.InLanguage)
    (htail : Stmt.allInLanguage tail) (hfunctions : ∀ f body, .function f body ∉ tail) :
    ∃ ps qs, p.problems = .ok ps ∧ (p.andThen tail).problems = .ok qs ∧
      (∀ problem ∈ ps, problem.code ≠ .notDeclared → problem ∈ qs) ∧
      ∀ x, ⟨.notDeclared, x⟩ ∈ ps → ⟨.notDeclared, x⟩ ∈ qs ∨ ⟨.usedBeforeDeclared, x⟩ ∈ qs := by
  have hq : (p.andThen tail).InLanguage := by
    refine Stmt.allInLanguage_iff.2 fun s hs => ?_
    exact (List.mem_append.1 hs).elim (Stmt.allInLanguage_iff.1 hp s)
      (Stmt.allInLanguage_iff.1 htail s)
  have hnone : tail.filterMap Stmt.function? = [] := by
    refine List.eq_nil_iff_forall_not_mem.2 fun e he => ?_
    exact hfunctions e.1 e.2 (Stmt.mem_filterMap_function?.1 he)
  obtain ⟨n, hend, hok⟩ := hp.exists_end
  obtain ⟨last, hend', hok'⟩ := hq.exists_end
  obtain ⟨k, hsame⟩ := exists_textless_andThen (n := n) hnone hok
  -- A problem of the program was found on the way, or is an obligation left at the end.
  have hcases : ∀ problem ∈ p.checked.problems.toList,
      problem ∈ (p.andThen tail).checked.problems.toList ∨
        ∃ x, problem = ⟨.notDeclared, x⟩ ∧
          ((p.andThen tail).opening.after k).analysis.Traced 0 x := by
    intro problem hproblem
    rw [checked, check_eq_sweep hend hok] at hproblem
    rcases Analysis.problems_sweep_cases _ _ hproblem with hfound | ⟨x, c, hx, hc, rfl⟩
    · rw [← problems_textless, ← hsame, problems_textless] at hfound
      exact .inl (((p.andThen tail).extends_checked k).problems hfound)
    · have hget := Table.get?_of_mem ((p.valid_opening.after n).nested.nodup 0) hx
      refine .inr ⟨x, rfl, .inl ?_⟩
      rw [scope_eq_of_textless hsame]
      exact (Option.any_eq_true _ _).2 ⟨c, hget, hc⟩
  refine ⟨_, _, problems_eq_ok hend hok, problems_eq_ok hend' hok', ?_, fun x hx => ?_⟩
  · intro problem hproblem hcode
    rcases hcases problem hproblem with hmem | ⟨x, rfl, _⟩
    · exact hmem
    · exact absurd rfl hcode
  · rcases hcases _ hx with hmem | ⟨y, heq, htraced⟩
    · exact .inl hmem
    · obtain rfl : x = y := congrArg Problem.symbol heq
      exact reported_of_traced hq htraced

def wanting : Program :=
  ⟨[.function "F" [.print "x"], .call "F" true, .print "y", .call "G" false]⟩

theorem problems_andThen_wanting : wanting.InLanguage ∧
    Stmt.allInLanguage [.declare "x", .assign "y", .call "F" false] ∧
    wanting.problems = .ok [⟨.unknownFunction, "G"⟩, ⟨.notDeclared, "x"⟩, ⟨.notDeclared, "y"⟩] ∧
    (wanting.andThen [.declare "x", .assign "y", .call "F" false]).problems =
      .ok [⟨.unknownFunction, "G"⟩, ⟨.usedBeforeDeclared, "x"⟩, ⟨.notAssigned, "x"⟩,
        ⟨.notDeclared, "y"⟩] ∧
    ∃ qs, (wanting.andThen [.declare "x", .assign "y", .call "F" false]).problems = .ok qs ∧
      ⟨.unknownFunction, "G"⟩ ∈ qs ∧
      (⟨.notDeclared, "x"⟩ ∈ qs ∨ ⟨.usedBeforeDeclared, "x"⟩ ∈ qs) ∧
      (⟨.notDeclared, "y"⟩ ∈ qs ∨ ⟨.usedBeforeDeclared, "y"⟩ ∈ qs) := by
  have hproblems : wanting.problems =
      .ok [⟨.unknownFunction, "G"⟩, ⟨.notDeclared, "x"⟩, ⟨.notDeclared, "y"⟩] :=
    problems_eq_sweep (n := 8) rfl rfl
  have htail : Stmt.allInLanguage [.declare "x", .assign "y", .call "F" false] := rfl
  obtain ⟨ps, qs, hps, hqs, hother, hmissing⟩ :=
    problems_andThen (p := wanting) rfl htail (by simp)
  obtain rfl := Except.ok.inj (hproblems.symm.trans hps)
  exact ⟨rfl, htail, hproblems, problems_eq_sweep (n := 11) rfl rfl, qs, hqs,
    hother _ (by simp) (by simp), hmissing "x" (by simp), hmissing "y" (by simp)⟩

end Program

end DefiniteAssignment
