import DefiniteAssignment.Proofs.Pace

/-! The arrangement of bodies. Where the declarations of functions stand among
the other statements, and whether a use is written once or twice in a row, has no
part in the result of a check. -/
namespace DefiniteAssignment

namespace Stmt

mutual

/-- The bodies differ in where the declarations of functions stand among the
other statements, here and inside the functions. Each of the two kinds stands in
the same order. -/
inductive Interleaved : List Stmt → List Stmt → Prop
  | intro {body body' : List Stmt} : others body' = others body →
      InterleavedEach (body.filterMap function?) (body'.filterMap function?) →
      Interleaved body body'

inductive InterleavedEach : List (String × List Stmt) → List (String × List Stmt) → Prop
  | nil : InterleavedEach [] []
  | cons (f : String) {body body' : List Stmt} {l l' : List (String × List Stmt)} :
      Interleaved body body' → InterleavedEach l l' →
      InterleavedEach ((f, body) :: l) ((f, body') :: l')

end

theorem InterleavedEach.forall₂ {l l' : List (String × List Stmt)} :
    InterleavedEach l l' → List.Forall₂ (fun e e' => e'.1 = e.1 ∧ Interleaved e.2 e'.2) l l'
  | .nil => .nil
  | .cons _ hbody hrest => .cons ⟨rfl, hbody⟩ hrest.forall₂

theorem Interleaved.arranges : Arranges Interleaved where
  others := by
    rintro body body' ⟨hothers, _⟩
    rw [hothers]
    exact .refl _
  functions := by
    rintro body body' ⟨_, heach⟩
    exact heach.forall₂

/-- The second body is the first with some uses written twice in a row, here and
inside the functions. -/
inductive Repeats : List Stmt → List Stmt → Prop
  | nil : Repeats [] []
  | keep {s : Stmt} {rest rest' : List Stmt} : s.function? = none → Repeats rest rest' →
      Repeats (s :: rest) (s :: rest')
  | function (f : String) {body body' rest rest' : List Stmt} : Repeats body body' →
      Repeats rest rest' → Repeats (.function f body :: rest) (.function f body' :: rest')
  | twice {s : Stmt} {rest rest' : List Stmt} : s.isUse → Repeats rest rest' →
      Repeats (s :: rest) (s :: s :: rest')

theorem function?_of_isUse {s : Stmt} (h : s.isUse) : s.function? = none := by
  cases s <;> simp_all [isUse, function?]

theorem Repeats.arranges : Arranges Repeats where
  others := by
    intro body body' h
    induction h with
    | nil => exact .nil
    | keep hs _ ih =>
      rw [others_cons hs, others_cons hs]
      exact .cons _ ih
    | function f _ _ _ ih => exact ih
    | twice hs _ ih =>
      rw [others_cons (function?_of_isUse hs), others_cons (function?_of_isUse hs),
        others_cons (function?_of_isUse hs)]
      exact .twice hs ih
  functions := by
    intro body body' h
    induction h with
    | nil => exact .nil
    | keep hs _ ih =>
      rw [List.filterMap_cons_none hs, List.filterMap_cons_none hs]
      exact ih
    | function f hbody _ _ ih => exact .cons ⟨rfl, hbody⟩ ih
    | twice hs _ ih =>
      have hnone := function?_of_isUse hs
      rw [List.filterMap_cons_none hnone, List.filterMap_cons_none hnone,
        List.filterMap_cons_none hnone]
      exact ih

end Stmt

namespace Program

variable {p q : Program}

theorem InLanguage.exists_problems (h : p.InLanguage) : ∃ ps, p.problems = .ok ps := by
  obtain ⟨n, hend, hok⟩ := h.exists_end
  exact ⟨_, problems_eq_ok hend hok⟩

/-- Where the declarations of functions stand among the other statements does not
matter: the check gives the same list of problems, or fails in the same way, counts
the same scopes, and finds out the same about each of them. -/
theorem problems_of_interleaved (h : Stmt.Interleaved p.body q.body) :
    q.problems = p.problems ∧ (p.InLanguage → ∃ ps, p.problems = .ok ps) ∧
      q.checked.count = p.checked.count ∧ q.checked.scopes.size = p.checked.scopes.size ∧
      ∀ i < p.checked.scopes.size,
        q.checked.scope i = { p.checked.scope i with body := (q.checked.scope i).body } ∧
          Stmt.Interleaved (p.checked.scope i).body (q.checked.scope i).body := by
  obtain ⟨halike, hproblems⟩ := alike_checked Stmt.Interleaved.arranges h
  refine ⟨hproblems, InLanguage.exists_problems, halike.count, halike.size, fun i hi => ?_⟩
  exact ⟨Restriction.scope_eq_of_textless halike.shown i, halike.bodies i hi⟩

def scattered : Program :=
  ⟨[.call "F" false,
    .function "F" [.print "x", .call "H" true, .function "H" [.assign "y"], .call "G" false],
    .declare "x", .function "G" [.assign "x"], .call "G" false, .print "y"]⟩

def gathered : Program :=
  ⟨[.function "F" [.function "H" [.assign "y"], .print "x", .call "H" true, .call "G" false],
    .function "G" [.assign "x"],
    .call "F" false, .declare "x", .call "G" false, .print "y"]⟩

theorem problems_of_interleaved_scattered :
    Stmt.Interleaved scattered.body gathered.body ∧
      scattered.problems = .ok [⟨.usedBeforeDeclared, "x"⟩, ⟨.notDeclared, "y"⟩] ∧
      gathered.problems = .ok [⟨.usedBeforeDeclared, "x"⟩, ⟨.notDeclared, "y"⟩] ∧
      gathered.checked.count = 4 := by
  have hinterleaved : Stmt.Interleaved scattered.body gathered.body :=
    .intro rfl (.cons "F" (.intro rfl (.cons "H" (.intro rfl .nil) .nil))
      (.cons "G" (.intro rfl .nil) .nil))
  have hend : (scattered.opening.after 19).stack = [] := rfl
  have hok : (scattered.opening.after 19).failure = none := rfl
  have hproblems : scattered.problems = .ok [⟨.usedBeforeDeclared, "x"⟩, ⟨.notDeclared, "y"⟩] :=
    problems_eq_sweep hend hok
  have hcount : scattered.checked.count = 4 := by
    rw [checked, check_eq_sweep hend hok]
    rfl
  obtain ⟨hsame, _, hsamecount, _⟩ := problems_of_interleaved hinterleaved
  exact ⟨hinterleaved, hproblems, hsame.trans hproblems, hsamecount.trans hcount⟩

/-- A use written twice in a row is one use: when some assignments, prints and
calls of a program of the language are repeated, the check gives the same list of
problems, counts the same scopes, and finds out the same about each of them. -/
theorem problems_of_repeats (hin : p.InLanguage) (h : Stmt.Repeats p.body q.body) :
    (∃ ps, p.problems = .ok ps ∧ q.problems = .ok ps) ∧
      q.checked.count = p.checked.count ∧ q.checked.scopes.size = p.checked.scopes.size ∧
      ∀ i < p.checked.scopes.size,
        q.checked.scope i = { p.checked.scope i with body := (q.checked.scope i).body } ∧
          Stmt.Repeats (p.checked.scope i).body (q.checked.scope i).body := by
  obtain ⟨halike, hproblems⟩ := alike_checked Stmt.Repeats.arranges h
  obtain ⟨ps, hps⟩ := hin.exists_problems
  refine ⟨⟨ps, hps, hproblems.trans hps⟩, halike.count, halike.size, fun i hi => ?_⟩
  exact ⟨Restriction.scope_eq_of_textless halike.shown i, halike.bodies i hi⟩

def terse : Program :=
  ⟨[.function "F" [.print "x", .call "F" true, .assign "y"],
    .function "L" [.call "F" false, .call "L" false, .print "z"],
    .declare "x", .call "F" false, .call "G" false, .assign "F", .call "L" true, .print "w"]⟩

def verbose : Program :=
  ⟨[.function "F" [.print "x", .print "x", .call "F" true, .call "F" true, .assign "y",
      .assign "y"],
    .function "L" [.call "F" false, .call "F" false, .call "L" false, .call "L" false, .print "z"],
    .declare "x", .call "F" false, .call "F" false, .call "G" false, .call "G" false,
    .assign "F", .assign "F", .call "L" true, .call "L" true, .print "w"]⟩

theorem problems_of_repeats_terse :
    terse.InLanguage ∧ Stmt.Repeats terse.body verbose.body ∧
      terse.problems = .ok [⟨.notAssigned, "x"⟩, ⟨.unknownFunction, "G"⟩, ⟨.assignToFunction, "F"⟩,
        ⟨.notDeclared, "y"⟩, ⟨.notDeclared, "w"⟩] ∧
      verbose.problems = terse.problems ∧ verbose.checked.count = 3 := by
  have hrepeats : Stmt.Repeats terse.body verbose.body :=
    .function "F" (.twice rfl (.twice rfl (.twice rfl .nil)))
      (.function "L" (.twice rfl (.twice rfl (.keep rfl .nil)))
        (.keep rfl (.twice rfl (.twice rfl (.twice rfl (.twice rfl (.keep rfl .nil)))))))
  have hin : terse.InLanguage := rfl
  have hend : (terse.opening.after 17).stack = [] := rfl
  have hok : (terse.opening.after 17).failure = none := rfl
  have hcount : terse.checked.count = 3 := by
    rw [checked, check_eq_sweep hend hok]
    rfl
  obtain ⟨⟨ps, hps, hps'⟩, hsamecount, _⟩ := problems_of_repeats hin hrepeats
  exact ⟨hin, hrepeats, problems_eq_sweep hend hok, hps'.trans hps.symm,
    hsamecount.trans hcount⟩

end Program

end DefiniteAssignment
