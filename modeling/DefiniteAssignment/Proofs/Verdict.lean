import DefiniteAssignment.Proofs.Grounds
import DefiniteAssignment.Proofs.Occurrence
import DefiniteAssignment.Proofs.Relocation

/-! The verdict on statements that call none of their own functions. Nothing but the
outermost scope is walked then, so a check reads the statements once, from the first to
the last. What it reports at a statement depends on the functions that are declared at
all and on what stands before the statement, and all of it can be told from the text. -/
namespace DefiniteAssignment

theorem exists_split_concat {α : Type} {l : List α} {last : α} {P : List α → α → Prop} :
    (∃ before b behind, l ++ [last] = before ++ b :: behind ∧ P before b) ↔
      (∃ before b behind, l = before ++ b :: behind ∧ P before b) ∨ P l last := by
  constructor
  · rintro ⟨before, b, behind, heq, h⟩
    rcases List.eq_nil_or_concat' behind with rfl | ⟨behind, b', rfl⟩
    · obtain ⟨rfl, hlast⟩ := List.append_inj' heq rfl
      exact .inr (List.singleton_inj.1 hlast ▸ h)
    · rw [← List.cons_append, ← List.append_assoc] at heq
      exact .inl ⟨before, b, behind, (List.append_inj' heq rfl).1, h⟩
  · rintro (⟨before, b, behind, rfl, h⟩ | h)
    · exact ⟨before, b, behind ++ [last], by simp, h⟩
    · exact ⟨l, last, [], rfl, h⟩

namespace Stmt

def DeclaresFunction (body : List Stmt) (f : String) : Prop := ∃ inner, .function f inner ∈ body

/-- No assignment of the variable follows its last declaration. -/
def LeavesOpen (x : String) (done : List Stmt) : Prop := ∃ before between,
  done = before ++ .declare x :: between ∧ .declare x ∉ between ∧ .assign x ∉ between

/-- What is wrong about a name in statements that call none of their own functions. -/
def Faulty (body : List Stmt) (x : String) : Code → Prop
  | .alreadyDeclared => 2 ≤ body.countP (declares x)
  | .assignToFunction => DeclaresFunction body x ∧ .assign x ∈ body
  | .unknownFunction => ∃ c, .call x c ∈ body
  | .usedBeforeDeclared => ¬ DeclaresFunction body x ∧ ∃ before behind,
      body = before ++ .declare x :: behind ∧ .declare x ∉ before ∧
        (.assign x ∈ before ∨ .print x ∈ before)
  | .notDeclared => ¬ DeclaresFunction body x ∧ .declare x ∉ body ∧
      (.assign x ∈ body ∨ .print x ∈ body)
  | .notAssigned => ¬ DeclaresFunction body x ∧ ∃ before behind,
      body = before ++ .print x :: behind ∧ LeavesOpen x before
  | .other _ => False

def settle (x : String) (c : Option Contract) : Stmt → Option Contract
  | declare y => if y = x then some .inner else c
  | assign y => if y = x then (View.after ⟨false, c, false⟩ .assigned).or c else c
  | print y => if y = x then (View.after ⟨false, c, false⟩ .read).or c else c
  | function _ _ | call _ _ | bare | block _ => c

def settled (x : String) (done : List Stmt) : Option Contract := done.foldl (settle x) none

/-- What is reported at a statement of an outermost scope, behind the statements `done`. -/
inductive Finding (body done : List Stmt) : Stmt → Problem → Prop
  | redeclared {x : String} : DeclaresFunction body x →
      Finding body done (.declare x) ⟨.alreadyDeclared, x⟩
  | again {x : String} {c : Contract} : ¬ DeclaresFunction body x → settled x done = some c →
      c.isObligation = false → Finding body done (.declare x) ⟨.alreadyDeclared, x⟩
  | late {x : String} {c : Contract} : ¬ DeclaresFunction body x → settled x done = some c →
      c.isObligation = true → Finding body done (.declare x) ⟨.usedBeforeDeclared, x⟩
  | assign {x : String} : DeclaresFunction body x →
      Finding body done (.assign x) ⟨.assignToFunction, x⟩
  | print {x : String} : ¬ DeclaresFunction body x → settled x done = some .inner →
      Finding body done (.print x) ⟨.notAssigned, x⟩
  | call {f : String} {c : Bool} : Finding body done (.call f c) ⟨.unknownFunction, f⟩

section

variable {x : String} {done : List Stmt}

theorem leavesOpen_concat {s : Stmt} :
    LeavesOpen x (done ++ [s]) ↔ s = .declare x ∨ LeavesOpen x done ∧ s ≠ .assign x := by
  constructor
  · rintro ⟨before, between, heq, hdeclare, hassign⟩
    rcases List.eq_nil_or_concat' between with rfl | ⟨between, last, rfl⟩
    · exact .inl (List.singleton_inj.1 (List.append_inj' heq rfl).2)
    · rw [← List.cons_append, ← List.append_assoc] at heq
      obtain ⟨hdone, hlast⟩ := List.append_inj' heq rfl
      obtain rfl : s = last := List.singleton_inj.1 hlast
      simp only [List.mem_append, List.mem_singleton, not_or] at hdeclare hassign
      exact .inr ⟨⟨before, between, hdone, hdeclare.1, hassign.1⟩, Ne.symm hassign.2⟩
  · by_cases hs : s = .declare x
    · exact fun _ => ⟨done, [], by rw [hs], by simp, by simp⟩
    · rintro (hdeclare | ⟨⟨before, between, rfl, hdeclare, hassign⟩, hne⟩)
      · exact absurd hdeclare hs
      · exact ⟨before, between ++ [s], by simp, by simp [hdeclare, Ne.symm hs],
          by simp [hassign, Ne.symm hne]⟩

theorem settled_concat (x : String) (done : List Stmt) (s : Stmt) :
    settled x (done ++ [s]) = settle x (settled x done) s :=
  List.foldl_concat ..

theorem settled_isDeclared_iff :
    (∃ c, settled x done = some c ∧ c.isObligation = false) ↔ .declare x ∈ done := by
  induction done using List.reverseRecOn with
  | nil => simp [settled]
  | append_singleton done s ih =>
    rw [settled_concat, List.mem_append, ← ih]
    cases s <;> grind [settle, View.after, View.resolve, Contract.isObligation]

theorem settled_isObligation_iff :
    (∃ c, settled x done = some c ∧ c.isObligation = true) ↔
      .declare x ∉ done ∧ (.assign x ∈ done ∨ .print x ∈ done) := by
  induction done using List.reverseRecOn with
  | nil => simp [settled]
  | append_singleton done s ih =>
    have hdeclared := @settled_isDeclared_iff x done
    rw [settled_concat]
    cases s <;> grind [settle, View.after, View.resolve, Contract.isObligation]

theorem settled_eq_inner_iff : settled x done = some .inner ↔ LeavesOpen x done := by
  induction done using List.reverseRecOn with
  | nil => simp [settled, LeavesOpen]
  | append_singleton done s ih =>
    rw [settled_concat, leavesOpen_concat, ← ih]
    cases s <;> grind [settle, View.after, View.resolve]

end

theorem countP_declares (x : String) (body : List Stmt) : body.countP (declares x) =
    (body.filterMap function?).countP (·.1 = x) + body.count (.declare x) := by
  induction body with
  | nil => rfl
  | cons s rest ih =>
    rw [List.countP_cons, List.count_cons, ih]
    cases s with
    | function f inner =>
      simp only [List.filterMap_cons, function?, List.countP_cons, declares]
      simp
      omega
    | _ => simp [List.filterMap_cons, function?, declares] <;> omega

theorem countP_function_pos_iff {body : List Stmt} {f : String} :
    0 < (body.filterMap function?).countP (·.1 = f) ↔ DeclaresFunction body f := by
  rw [List.countP_pos_iff]
  constructor
  · rintro ⟨⟨g, inner⟩, hmem, hg⟩
    obtain rfl : g = f := by simpa using hg
    exact ⟨inner, mem_filterMap_function?.1 hmem⟩
  · rintro ⟨inner, hmem⟩
    exact ⟨(f, inner), mem_filterMap_function?.2 hmem, by simp⟩

theorem two_le_count_iff {body : List Stmt} {s : Stmt} :
    2 ≤ body.count s ↔ ∃ before behind, body = before ++ s :: behind ∧ s ∈ before := by
  constructor
  · intro h
    have hpos : 0 < body.count s := by omega
    obtain ⟨before, behind, rfl⟩ := List.append_of_mem (List.count_pos_iff.1 hpos)
    by_cases hbefore : s ∈ before
    · exact ⟨before, behind, rfl, hbefore⟩
    · rw [List.count_append, List.count_cons_self, List.count_eq_zero_of_not_mem hbefore] at h
      obtain ⟨between, behind, rfl⟩ := List.append_of_mem (List.count_pos_iff.1
        (show 0 < behind.count s by omega))
      exact ⟨before ++ s :: between, behind, by simp, by simp⟩
  · rintro ⟨before, behind, rfl, hbefore⟩
    have hpos := List.count_pos_iff.2 hbefore
    rw [List.count_append, List.count_cons_self]
    omega

theorem two_le_countP_declares_iff {body : List Stmt} {x : String} :
    2 ≤ body.countP (declares x) ↔ 2 ≤ (body.filterMap function?).countP (·.1 = x) ∨
      ∃ before s behind, body = before ++ s :: behind ∧
        Finding body before s ⟨.alreadyDeclared, x⟩ := by
  have hfunction := @countP_function_pos_iff body x
  rw [countP_declares]
  constructor
  · intro h
    by_cases htwo : 2 ≤ (body.filterMap function?).countP (·.1 = x)
    · exact .inl htwo
    · by_cases hf : DeclaresFunction body x
      · have hpos := hfunction.2 hf
        obtain ⟨before, behind, hbody⟩ := List.append_of_mem (List.count_pos_iff.1
          (show 0 < body.count (.declare x) by omega))
        exact .inr ⟨before, _, behind, hbody, .redeclared hf⟩
      · have hzero : ¬ 0 < (body.filterMap function?).countP (·.1 = x) := fun h => hf (hfunction.1 h)
        obtain ⟨before, behind, hbody, hbefore⟩ := two_le_count_iff.1
          (show 2 ≤ body.count (.declare x) by omega)
        obtain ⟨c, hc, hdeclared⟩ := settled_isDeclared_iff.2 hbefore
        exact .inr ⟨before, _, behind, hbody, .again hf hc hdeclared⟩
  · rintro (htwo | ⟨before, s, behind, hbody, hfinding⟩)
    · omega
    · cases hfinding with
      | redeclared hf =>
        have hpos := hfunction.2 hf
        have hcount : 0 < body.count (.declare x) := List.count_pos_iff.2 (by simp [hbody])
        omega
      | again hf hc hdeclared =>
        have hcount := two_le_count_iff.2
          ⟨before, behind, hbody, settled_isDeclared_iff.1 ⟨_, hc, hdeclared⟩⟩
        omega

/-- A fault of a body shows where functions share a name, at some statement, or when all
statements are read. -/
theorem faulty_iff_finding {body : List Stmt} {code : Code} {x : String} : Faulty body x code ↔
    (∃ f, (⟨code, x⟩ : Problem) = ⟨.alreadyDeclared, f⟩ ∧
      2 ≤ (body.filterMap function?).countP (·.1 = f)) ∨
    (∃ before s behind, body = before ++ s :: behind ∧ Finding body before s ⟨code, x⟩) ∨
    ∃ y c, (⟨code, x⟩ : Problem) = ⟨.notDeclared, y⟩ ∧ ¬ DeclaresFunction body y ∧
      settled y body = some c ∧ c.isObligation := by
  rw [iff_comm]
  cases code with
  | alreadyDeclared =>
    simp only [Faulty, two_le_countP_declares_iff, Problem.mk.injEq, true_and,
      reduceCtorEq, false_and, exists_false, or_false, exists_eq_left']
  | usedBeforeDeclared =>
    simp only [Problem.mk.injEq, reduceCtorEq, false_and, exists_false, false_or, or_false]
    constructor
    · rintro ⟨before, s, behind, hbody, hfinding⟩
      cases hfinding with
      | late hf hc hobligation =>
        exact ⟨hf, before, behind, hbody, settled_isObligation_iff.1 ⟨_, hc, hobligation⟩⟩
    · rintro ⟨hf, before, behind, hbody, hused⟩
      obtain ⟨c, hc, hobligation⟩ := settled_isObligation_iff.2 hused
      exact ⟨before, _, behind, hbody, .late hf hc hobligation⟩
  | assignToFunction =>
    simp only [Problem.mk.injEq, reduceCtorEq, false_and, exists_false, false_or, or_false]
    constructor
    · rintro ⟨before, s, behind, hbody, hfinding⟩
      cases hfinding with
      | assign hf => exact ⟨hf, by simp [hbody]⟩
    · rintro ⟨hf, hassign⟩
      obtain ⟨before, behind, hbody⟩ := List.append_of_mem hassign
      exact ⟨before, _, behind, hbody, .assign hf⟩
  | unknownFunction =>
    simp only [Problem.mk.injEq, reduceCtorEq, false_and, exists_false, false_or, or_false]
    constructor
    · rintro ⟨before, s, behind, hbody, hfinding⟩
      cases hfinding with
      | @call _ c => exact ⟨c, by simp [hbody]⟩
    · rintro ⟨c, hcall⟩
      obtain ⟨before, behind, hbody⟩ := List.append_of_mem hcall
      exact ⟨before, _, behind, hbody, .call⟩
  | notDeclared =>
    simp only [Problem.mk.injEq, reduceCtorEq, false_and, exists_false, false_or, true_and]
    constructor
    · rintro (⟨before, s, behind, hbody, hfinding⟩ | ⟨y, c, rfl, hf, hc, hobligation⟩)
      · cases hfinding
      · exact ⟨hf, settled_isObligation_iff.1 ⟨c, hc, hobligation⟩⟩
    · rintro ⟨hf, hused⟩
      obtain ⟨c, hc, hobligation⟩ := settled_isObligation_iff.2 hused
      exact .inr ⟨x, c, rfl, hf, hc, hobligation⟩
  | notAssigned =>
    simp only [Problem.mk.injEq, reduceCtorEq, false_and, exists_false, false_or, or_false]
    constructor
    · rintro ⟨before, s, behind, hbody, hfinding⟩
      cases hfinding with
      | print hf hinner => exact ⟨hf, before, behind, hbody, settled_eq_inner_iff.1 hinner⟩
    · rintro ⟨hf, before, behind, hbody, hopen⟩
      exact ⟨before, _, behind, hbody, .print hf (settled_eq_inner_iff.2 hopen)⟩
  | other text =>
    simp only [Problem.mk.injEq, reduceCtorEq, false_and, exists_false, false_or, or_false]
    refine iff_of_false ?_ id
    rintro ⟨before, s, behind, hbody, hfinding⟩
    cases hfinding

end Stmt

namespace Analysis

section

variable {a : Analysis} {i : Nat}

theorem isTaken_outermost (houter : (a.scope i).enclosing = []) (f : String) :
    a.isTaken i f = a.isFunction i f := by
  simp [isTaken, contracts, ContractMap.declaredAround, houter]

theorem isFunction_outermost (houter : (a.scope i).enclosing = []) (f : String) :
    a.isFunction i f = ((a.scope i).functions.get? f).isSome := by
  simp [isFunction, lookup, houter]

theorem view_outermost (houter : (a.scope i).enclosing = []) (x : String) :
    a.view i x = ⟨a.isFunction i x, (a.scope i).contracts.get? x, false⟩ := by
  simp [view, contracts, ContractMap.get?, ContractMap.boundAround, houter]

theorem mem_problems_report_iff {code : Code} {x : String} {problem : Problem} :
    problem ∈ (a.report code x).problems.toList ↔
      problem ∈ a.problems.toList ∨ problem = ⟨code, x⟩ :=
  Sink.mem_insert

theorem registerOne_outermost (hi : i < a.scopes.size) (houter : (a.scope i).enclosing = [])
    (g : String) (body : List Stmt) :
    ((a.registerOne i g body).scope i).enclosing = [] ∧
      (∀ f, (a.registerOne i g body).isFunction i f ↔ a.isFunction i f ∨ f = g) ∧
      ∀ problem, problem ∈ (a.registerOne i g body).problems.toList ↔
        problem ∈ a.problems.toList ∨ problem = ⟨.alreadyDeclared, g⟩ ∧ a.isFunction i g := by
  unfold registerOne
  rw [isTaken_outermost houter]
  split
  · rename_i hg
    refine ⟨houter, fun f => ?_, fun problem => ?_⟩
    · have hsame : (a.report .alreadyDeclared g).isFunction i f = a.isFunction i f := rfl
      rw [hsame, or_iff_left_of_imp]
      rintro rfl
      exact hg
    · rw [mem_problems_report_iff, and_iff_left hg]
  · rename_i hg
    have hown := scope_registered hi g body i
    rw [if_pos rfl] at hown
    have houter' : (((a.addFunction i g body).setFunction i g a.scopes.size).scope i).enclosing =
        [] := by
      rw [hown]
      exact houter
    refine ⟨houter', fun f => ?_, fun problem => ?_⟩
    · rw [isFunction_outermost houter', isFunction_outermost houter, hown, Table.get?_insert]
      split <;> simp_all
    · simp only [hg, Bool.false_eq_true, and_false, or_false]
      rfl

theorem mem_problems_declareVariable_iff (houter : (a.scope i).enclosing = []) {x : String}
    {problem : Problem} : problem ∈ (a.declareVariable i x).problems.toList ↔
      problem ∈ a.problems.toList ∨ (a.isFunction i x ∧ problem = ⟨.alreadyDeclared, x⟩) ∨
        (a.isFunction i x = false ∧ ∃ c, (a.scope i).contracts.get? x = some c ∧
          problem = ⟨if c.isObligation then .usedBeforeDeclared else .alreadyDeclared, x⟩) := by
  have haround : (a.contracts i).declaredAround x = false := by
    simp [contracts, ContractMap.declaredAround, houter]
  have hset : ∀ b : Analysis, (b.setContract i x .inner).problems = b.problems := fun _ => rfl
  unfold declareVariable
  rw [view_outermost houter]
  cases hf : a.isFunction i x with
  | true => simp [mem_problems_report_iff]
  | false =>
    cases hc : (a.scope i).contracts.get? x with
    | none => simp [haround, hset]
    | some c => simp [hset, mem_problems_report_iff]

theorem register_outermost (hi : i < a.scopes.size) (houter : (a.scope i).enclosing = [])
    (hnone : ∀ f, a.isFunction i f = false) (l : List (String × List Stmt)) :
    ((a.register i l).scope i).enclosing = [] ∧
      (∀ f, (a.register i l).isFunction i f ↔ 0 < l.countP (·.1 = f)) ∧
      ∀ problem, problem ∈ (a.register i l).problems.toList ↔ problem ∈ a.problems.toList ∨
        ∃ f, problem = ⟨.alreadyDeclared, f⟩ ∧ 2 ≤ l.countP (·.1 = f) := by
  induction l using List.reverseRecOn with
  | nil => exact ⟨houter, by simp [register, hnone], by simp [register]⟩
  | append_singleton l e ih =>
    obtain ⟨g, body⟩ := e
    obtain ⟨houter', hfunction, hproblems⟩ := ih
    have hregisters : Registers i l a (a.register i l) := .register l a hi fun _ he => he
    obtain ⟨houter'', hone, hadded⟩ :=
      registerOne_outermost (Nat.lt_of_lt_of_le hi hregisters.size) houter' g body
    have hlast : a.register i (l ++ [(g, body)]) = (a.register i l).registerOne i g body :=
      register_append i l [(g, body)] a
    have hcount : ∀ f, (l ++ [(g, body)]).countP (·.1 = f) =
        l.countP (·.1 = f) + if g = f then 1 else 0 := by
      intro f
      rw [List.countP_append, List.countP_singleton]
      simp
    rw [hlast]
    refine ⟨houter'', fun f => ?_, fun problem => ?_⟩
    · rw [hone, hfunction]
      rw [hcount]
      split <;> grind
    · rw [hadded, hproblems, hfunction]
      simp only [hcount]
      grind

end

structure Walked (body done : List Stmt) (a : Analysis) : Prop where
  entered : (a.scope 0).entered
  outermost : (a.scope 0).enclosing = []
  function : ∀ f, a.isFunction 0 f ↔ Stmt.DeclaresFunction body f
  settled : ∀ x, ¬ Stmt.DeclaresFunction body x →
    (a.scope 0).contracts.get? x = Stmt.settled x done
  blank : ∀ x, Stmt.DeclaresFunction body x → (a.scope 0).contracts.get? x = none
  problems : ∀ problem, problem ∈ a.problems.toList ↔
    (∃ f, problem = ⟨.alreadyDeclared, f⟩ ∧
      2 ≤ (body.filterMap Stmt.function?).countP (·.1 = f)) ∨
    ∃ before s behind, done = before ++ s :: behind ∧ Stmt.Finding body before s problem

namespace Walked

variable {body done : List Stmt} {a b : Analysis} {s : Stmt}

theorem concat (h : Walked body done a) (hn : Notes 0 a b)
    (hsettled : ∀ x, ¬ Stmt.DeclaresFunction body x → (b.scope 0).contracts.get? x =
      Stmt.settle x ((a.scope 0).contracts.get? x) s)
    (hblank : ∀ x, Stmt.DeclaresFunction body x →
      (b.scope 0).contracts.get? x = (a.scope 0).contracts.get? x)
    (hproblems : ∀ problem, problem ∈ b.problems.toList ↔
      problem ∈ a.problems.toList ∨ Stmt.Finding body done s problem) :
    Walked body (done ++ [s]) b where
  entered := by rw [hn.within.entered, h.entered]
  outermost := by rw [hn.within.enclosing, h.outermost]
  function f := by rw [isFunction, hn.within.lookup, ← isFunction, h.function]
  settled x hx := by rw [hsettled x hx, h.settled x hx, Stmt.settled_concat]
  blank x hx := by rw [hblank x hx, h.blank x hx]
  problems problem := by
    rw [hproblems, h.problems, or_assoc, exists_split_concat]

theorem get?_use_variable (h : Walked body done a) (u : Use) (x : String) {y : String}
    (hy : ¬ Stmt.DeclaresFunction body y) : ((a.use 0 u x).scope 0).contracts.get? y =
      if x = y then (View.after ⟨false, (a.scope 0).contracts.get? y, false⟩ u).or
        ((a.scope 0).contracts.get? y)
      else (a.scope 0).contracts.get? y := by
  have hf : a.isFunction 0 y = false := by simp [Bool.eq_false_iff, h.function, hy]
  rw [get?_use a (lt_size_of_entered h.entered), view_outermost h.outermost]
  grind

theorem get?_use_function (h : Walked body done a) (u : Use) (x : String) {y : String}
    (hy : Stmt.DeclaresFunction body y) :
    ((a.use 0 u x).scope 0).contracts.get? y = (a.scope 0).contracts.get? y := by
  rw [get?_use a (lt_size_of_entered h.entered)]
  split
  · rename_i hyx
    rw [← hyx, View.after_of_isFunction ((h.function y).2 hy), Option.none_or]
  · rfl

theorem dispatch (h : Walked body done a) (hs : s.inLanguage)
    (hcall : ∀ f c, s = .call f c → ¬ Stmt.DeclaresFunction body f) :
    ∃ b, a.dispatch 0 s = (b, .proceed) ∧ Walked body (done ++ [s]) b := by
  have hi := lt_size_of_entered h.entered
  have hfunction : ∀ f, ¬ Stmt.DeclaresFunction body f → a.isFunction 0 f = false :=
    fun f hf => Bool.eq_false_iff.2 fun htrue => hf ((h.function f).1 htrue)
  cases s with
  | declare x =>
    refine ⟨_, rfl, h.concat (.declareVariable 0 a x) ?_ ?_ ?_⟩
    · intro y hy
      rw [get?_declareVariable a hi]
      grind [Stmt.settle]
    · intro y hy
      rw [get?_declareVariable a hi, if_neg]
      rintro ⟨rfl, hfalse⟩
      simp [(h.function y).2 hy] at hfalse
    · intro problem
      rw [mem_problems_declareVariable_iff h.outermost]
      refine or_congr_right ⟨?_, ?_⟩
      · rintro (⟨hf, rfl⟩ | ⟨hf, c, hc, rfl⟩)
        · exact .redeclared ((h.function x).1 hf)
        · have hvariable : ¬ Stmt.DeclaresFunction body x := by simp [← h.function, hf]
          rw [h.settled x hvariable] at hc
          cases hobligation : c.isObligation with
          | true => exact .late hvariable hc hobligation
          | false => exact .again hvariable hc hobligation
      · rintro (hf | ⟨hf, hc, hobligation⟩ | ⟨hf, hc, hobligation⟩)
        · exact .inl ⟨(h.function x).2 hf, rfl⟩
        · exact .inr ⟨hfunction x hf, _, (h.settled x hf).trans hc, by simp [hobligation]⟩
        · exact .inr ⟨hfunction x hf, _, (h.settled x hf).trans hc, by simp [hobligation]⟩
  | assign x =>
    by_cases hx : Stmt.DeclaresFunction body x
    · refine ⟨a.report .assignToFunction x, ?_, h.concat (.report 0 a _ x) ?_ ?_ ?_⟩
      · simp [Analysis.dispatch, (h.function x).2 hx]
      · intro y hy
        have hne : x ≠ y := by
          rintro rfl
          exact hy hx
        simp [Stmt.settle, hne]
      · exact fun _ _ => rfl
      · intro problem
        rw [mem_problems_report_iff]
        refine or_congr_right ⟨?_, ?_⟩
        · rintro rfl
          exact .assign hx
        · rintro ⟨⟩
          rfl
    · refine ⟨a.use 0 .assigned x, ?_, h.concat (.use 0 a .assigned x) ?_ ?_ ?_⟩
      · simp [Analysis.dispatch, hfunction x hx]
      · exact fun y hy => h.get?_use_variable .assigned x hy
      · exact fun y hy => h.get?_use_function .assigned x hy
      · intro problem
        rw [mem_problems_use_iff, readsUnassigned_iff]
        refine or_congr_right ⟨?_, ?_⟩
        · rintro ⟨_, _, ⟨⟩, _⟩
        · intro hfinding
          cases hfinding with
          | assign hf => exact absurd hf hx
  | print x =>
    refine ⟨_, rfl, h.concat (.use 0 a .read x) ?_ ?_ ?_⟩
    · exact fun y hy => h.get?_use_variable .read x hy
    · exact fun y hy => h.get?_use_function .read x hy
    · intro problem
      rw [mem_problems_use_iff, readsUnassigned_iff]
      refine or_congr_right ⟨?_, ?_⟩
      · rintro ⟨rfl, hf, _, hinner⟩
        have hvariable : ¬ Stmt.DeclaresFunction body x := by simp [← h.function, hf]
        exact .print hvariable ((h.settled x hvariable).symm.trans hinner)
      · intro hfinding
        cases hfinding with
        | print hvariable hinner =>
          exact ⟨rfl, hfunction x hvariable, rfl, (h.settled x hvariable).trans hinner⟩
  | function f inner =>
    refine ⟨a, rfl, h.concat (.refl 0 a) (fun _ _ => rfl) (fun _ _ => rfl) fun problem => ?_⟩
    rw [or_iff_left]
    rintro ⟨⟩
  | call f c =>
    have hnone : a.lookup 0 f = none := by
      simpa [isFunction] using hfunction f (hcall f c rfl)
    refine ⟨a.report .unknownFunction f, ?_, h.concat (.report 0 a _ f) ?_ ?_ ?_⟩
    · simp [Analysis.dispatch, resolveCall, hnone]
    · exact fun _ _ => rfl
    · exact fun _ _ => rfl
    · intro problem
      rw [mem_problems_report_iff]
      refine or_congr_right ⟨?_, ?_⟩
      · rintro rfl
        exact .call
      · rintro ⟨⟩
        rfl
  | bare => cases hs
  | block inner => cases hs

end Walked

end Analysis

namespace Program

open Analysis

variable {p : Program}

theorem walked_opening (p : Program) : Walked p.body [] p.opening.analysis := by
  let a := ({} : Analysis).addRoot p.body
  have hlt : 0 < a.scopes.size := root_lt_size {} p.body
  have hroot : a.scope 0 = { name := Scope.rootName, body := p.body } :=
    (scope_addRoot {} p.body 0).trans (if_pos rfl)
  have houter : ((a.marked 0).scope 0).enclosing = [] := by rw [enclosing_marked, hroot]
  have hnone : ∀ f, (a.marked 0).isFunction 0 f = false := by
    intro f
    simp [isFunction_outermost houter, hroot]
  obtain ⟨houter', hfunction, hproblems⟩ := register_outermost (i := 0) (by simpa using hlt) houter
    hnone (p.body.filterMap Stmt.function?)
  have hopening : p.opening.analysis = (a.marked 0).register 0 (p.body.filterMap Stmt.function?) := by
    rw [show p.opening.analysis = a.enter 0 from rfl, enter_eq, hroot]
  have hcontracts : (p.opening.analysis.scope 0).contracts = {} := by
    have hfindings := findings_opening {} p.body 0
    rw [scope_empty] at hfindings
    exact congrArg Prod.fst hfindings
  constructor
  · exact ((Enters.enter a hlt).entered_iff 0).2 (.inl rfl)
  · rw [hopening, houter']
  · intro f
    rw [hopening, hfunction, Stmt.countP_function_pos_iff]
  · intro x _
    rw [hcontracts]
    rfl
  · intro x _
    rw [hcontracts]
    rfl
  · intro problem
    have hempty : (a.marked 0).problems.toList = [] := rfl
    rw [hopening, hproblems, hempty]
    simp

theorem walked_after (hin : p.InLanguage)
    (hcalls : ∀ f c, .call f c ∈ p.body → ¬ Stmt.DeclaresFunction p.body f) (done rest : List Stmt)
    (hbody : p.body = done ++ rest) :
    (p.opening.after done.length).stack = [⟨0, rest, none⟩] ∧
      Walked p.body done (p.opening.after done.length).analysis := by
  induction done using List.reverseRecOn generalizing rest with
  | nil =>
    obtain rfl : p.body = rest := hbody
    exact ⟨rfl, p.walked_opening⟩
  | append_singleton done s ih =>
    obtain ⟨hstack, hwalked⟩ := ih (s :: rest) (by simp [hbody])
    have hmem : s ∈ p.body := by simp [hbody]
    obtain ⟨b, hdispatch, hnext⟩ := hwalked.dispatch (Stmt.allInLanguage_iff.1 hin s hmem)
      fun f c hs => hcalls f c (hs ▸ hmem)
    rw [List.length_append, List.length_singleton, Machine.after_succ,
      Machine.step_of_proceed hstack hdispatch]
    exact ⟨rfl, hnext⟩

theorem mem_problems_iff_finding (hin : p.InLanguage)
    (hcalls : ∀ f c, .call f c ∈ p.body → ¬ Stmt.DeclaresFunction p.body f) {problem : Problem} :
    problem ∈ p.checked.problems.toList ↔
      (∃ f, problem = ⟨.alreadyDeclared, f⟩ ∧
        2 ≤ (p.body.filterMap Stmt.function?).countP (·.1 = f)) ∨
      (∃ before s behind, p.body = before ++ s :: behind ∧
        Stmt.Finding p.body before s problem) ∨
      ∃ x c, problem = ⟨.notDeclared, x⟩ ∧ ¬ Stmt.DeclaresFunction p.body x ∧
        Stmt.settled x p.body = some c ∧ c.isObligation := by
  obtain ⟨hstack, hwalked⟩ := p.walked_after hin hcalls p.body [] (by simp)
  have hlast : p.opening.after (p.body.length + 1) =
      ⟨(p.opening.after p.body.length).analysis, [], none⟩ := by
    rw [Machine.after_succ, Machine.step_of_finish hstack]
  have hend : (p.opening.after (p.body.length + 1)).stack = [] := by rw [hlast]
  have hok : (p.opening.after (p.body.length + 1)).failure = none := by rw [hlast]
  have hnested := (p.valid_opening.after (p.body.length + 1)).nested
  rw [checked, check_eq_sweep hend hok]
  simp only [hlast] at hnested ⊢
  generalize (p.opening.after p.body.length).analysis = a at hwalked hnested
  rw [← or_assoc, ← hwalked.problems]
  constructor
  · intro h
    refine (problems_sweep_cases _ a h).imp id ?_
    rintro ⟨x, c, hx, hc, rfl⟩
    have hget := Table.get?_of_mem (hnested.nodup 0) hx
    have hvariable : ¬ Stmt.DeclaresFunction p.body x := by
      intro hf
      rw [hwalked.blank x hf] at hget
      cases hget
    exact ⟨x, c, rfl, hvariable, (hwalked.settled x hvariable).symm.trans hget, hc⟩
  · rintro (h | ⟨x, c, rfl, hvariable, hsettled, hc⟩)
    · exact problems_sweep_subset _ a h
    · refine mem_problems_sweep _ a (hnested.entries_known 0) (Table.mem_entries_of_get? ?_) hc
      exact (hwalked.settled x hvariable).trans hsettled

/-- A program that calls none of its outermost functions is judged by its outermost
statements alone. A problem is listed if and only if they are at fault in that way, and no
problem is listed twice. -/
theorem mem_problems_iff_faulty (p : Program) (hin : p.InLanguage)
    (hcalls : ∀ f c, .call f c ∈ p.body → ¬ Stmt.DeclaresFunction p.body f) :
    ∃ ps, p.problems = .ok ps ∧ ps.Nodup ∧
      ∀ code x, ⟨code, x⟩ ∈ ps ↔ Stmt.Faulty p.body x code := by
  obtain ⟨n, hend, hok⟩ := hin.exists_end
  refine ⟨_, problems_eq_ok hend hok, Tidy.kept.reached List.nodup_nil (.check .empty p.body), ?_⟩
  intro code x
  rw [mem_problems_iff_finding hin hcalls, Stmt.faulty_iff_finding]

def flatSample : Program :=
  ⟨[.print "x", .declare "x", .print "x", .assign "x", .print "x", .declare "x", .assign "f",
    .function "f" [.print "x", .call "g" false], .call "h" true, .print "f", .print "z"]⟩

theorem mem_problems_iff_faulty_flatSample : flatSample.InLanguage ∧
    (∀ f c, .call f c ∈ flatSample.body → ¬ Stmt.DeclaresFunction flatSample.body f) ∧
    ∃ ps, flatSample.problems = .ok ps ∧ ps.Nodup ∧
      ∀ code x, ⟨code, x⟩ ∈ ps ↔ Stmt.Faulty flatSample.body x code := by
  have hin : flatSample.InLanguage := by rfl
  have hcalls : ∀ f c, .call f c ∈ flatSample.body →
      ¬ Stmt.DeclaresFunction flatSample.body f := by
    simp [flatSample, Stmt.DeclaresFunction]
  exact ⟨hin, hcalls, flatSample.mem_problems_iff_faulty hin hcalls⟩

end Program

end DefiniteAssignment
