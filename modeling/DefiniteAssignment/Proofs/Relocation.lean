import DefiniteAssignment.Proofs.Invariant
import DefiniteAssignment.Proofs.Translation

/-! Checks that follow other checks. A scope is named by its place in the arena,
so a check in an arena that is already in use finds every place moved by the
size of that arena. The move is a translation; hence checks that share an arena
do not disturb each other. -/
namespace DefiniteAssignment

namespace Sink

/-- The problems of `s`, then those of `t` that are not among them. -/
def append (s t : Sink) : Sink := ⟨s.toList ++ t.toList.filter (· ∉ s.toList)⟩

theorem append_insert (s t : Sink) (p : Problem) :
    s.append (t.insert p) = (s.append t).insert p := by
  unfold append insert contains
  by_cases hs : p ∈ s.toList
  · by_cases ht : p ∈ t.toList <;> simp [hs, ht]
  · by_cases ht : p ∈ t.toList <;> simp [hs, ht]

end Sink

def Table.map {α β : Type} (g : α → β) (t : Table α) : Table β :=
  ⟨t.entries.map fun e => (e.1, g e.2)⟩

def Scope.moved (k : Nat) (s : Scope) : Scope :=
  { s with
    enclosing := s.enclosing.map (k + ·)
    functions := s.functions.map (k + ·)
    always := s.always.map (k + ·) }

def Translation.move (k : Nat) : Translation where
  place := (k + ·)
  place_inj _ _ h := Nat.add_left_cancel h
  symbol := some
  symbol_inj := keep_inj
  callable := some
  callable_inj := keep_inj
  callable_of_symbol := id
  text := id
  text_nil := rfl
  title := id
  title_of_symbol := Option.some.inj

theorem Translation.renames_move (k : Nat) : (move k).Renames id where
  symbol _ := rfl
  text body := (Stmt.renameAll_id body).symm

theorem Scope.moved_eq (k : Nat) (s : Scope) : s.moved k = (Translation.move k).scope s := by
  simp [moved, Translation.scope, Translation.move, Table.map, Table.translate, Table.shown]

theorem Failure.unknownStatement_move (k : Nat) (s : Stmt) (scope : Scope) :
    unknownStatement (s.rename id) ((Translation.move k).scope scope).name =
      unknownStatement s scope.name := by
  rw [Stmt.rename_id, ← Scope.moved_eq]
  rfl

namespace Analysis

/-- The analysis `a`, had it been made in the arena that `old` left behind. -/
def followedBy (old a : Analysis) : Analysis where
  scopes := old.scopes ++ a.scopes.map (Scope.moved old.scopes.size)
  problems := old.problems.append a.problems
  count := old.count + a.count

theorem followedBy_empty (old : Analysis) : old.followedBy {} = old := by
  simp [followedBy, Sink.append]

theorem scope_followedBy (old a : Analysis) (i : Nat) :
    (old.followedBy a).scope (old.scopes.size + i) = (a.scope i).moved old.scopes.size := by
  unfold scope followedBy
  rw [Array.getElem?_append_right (Nat.le_add_right _ _), Nat.add_sub_cancel_left,
    Array.getElem?_map]
  cases a.scopes[i]? with
  | none => exact ((Scope.moved_eq _ _).trans (Translation.scope_default _)).symm
  | some s => rfl

theorem followedBy_update (old a : Analysis) (i : Nat) {f g : Scope → Scope}
    (h : ∀ s, (f s).moved old.scopes.size = g (s.moved old.scopes.size)) :
    old.followedBy (a.update i f) = (old.followedBy a).update (old.scopes.size + i) g := by
  simp only [followedBy, update, mk.injEq, and_true]
  apply Array.ext_getElem?
  intro j
  rw [Array.getElem?_modify, Array.getElem?_append, Array.getElem?_append]
  by_cases hj : j < old.scopes.size
  · simp [hj, show old.scopes.size + i ≠ j by omega]
  · simp only [hj, if_false, Array.getElem?_map, Array.getElem?_modify]
    by_cases hi : i = j - old.scopes.size
    · rw [if_pos hi, if_pos (by omega)]
      cases a.scopes[j - old.scopes.size]? with
      | none => rfl
      | some s => exact congrArg some (h s)
    · rw [if_neg hi, if_neg (by omega)]

theorem respects_followedBy (old : Analysis) :
    (Translation.move old.scopes.size).Respects old.followedBy where
  size a := by simp [followedBy, Translation.move]
  scope a i := (old.scope_followedBy a i).trans (Scope.moved_eq _ _)
  update a i f g h := old.followedBy_update a i fun s => by
    rw [Scope.moved_eq, Scope.moved_eq, h]
  push a s := by simp [followedBy, Scope.moved_eq]
  count a := by simp [followedBy, Nat.add_assoc]
  report hx a code := by
    obtain rfl := Option.some.inj hx
    simp only [followedBy, report, Sink.append_insert]
  hide hx := nomatch hx

section

variable {old : Analysis} (h : old.WellNested) (body : List Stmt)
include h

theorem carries_followedBy (n : Nat) :
    (Translation.move old.scopes.size).Carries old.followedBy id
      ((({} : Analysis).opening body).after n) ((old.opening body).after n) := by
  have hcarries := old.respects_followedBy.carries_after id
    (Translation.renames_move _) (Failure.unknownStatement_move _)
    .empty (by rwa [followedBy_empty]) body n
  rwa [followedBy_empty] at hcarries

theorem check_eq_followedBy : old.check body =
    (old.followedBy (({} : Analysis).check body).1, (({} : Analysis).check body).2) := by
  have hcheck := old.respects_followedBy.check id
    (Translation.renames_move _) (Failure.unknownStatement_move _)
    .empty (by rwa [followedBy_empty]) body
  rw [followedBy_empty, Option.map_id] at hcheck
  exact Prod.ext hcheck.1 hcheck.2

end

def Tidy (a : Analysis) : Prop := a.problems.toList.Nodup

namespace Tidy

variable {a : Analysis}

theorem report (h : a.Tidy) (code : Code) (x : String) : (a.report code x).Tidy :=
  Sink.nodup_insert ⟨code, x⟩ h

theorem use (h : a.Tidy) (i : Nat) (u : Use) (x : String) : (a.use i u x).Tidy := by
  have hreport : Tidy (if (a.view i x).readsUnassigned u then a.report .notAssigned x else a) := by
    split
    · exact h.report _ x
    · exact h
  unfold Analysis.use
  dsimp only
  split
  · exact hreport
  · exact hreport

theorem declareVariable (h : a.Tidy) (i : Nat) (x : String) : (a.declareVariable i x).Tidy := by
  unfold Analysis.declareVariable
  dsimp only
  split
  · exact h.report _ x
  · split
    · exact h.report _ x
    · split
      · exact h.report _ x
      · exact h

theorem propagate (i : Nat) (callee : String) (conditional : Bool) (l : List (String × Contract))
    (a : Analysis) (h : a.Tidy) : (a.propagate i callee conditional l).1.Tidy := by
  induction l generalizing a with
  | nil => exact h
  | cons e rest ih =>
    unfold Analysis.propagate
    split
    · exact ih a h
    · exact ih _ (h.use i _ _)
    · exact h

theorem completed (h : a.Tidy) (i callee : Nat) (conditional : Bool) :
    (a.completed i callee conditional).Tidy := by
  unfold Tidy
  rw [problems_completed]
  exact propagate i _ conditional _ a h

theorem registerOne (h : a.Tidy) (i : Nat) (f : String) (body : List Stmt) :
    (a.registerOne i f body).Tidy := by
  unfold Analysis.registerOne
  split
  · exact h.report _ f
  · exact h

theorem register (i : Nat) (l : List (String × List Stmt)) (a : Analysis) (h : a.Tidy) :
    (a.register i l).Tidy := by
  induction l generalizing a with
  | nil => exact h
  | cons e rest ih => exact ih _ (h.registerOne i e.1 e.2)

theorem enter (h : a.Tidy) (i : Nat) : (a.enter i).Tidy := by
  rw [enter_eq]
  exact register i _ _ h

theorem kept : KeptByChecks Tidy where
  note a b i s _ _ dispatched unresolved h := by
    obtain ⟨x, rfl⟩ | ⟨u, x, rfl⟩ | ⟨code, x, rfl⟩ | rfl := dispatch_cases dispatched unresolved
    · exact h.declareVariable i x
    · exact h.use i u x
    · exact h.report code x
    · exact h
  enter _ i _ _ _ h := h.enter i
  complete _ i j c _ _ _ h := h.completed i j c
  root _ _ _ h := h
  report _ code x h := h.report code x

end Tidy

/-- Checks that share an analysis do not disturb each other. After any earlier
checks, those included that ended in a failure, a check fails as it does in an
empty analysis. It adds the problems that it finds there and that are not listed
yet, in the same order; it leaves the scopes there as they are and places its own
behind them, with every place moved by their number; and it enters as many. -/
theorem check_undisturbed {a : Analysis} (h : a.Reached) (body : List Stmt) :
    (a.check body).2 = (({} : Analysis).check body).2 ∧
      (a.check body).1.problems.toList = a.problems.toList ++
        (({} : Analysis).check body).1.problems.toList.filter (· ∉ a.problems.toList) ∧
      (a.check body).1.problems.toList.Nodup ∧
      (a.check body).1.scopes =
        a.scopes ++ (({} : Analysis).check body).1.scopes.map (Scope.moved a.scopes.size) ∧
      (a.check body).1.count = a.count + (({} : Analysis).check body).1.count := by
  have htidy : (a.check body).1.Tidy := Tidy.kept.reached List.nodup_nil (.check h body)
  rw [check_eq_followedBy h.wellNested] at htidy ⊢
  exact ⟨rfl, rfl, htidy, rfl, rfl⟩

def interrupted : Analysis :=
  (({} : Analysis).check [.call "G" true, .function "F" [.print "y", .bare], .call "F" false]).1

def circular : List Stmt :=
  [.call "G" true, .declare "x", .print "x", .function "P" [.call "P" false], .call "P" true]

theorem check_undisturbed_interrupted : interrupted.Reached ∧
    interrupted.problems.toList = [⟨.unknownFunction, "G"⟩] ∧
    ((({} : Analysis).check circular).1.scope 1).always = [1] ∧
    (interrupted.check circular).2 = none ∧
    (interrupted.check circular).1.problems.toList =
      [⟨.unknownFunction, "G"⟩, ⟨.notAssigned, "x"⟩] ∧
    (interrupted.check circular).1.scopes =
      interrupted.scopes ++ (({} : Analysis).check circular).1.scopes.map (Scope.moved 2) ∧
    (interrupted.check circular).1.count = 4 := by
  have hreached : interrupted.Reached := .check .empty _
  have hend : interrupted = _ := congrArg Prod.fst (check_eq_of_stack_nil (n := 5) rfl)
  have hsize : interrupted.scopes.size = 2 := by
    rw [hend]
    rfl
  have hfresh := @check_eq_of_stack_nil {} circular 8 rfl
  obtain ⟨hfailure, hproblems, _, hscopes, hcount⟩ := check_undisturbed hreached circular
  rw [hsize] at hscopes
  refine ⟨hreached, ?_, ?_, ?_, ?_, hscopes, ?_⟩
  · rw [hend]
    rfl
  · rw [hfresh]
    rfl
  · rw [hfailure, hfresh]
    rfl
  · rw [hproblems, hfresh, hend]
    rfl
  · rw [hcount, hfresh, hend]
    rfl

end Analysis

end DefiniteAssignment
