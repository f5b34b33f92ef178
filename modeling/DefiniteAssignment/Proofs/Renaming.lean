import DefiniteAssignment.Proofs.Translation
import Mathlib.Data.List.Basic
import Mathlib.Logic.Embedding.Basic

/-! Names mean nothing by themselves. An analysis only asks whether two names are
the same, so a renaming that keeps different names apart is a translation: the
check of a renamed program goes through the renamed moments. -/
namespace DefiniteAssignment

def Table.rename {α : Type} (f : String → String) (t : Table α) : Table α :=
  ⟨t.entries.map fun e => (f e.1, e.2)⟩

def Problem.rename (f : String → String) (p : Problem) : Problem := ⟨p.code, f p.symbol⟩

theorem Problem.rename_injective (f : String ↪ String) : Function.Injective (Problem.rename f) := by
  rintro ⟨code, x⟩ ⟨code', x'⟩ h
  simpa [rename] using h

namespace Sink

def rename (f : String → String) (s : Sink) : Sink := ⟨s.toList.map (Problem.rename f)⟩

theorem rename_insert (f : String ↪ String) (s : Sink) (p : Problem) :
    (s.insert p).rename f = (s.rename f).insert (p.rename f) := by
  have hmem : p.rename f ∈ s.toList.map (Problem.rename f) ↔ p ∈ s.toList :=
    List.mem_map_of_injective (Problem.rename_injective f)
  unfold insert contains rename
  by_cases hp : p ∈ s.toList
  · simp [hp, hmem.2 hp]
  · simp only [List.contains_iff_mem, hp, hmem, if_false, List.map_append, List.map_cons,
      List.map_nil]

end Sink

/-- The scope with its names renamed. An outermost scope has its name from nowhere
in the program, and keeps it. -/
def Scope.rename (f : String → String) (s : Scope) : Scope :=
  { s with
    name := if s.enclosing = [] then s.name else f s.name
    body := Stmt.renameAll f s.body
    contracts := s.contracts.rename f
    functions := s.functions.rename f }

def Translation.naming (f : String ↪ String) : Translation where
  place := id
  place_inj := Function.injective_id
  symbol x := some (f x)
  symbol_inj h h' := f.injective (keep_inj h h')
  callable x := some (f x)
  callable_inj h h' := f.injective (keep_inj h h')
  callable_of_symbol := id
  text := Stmt.renameAll f
  text_nil := rfl
  title := f
  title_of_symbol := Option.some.inj

theorem Translation.renames_naming (f : String ↪ String) : (naming f).Renames f :=
  ⟨fun _ => rfl, fun _ => rfl⟩

theorem Scope.rename_eq (f : String ↪ String) (s : Scope) :
    s.rename f = (Translation.naming f).scope s := by
  simp [rename, Translation.scope, Translation.naming, Table.rename, Table.translate, Table.shown]

namespace Analysis

def rename (f : String → String) (a : Analysis) : Analysis where
  scopes := a.scopes.map (Scope.rename f)
  problems := a.problems.rename f
  count := a.count

theorem rename_empty (f : String → String) : rename f {} = {} := by simp [rename, Sink.rename]

theorem scope_rename (f : String ↪ String) (a : Analysis) (i : Nat) :
    (a.rename f).scope i = (a.scope i).rename f := by
  simp only [scope, rename, Array.getElem?_map]
  cases a.scopes[i]? with
  | none => exact ((Scope.rename_eq f _).trans (Translation.scope_default _)).symm
  | some s => rfl

theorem respects_rename (f : String ↪ String) : (Translation.naming f).Respects (rename f) where
  size a := by simp [rename, Translation.naming]
  scope a i := (scope_rename f a i).trans (Scope.rename_eq f _)
  update a i g g' h := by
    simp only [rename, update, mk.injEq, and_true]
    exact map_modify (fun s => by rw [Scope.rename_eq, Scope.rename_eq, h]) a.scopes i
  push a s := by simp [rename, Scope.rename_eq]
  count a := rfl
  report hx a code := by
    obtain rfl := Option.some.inj hx
    simp only [rename, report, Sink.rename_insert]
    rfl
  hide hx := nomatch hx

end Analysis

namespace Program

def rename (f : String → String) (p : Program) : Program := ⟨Stmt.renameAll f p.body⟩

variable (f : String ↪ String)

theorem checked_rename (p : Program) : (p.rename f).checked = p.checked.rename f ∧
    (({} : Analysis).check (p.rename f).body).2.isSome =
      (({} : Analysis).check p.body).2.isSome := by
  -- Nothing is told of a failure, since its text quotes names.
  have hcheck := (Analysis.respects_rename f).check (fun _ => ())
    (Translation.renames_naming f) (fun _ _ => rfl) .empty
    (by rw [Analysis.rename_empty]; exact .empty) p.body
  rw [Analysis.rename_empty] at hcheck
  have hfailure := congrArg Option.isSome hcheck.2
  rw [Option.isSome_map, Option.isSome_map] at hfailure
  exact ⟨hcheck.1, hfailure⟩

/-- Renaming commutes with checking. For every program of the language and every
renaming that keeps different names apart, the check of the renamed program gives
the problems of the program, renamed, in the same order; its scopes are those of
the check of the program with their names renamed, with the same flags and the
same scopes always passed through; and as many are entered. -/
theorem problems_rename {p : Program} (hp : p.InLanguage) :
    ∃ ps, p.problems = .ok ps ∧ (p.rename f).problems = .ok (ps.map (Problem.rename f)) ∧
      (p.rename f).checked = p.checked.rename f ∧
      (p.rename f).checked.count = p.checked.count ∧
      ∀ i, ((p.rename f).checked.scope i).entered = (p.checked.scope i).entered ∧
        ((p.rename f).checked.scope i).recursive = (p.checked.scope i).recursive ∧
        ((p.rename f).checked.scope i).always = (p.checked.scope i).always := by
  obtain ⟨n, hend, hok⟩ := hp.exists_end
  have hnone := snd_check_eq_none hend hok
  obtain ⟨hchecked, hfailure⟩ := checked_rename f p
  rw [hnone] at hfailure
  have hnone' := Option.not_isSome_iff_eq_none.1 (Bool.not_eq_true _ |>.mpr hfailure)
  refine ⟨_, problems_of_snd_check hnone, ?_, hchecked, ?_, fun i => ?_⟩
  · rw [problems_of_snd_check hnone', hchecked]
    rfl
  · rw [hchecked]
    rfl
  · rw [hchecked, Analysis.scope_rename]
    exact ⟨rfl, rfl, rfl⟩

/-- A variable with the name that is shown for outermost scopes, read by a
function that never returns. -/
def namesake : Program :=
  ⟨[.declare Scope.rootName, .function "F" [.print Scope.rootName, .call "F" false, .print "z"],
    .call "F" true, .assign "F"]⟩

theorem problems_rename_namesake : namesake.InLanguage ∧
    namesake.problems = .ok [⟨.notAssigned, Scope.rootName⟩, ⟨.assignToFunction, "F"⟩] ∧
    (namesake.rename (Equiv.swap Scope.rootName "F")).problems =
      .ok [⟨.notAssigned, "F"⟩, ⟨.assignToFunction, Scope.rootName⟩] ∧
    ((namesake.rename (Equiv.swap Scope.rootName "F")).checked.scope 1).recursive = true := by
  have hend : (namesake.opening.after 8).stack = [] := rfl
  have hok : (namesake.opening.after 8).failure = none := rfl
  have hproblems : namesake.problems =
      .ok [⟨.notAssigned, Scope.rootName⟩, ⟨.assignToFunction, "F"⟩] :=
    problems_eq_sweep hend hok
  have hrecursive : (namesake.checked.scope 1).recursive = true := by
    rw [scope_checked hend hok]
    rfl
  obtain ⟨ps, hps, hrenamed, _, _, hscopes⟩ :=
    problems_rename (Equiv.swap Scope.rootName "F").toEmbedding (p := namesake) rfl
  obtain rfl := Except.ok.inj (hproblems.symm.trans hps)
  refine ⟨rfl, hproblems, ?_, (hscopes 1).2.1.trans hrecursive⟩
  simpa [Problem.rename] using hrenamed

end Program

end DefiniteAssignment
