import DefiniteAssignment.Proofs.Translation

/-! Analyses seen in part. A restriction shows the contracts and problems of
some names only, and of every body a part: a translation that leaves scopes at
their places. So what is hidden never has a bearing on what is shown. -/
namespace DefiniteAssignment

structure Restriction where
  shows : String → Bool
  cut : List Stmt → List Stmt
  cut_nil : cut [] = []

def Table.restrict {α : Type} (t : Table α) (shows : String → Bool) : Table α :=
  ⟨t.entries.filter fun entry => shows entry.1⟩

namespace Sink

def restrict (s : Sink) (shows : String → Bool) : Sink :=
  ⟨s.toList.filter fun problem => shows problem.symbol⟩

theorem restrict_insert (shows : String → Bool) (s : Sink) (p : Problem) :
    (s.insert p).restrict shows =
      if shows p.symbol then (s.restrict shows).insert p else s.restrict shows := by
  unfold insert restrict contains
  by_cases hp : p ∈ s.toList <;> by_cases hshown : shows p.symbol <;> simp [hp, hshown]

end Sink

namespace Restriction

variable (r : Restriction)

def scope (s : Scope) : Scope :=
  { s with body := r.cut s.body, contracts := s.contracts.restrict r.shows }

def analysis (a : Analysis) : Analysis where
  scopes := a.scopes.map r.scope
  problems := a.problems.restrict r.shows
  count := a.count

@[simp] theorem body_scope (s : Scope) : (r.scope s).body = r.cut s.body := rfl

@[simp] theorem entered_scope (s : Scope) : (r.scope s).entered = s.entered := rfl

/-! ### Restrictions are translations -/

def symbol (x : String) : Option String := if r.shows x then some x else none

theorem eq_of_symbol {x y : String} (h : r.symbol x = some y) : x = y := by
  unfold symbol at h
  split at h
  · exact Option.some.inj h
  · cases h

def translation : Translation where
  place := id
  place_inj := Function.injective_id
  symbol := r.symbol
  symbol_inj h h' := (r.eq_of_symbol h).trans (r.eq_of_symbol h').symm
  callable := some
  callable_inj := Translation.keep_inj
  callable_of_symbol h := congrArg some (r.eq_of_symbol h)
  text := r.cut
  text_nil := r.cut_nil
  title := id
  title_of_symbol := r.eq_of_symbol

variable {r} {x : String}

theorem symbol_of_shows (hx : r.shows x) : r.translation.symbol x = some x := if_pos hx

theorem symbol_of_hides (hx : ¬ r.shows x) : r.translation.symbol x = none := if_neg hx

variable (r)

theorem shown_eq_filter {α : Type} (l : List (String × α)) :
    Table.shown r.translation.symbol id l = l.filter fun e => r.shows e.1 := by
  induction l with
  | nil => rfl
  | cons e rest ih =>
    obtain ⟨x, v⟩ := e
    by_cases hx : r.shows x
    · simp [Table.shown_cons id (symbol_of_shows hx), ih, hx]
    · simp [Table.shown_cons_of_hidden id (symbol_of_hides hx), ih, hx]

theorem scope_eq (s : Scope) : r.scope s = r.translation.scope s := by
  have hcontracts : s.contracts.restrict r.shows = s.contracts.translate r.translation.symbol id :=
    congrArg Table.mk (r.shown_eq_filter s.contracts.entries).symm
  have hfunctions : s.functions.translate some id = s.functions := by
    simp [Table.translate, Table.shown]
  simp [scope, Translation.scope, hcontracts, translation, hfunctions]

@[simp] theorem scope_analysis (a : Analysis) (i : Nat) :
    (r.analysis a).scope i = r.scope (a.scope i) := by
  simp only [Analysis.scope, analysis, Array.getElem?_map]
  cases a.scopes[i]? with
  | none => exact ((r.scope_eq _).trans r.translation.scope_default).symm
  | some s => rfl

theorem analysis_report (a : Analysis) (code : Code) (x : String) :
    r.analysis (a.report code x) =
      if r.shows x then (r.analysis a).report code x else r.analysis a := by
  simp only [analysis, Analysis.report, Sink.restrict_insert]
  split
  · rfl
  · rfl

theorem respects : r.translation.Respects r.analysis where
  size a := by simp [analysis, translation]
  scope a i := (r.scope_analysis a i).trans (r.scope_eq _)
  update a i f g h := by
    simp only [analysis, Analysis.update, Analysis.mk.injEq, and_true]
    exact Analysis.map_modify (fun s => by rw [scope_eq, scope_eq, h]) a.scopes i
  push a s := by simp [analysis, scope_eq]
  count a := rfl
  report {x y} hx a code := by
    obtain rfl := r.eq_of_symbol hx
    have hshows : r.shows x := by simpa [translation, symbol] using hx
    rw [analysis_report, if_pos hshows]
  hide {x} hx a code := by
    have hhides : ¬ r.shows x := by simpa [translation, symbol] using hx
    rw [analysis_report, if_neg hhides]

/-! ### What is shown of each operation -/

theorem analysis_empty : r.analysis {} = {} := by simp [analysis, Sink.restrict]

@[simp] theorem size_analysis (a : Analysis) : (r.analysis a).scopes.size = a.scopes.size :=
  r.respects.size a

@[simp] theorem lookup_analysis (a : Analysis) (i : Nat) (f : String) :
    (r.analysis a).lookup i f = a.lookup i f :=
  (r.respects.lookup rfl a i).trans Option.map_id'

@[simp] theorem isRecursive_analysis (a : Analysis) (i : Nat) :
    (r.analysis a).isRecursive i = a.isRecursive i :=
  r.respects.isRecursive a i

theorem isTaken_analysis {f : String} (hf : r.shows f) (a : Analysis) (i : Nat) :
    (r.analysis a).isTaken i f = a.isTaken i f :=
  r.respects.isTaken (symbol_of_shows hf) a i

theorem analysis_marked (a : Analysis) (i : Nat) :
    r.analysis (a.marked i) = (r.analysis a).marked i :=
  r.respects.marked a i

theorem analysis_use (a : Analysis) (i : Nat) (u : Use) (x : String) :
    r.analysis (a.use i u x) =
      if r.shows x then (r.analysis a).use i u x else r.analysis a := by
  split
  · rename_i hx
    exact r.respects.use (symbol_of_shows hx) a i u
  · rename_i hx
    exact r.respects.use_of_hidden (symbol_of_hides hx) a i u

theorem analysis_declareVariable (a : Analysis) (i : Nat) (x : String) :
    r.analysis (a.declareVariable i x) =
      if r.shows x then (r.analysis a).declareVariable i x else r.analysis a := by
  split
  · rename_i hx
    exact r.respects.declareVariable (symbol_of_shows hx) a i
  · rename_i hx
    exact r.respects.declareVariable_of_hidden (symbol_of_hides hx) a i

theorem analysis_completed {a : Analysis} (hn : a.WellNested) (i callee : Nat)
    (conditional : Bool) : r.analysis (a.completed i callee conditional) =
      (r.analysis a).completed i callee conditional :=
  r.respects.completed hn i callee conditional

theorem analysis_dispatch {a b : Analysis} {i : Nat} {s : Stmt}
    (hs : ∀ x ∈ s.symbol?, r.shows x) (h : a.dispatch i s = (b, .proceed))
    (hcall : ∀ g c, s = .call g c → a.lookup i g = none) :
    (r.analysis a).dispatch i s = (r.analysis b, .proceed) := by
  have hdispatch := r.respects.dispatch (f := id) (fun x hx => symbol_of_shows (hs x hx)) h hcall
  rw [Stmt.rename_id] at hdispatch
  exact hdispatch

theorem analysis_addRoot (a : Analysis) (body : List Stmt) :
    r.analysis (a.addRoot body) = (r.analysis a).addRoot (r.cut body) :=
  r.respects.addRoot a body

theorem analysis_registerOne {f : String} (hf : r.shows f) (a : Analysis) (i : Nat)
    (body : List Stmt) :
    r.analysis (a.registerOne i f body) = (r.analysis a).registerOne i f (r.cut body) :=
  r.respects.registerOne (symbol_of_shows hf) a i body

theorem analysis_register (i : Nat) (l : List (String × List Stmt)) (a : Analysis)
    (hl : ∀ e ∈ l, r.shows e.1) : r.analysis (a.register i l) =
      (r.analysis a).register i (l.map fun e => (e.1, r.cut e.2)) :=
  r.respects.register (f := id) i l a fun e he => symbol_of_shows (hl e he)

theorem analysis_enter (a : Analysis) (i : Nat)
    (hl : ∀ e ∈ (a.scope i).body.filterMap Stmt.function?, r.shows e.1)
    (hcut : (r.cut (a.scope i).body).filterMap Stmt.function? =
      ((a.scope i).body.filterMap Stmt.function?).map fun e => (e.1, r.cut e.2)) :
    r.analysis (a.enter i) = (r.analysis a).enter i :=
  r.respects.enter (f := id) a i (fun e he => symbol_of_shows (hl e he)) hcut

/-- What is shown of the end of a check is found from what is shown of the end of
its walk. -/
theorem analysis_checked {p : Program} {n : Nat} (hend : (p.opening.after n).stack = [])
    (hok : (p.opening.after n).failure = none) :
    r.analysis p.checked = ((r.analysis (p.opening.after n).analysis).sweep
      ((r.analysis (p.opening.after n).analysis).scope 0).contracts.entries).1 := by
  have hknown := (p.valid_opening.after n).nested.entries_known 0
  rw [Program.checked, Program.check_eq_sweep hend hok, r.respects.sweep _ _ hknown,
    shown_eq_filter, scope_analysis]
  rfl

end Restriction

end DefiniteAssignment
