import DefiniteAssignment.Proofs.Isolation

/-! The books of a session: which task is kept for which document. A task that ends
takes its own entry out and no other, and a document that was closed leaves nothing
behind, so nothing is published for it until something happens to it again. -/
namespace DefiniteAssignment.Editor.Session

variable {τ κ : Type} {check : Checker} {s : Session τ κ} {uri text : String} {task : Nat}
  {w : Sleeper τ}

/-- Every entry is still there, unless it was that of the task. -/
def Spares (task : Nat) (before after : Table Nat) : Prop :=
  ∀ uri other, before.get? uri = some other → other ≠ task → after.get? uri = some other

theorem spares_refl (task : Nat) (tasks : Table Nat) : Spares task tasks tasks :=
  fun _ _ h _ => h

theorem spares_erase {tasks : Table Nat} (h : tasks.get? uri = some task) :
    Spares task tasks (tasks.erase uri) := by
  intro v other hother hne
  have hv : v ≠ uri := by
    rintro rfl
    exact hne (Option.some.inj (hother.symm.trans h))
  rw [Table.get?_erase, if_neg hv, hother]

structure Vacant (s : Session τ κ) (uri : String) : Prop where
  result : s.cache.get? uri = none
  pending : s.pending uri = none

theorem Vacant.not_waiting (h : s.Vacant uri) (hs : s.Orderly) : ∀ w ∈ s.sleepers, w.uri ≠ uri := by
  rintro w hw rfl
  have hpending := pending_of_mem hs hw
  simp [h.pending] at hpending

theorem vacant_closeDocument (s : Session τ κ) (uri : String) :
    (s.closeDocument uri).1.Vacant uri where
  result := congrArg Standing.result (standing_closeDocument s uri)
  pending := congrArg Standing.pending (standing_closeDocument s uri)

theorem Alike.vacant {r : Session τ κ × Reply} (h : Alike uri r (s, {})) (hs : s.Vacant uri) :
    r.1.Vacant uri ∧ publishedFor uri r.2.published = [] :=
  ⟨⟨(congrArg Standing.result h.standing).trans hs.result,
    (congrArg Standing.pending h.standing).trans hs.pending⟩, h.published⟩

section Books

variable [DecidableEq κ] [Digest κ] [Disk]

theorem spares_wake (h : s.tasks.get? uri = some task) :
    Spares task s.tasks (s.wake check uri).1.tasks := by
  obtain ⟨cache, tasks, heq, rfl | rfl⟩ := exists_wake_eq check s uri
  · rw [heq]
    exact spares_refl task s.tasks
  · rw [heq]
    exact spares_erase h

theorem spares_resume (h : s.Orderly) (hw : w ∈ s.sleepers) :
    Spares w.task s.tasks (s.resume check w).1.tasks :=
  spares_wake (s := s.stop w.task) (h.stored w hw)

variable [TimeScale τ]

theorem spares_changeDocument (hon : s.settings.analyzeOnChange = true) :
    Spares s.nextTask (s.tasks.insert uri s.nextTask)
      (s.changeDocument check uri text).1.tasks := by
  obtain ⟨p, hp⟩ := exists_cancel_eq (s.put uri text) uri
  have htasks :
      (((s.put uri text).cancel uri).enroll uri).tasks = s.tasks.insert uri s.nextTask := by
    rw [hp]
    rfl
  have hown : (((s.put uri text).cancel uri).enroll uri).tasks.get? uri = some s.nextTask := by
    rw [htasks, Table.get?_insert_self]
  rw [changeDocument_of_on hon, ← htasks]
  cases hfree : ((s.put uri text).cancel uri).unhindered with
  | true =>
    rw [schedule_of_unhindered hfree]
    exact spares_wake hown
  | false =>
    rw [schedule_of_hindered hfree]
    exact spares_refl _ _

theorem vacant_advance (hs : s.Orderly) (h : s.Vacant uri) (delay : τ) :
    (s.advance check delay).1.Vacant uri ∧
      publishedFor uri (s.advance check delay).2.published = [] := by
  have hawaited := hs.awaited_due (TimeScale.add s.now delay)
  refine Alike.vacant (s := { s with now := TimeScale.add s.now delay }) ?_ ⟨h.result, h.pending⟩
  refine alike_resumeAll_of_ne hs hawaited fun w hw => ?_
  exact (h.not_waiting hs w (hawaited.sleeping w hw)).symm

theorem vacant_handle (check : Checker) (hs : s.Orderly) (h : s.Vacant uri) {e : Event τ}
    (he : e.uri? ≠ some uri) :
    (s.handle check e).1.Vacant uri ∧ publishedFor uri (s.handle check e).2.published = [] := by
  cases huri : e.uri? with
  | some v =>
    refine (alike_handle_of_ne hs huri ?_).vacant h
    rintro rfl
    exact he huri
  | none =>
    cases e with
    | started options =>
      obtain ⟨settings, heq, hpublished⟩ := exists_start_eq s options
      rw [handle, heq, hpublished]
      exact ⟨⟨h.result, h.pending⟩, rfl⟩
    | configure options =>
      obtain ⟨settings, heq, hpublished⟩ := exists_configure_eq s options
      rw [handle, heq, hpublished]
      exact ⟨⟨h.result, h.pending⟩, rfl⟩
    | advance delay => exact vacant_advance hs h delay
    | opened _ _ | changed _ _ | saved _ | closed _ | validate _ _ _ => simp [Event.uri?] at huri

theorem vacant_run (hs : s.Orderly) (h : s.Vacant uri) {events : List (Checker × Event τ)}
    (he : ∀ e ∈ events, e.2.uri? ≠ some uri) :
    (s.run events).1.Vacant uri ∧ publishedFor uri (s.run events).2 = [] := by
  induction events generalizing s with
  | nil => exact ⟨h, rfl⟩
  | cons head rest ih =>
    obtain ⟨check, e⟩ := head
    obtain ⟨hnext, hpublished⟩ := vacant_handle check hs h (he (check, e) List.mem_cons_self)
    obtain ⟨hlast, hrest⟩ := ih (hs.handle e) hnext fun e' he' => he e' (List.mem_cons_of_mem _ he')
    rw [run_cons, publishedFor_append, hpublished, hrest]
    exact ⟨hlast, rfl⟩

theorem Reached.run (h : Reached check s) (events : List (Event τ)) :
    Reached check (s.run (events.map fun e => (check, e))).1 := by
  induction events generalizing s with
  | nil => exact h
  | cons e rest ih => exact ih (h.event e)

/-- A document has at most one task that waits, and it is the one kept for it; a task
that ends, after its wait or at once, takes no entry out but its own; and once a
document is closed no task of it waits, no result of it is known and nothing is
published for it until the next event about it. -/
theorem books_kept (h : Reached check s) :
    s.sleepers.Pairwise (fun v w => v.uri ≠ w.uri) ∧
      (∀ w ∈ s.sleepers, s.tasks.get? w.uri = some w.task ∧
        Spares w.task s.tasks (s.resume check w).1.tasks) ∧
      (∀ uri text, s.settings.analyzeOnChange = true →
        Spares s.nextTask (s.tasks.insert uri s.nextTask)
          (s.changeDocument check uri text).1.tasks) ∧
      ∀ uri, (s.closeDocument uri).2.published = [⟨uri, []⟩] ∧
        ∀ events : List (Checker × Event τ), (∀ e ∈ events, e.2.uri? ≠ some uri) →
          (∀ w ∈ ((s.closeDocument uri).1.run events).1.sleepers, w.uri ≠ uri) ∧
            ((s.closeDocument uri).1.run events).1.cache.get? uri = none ∧
            publishedFor uri ((s.closeDocument uri).1.run events).2 = [] := by
  have hs := h.orderly
  refine ⟨hs.single, fun w hw => ⟨hs.stored w hw, spares_resume hs hw⟩,
    fun uri text hon => spares_changeDocument hon, fun uri => ⟨rfl, fun events he => ?_⟩⟩
  obtain ⟨hvacant, hpublished⟩ := vacant_run hs.closeDocument (vacant_closeDocument s uri) he
  exact ⟨hvacant.not_waiting (hs.closeDocument.run events), hvacant.result, hpublished⟩

end Books

def waiting : Session Float :=
  ((fresh Float).run ([.started (.obj [("analyzeOnChange", .bool true)]), .changed "a" "[]",
    .changed "b" "["].map fun e => (checker, e))).1

theorem books_kept_waiting :
    Reached checker waiting ∧ waiting.sleepers = [⟨0, "a", 0.5⟩, ⟨1, "b", 0.5⟩] ∧
      waiting.tasks.get? "b" = some 1 ∧
      Spares 1 waiting.tasks (waiting.resume checker ⟨1, "b", 0.5⟩).1.tasks ∧
      Spares 2 (waiting.tasks.insert "a" 2) (waiting.changeDocument checker "a" "").1.tasks ∧
      (waiting.closeDocument "a").2.published = [⟨"a", []⟩] ∧
      (∀ w ∈ ((waiting.closeDocument "a").1.run [(checker, .advance 1)]).1.sleepers,
        w.uri ≠ "a") ∧
      ((waiting.closeDocument "a").1.run [(checker, .advance 1)]).1.cache.get? "a" = none ∧
      publishedFor "a" ((waiting.closeDocument "a").1.run [(checker, .advance 1)]).2 = [] := by
  have hreached : Reached checker waiting := Reached.fresh.run _
  have hsleepers : waiting.sleepers = [⟨0, "a", 0.5⟩, ⟨1, "b", 0.5⟩] := rfl
  obtain ⟨_, hwaiting, hchange, hclose⟩ := books_kept hreached
  obtain ⟨hkept, hspares⟩ := hwaiting ⟨1, "b", 0.5⟩ (by simp [hsleepers])
  obtain ⟨hpublished, hafter⟩ := hclose "a"
  exact ⟨hreached, hsleepers, hkept, hspares, hchange "a" "" rfl, hpublished,
    hafter [(checker, .advance 1)] (by simp [Event.uri?])⟩

/-- A document that is closed again is published for again, with the empty list. -/
theorem published_closed_again :
    ¬ ∀ events : List (Checker × Event Float),
      (∀ e ∈ events, ∀ text force, e.2 ≠ .opened "a" text ∧ e.2 ≠ .changed "a" text ∧
        e.2 ≠ .saved "a" ∧ e.2 ≠ .validate "a" text force) →
      publishedFor "a" (((fresh Float).run
        [(checker, .opened "a" "[]"), (checker, .closed "a")]).1.run events).2 = [] := by
  intro h
  have hpublished : ∀ s : Session Float,
      publishedFor "a" (s.run [(checker, .closed "a")]).2 = [⟨"a", []⟩] := fun _ => rfl
  have hnone := h [(checker, .closed "a")] (by simp)
  rw [hpublished] at hnone
  cases hnone

end DefiniteAssignment.Editor.Session
