import DefiniteAssignment.Proofs.Timeliness
import Mathlib.Data.List.Pairwise

/-! A session can be looked at from one document: its text, its result, its task, and
what all documents share. What happens to other documents leaves this view as it is. -/
namespace DefiniteAssignment.Editor

def publishedFor (uri : String) (published : List Publication) : List Publication :=
  published.filter fun p => p.uri = uri

@[simp] theorem publishedFor_append (uri : String) (published more : List Publication) :
    publishedFor uri (published ++ more) = publishedFor uri published ++ publishedFor uri more :=
  List.filter_append ..

theorem publishedFor_eq_nil {uri : String} {published : List Publication}
    (h : ∀ p ∈ published, p.uri ≠ uri) : publishedFor uri published = [] := by
  simpa [publishedFor] using h

namespace Event

variable {τ : Type}

def uri? : Event τ → Option String
  | opened uri _ | changed uri _ | saved uri | closed uri | validate uri _ _ => some uri
  | started _ | configure _ | advance _ => none

/-- Whether an event is about a document, or about none: the settings and the clock
concern every document. -/
def concerns (e : Event τ) (uri : String) : Bool :=
  e.uri?.all fun v => v = uri

theorem concerns_iff {e : Event τ} {uri : String} :
    e.concerns uri = true ↔ ∀ v, e.uri? = some v → v = uri := by
  cases h : e.uri? <;> simp [concerns, h]

theorem concerns_eq_false_iff {e : Event τ} {uri : String} :
    e.concerns uri = false ↔ ∃ v, e.uri? = some v ∧ uri ≠ v := by
  cases h : e.uri? <;> simp [concerns, h, eq_comm]

def concerning (uri : String) (events : List (Checker × Event τ)) : List (Checker × Event τ) :=
  events.filter fun e => e.2.concerns uri

theorem concerning_cons_of_pos {check : Checker} {e : Event τ} {uri : String}
    (he : e.concerns uri = true) (rest : List (Checker × Event τ)) :
    concerning uri ((check, e) :: rest) = (check, e) :: concerning uri rest :=
  List.filter_cons_of_pos he

theorem concerning_cons_of_neg {check : Checker} {e : Event τ} {uri : String}
    (he : e.concerns uri = false) (rest : List (Checker × Event τ)) :
    concerning uri ((check, e) :: rest) = concerning uri rest :=
  List.filter_cons_of_neg (by simp [he])

end Event

/-- A session as one document sees it. -/
structure Standing (τ κ : Type) where
  settings : Settings
  now : τ
  text : Option String
  result : Option (Result κ)
  pending : Option (Option τ)

namespace Session

variable {τ κ : Type} {check : Checker} {s t : Session τ κ} {uri v text : String} {task : Nat}
  {w w' : Sleeper τ} {l : List (Sleeper τ)}

/-- The task kept for a document: none, one that has ended, or one that waits for
its time. -/
def pending (s : Session τ κ) (uri : String) : Option (Option τ) :=
  (s.tasks.get? uri).map fun task => (s.sleepers.find? fun w => w.task = task).map Sleeper.due

def standing (s : Session τ κ) (uri : String) : Standing τ κ where
  settings := s.settings
  now := s.now
  text := s.documents.get? uri
  result := s.cache.get? uri
  pending := s.pending uri

/-- Two outcomes that are the same for one who looks at a single document. -/
structure Alike (uri : String) (r r' : Session τ κ × Reply) : Prop where
  standing : r.1.standing uri = r'.1.standing uri
  published : publishedFor uri r.2.published = publishedFor uri r'.2.published

theorem Alike.symm {r r' : Session τ κ × Reply} (h : Alike uri r r') : Alike uri r' r :=
  ⟨h.standing.symm, h.published.symm⟩

theorem Alike.trans {r r' r'' : Session τ κ × Reply} (h : Alike uri r r') (h' : Alike uri r' r'') :
    Alike uri r r'' :=
  ⟨h.standing.trans h'.standing, h.published.trans h'.published⟩

theorem document_congr [Disk] (h : s.standing uri = t.standing uri) :
    s.document uri = t.document uri := by
  have htext : s.documents.get? uri = t.documents.get? uri := congrArg Standing.text h
  rw [document, document, htext]

def put (s : Session τ κ) (uri text : String) : Session τ κ :=
  { s with documents := s.documents.insert uri text }

theorem standing_put_self (s : Session τ κ) (uri text : String) :
    (s.put uri text).standing uri = { s.standing uri with text := some text } := by
  simp only [standing, put, Table.get?_insert_self]
  rfl

theorem standing_put_of_ne (hv : v ≠ uri) : (s.put uri text).standing v = s.standing v := by
  simp only [standing, put, Table.get?_insert_of_ne _ hv]
  rfl

/-! The task of a document. -/

theorem find?_filter_task_self (task : Nat) (l : List (Sleeper τ)) :
    (l.filter fun w => w.task ≠ task).find? (fun w => w.task = task) = none := by
  simp

theorem find?_filter_task_of_ne {other : Nat} (h : other ≠ task) (l : List (Sleeper τ)) :
    (l.filter fun w => w.task ≠ task).find? (fun w => w.task = other) =
      l.find? fun w => w.task = other := by
  rw [List.find?_filter]
  congr 1
  funext w
  by_cases hw : w.task = other <;> simp [hw, h]

theorem pending_of_mem (h : s.Orderly) (hw : w ∈ s.sleepers) :
    s.pending w.uri = some (some w.due) := by
  have hstored := h.stored w hw
  obtain ⟨v, hv⟩ : ∃ v, s.sleepers.find? (fun v => v.task = w.task) = some v := by
    rw [← Option.isSome_iff_exists, List.find?_isSome]
    exact ⟨w, hw, by simp⟩
  -- The task that is found has the number of this one, so it is the same task.
  have hmem := List.mem_of_find?_eq_some hv
  have htask : v.task = w.task := by simpa using List.find?_some hv
  have huri : v.uri = w.uri := h.own v.uri w.uri w.task (htask ▸ h.stored v hmem) hstored
  have heq : v = w := by
    have : Std.Symm fun v w : Sleeper τ => v.uri ≠ w.uri := ⟨fun _ _ => Ne.symm⟩
    by_contra hne
    exact h.single.forall hmem hw hne huri
  rw [pending, hstored, Option.map_some, hv, heq, Option.map_some]

theorem exists_mem_of_pending {due : τ} (h : s.Orderly)
    (hpending : s.pending uri = some (some due)) :
    ∃ w ∈ s.sleepers, w.uri = uri ∧ w.due = due := by
  obtain ⟨task, htask, hfind⟩ := Option.map_eq_some_iff.1 hpending
  obtain ⟨w, hw, hdue⟩ := Option.map_eq_some_iff.1 hfind
  have hmem := List.mem_of_find?_eq_some hw
  have hnumber : w.task = task := by simpa using List.find?_some hw
  exact ⟨w, hmem, h.own w.uri uri task (hnumber ▸ h.stored w hmem) htask, hdue⟩

def Timed [TimeScale τ] (s : Session τ κ) : Prop :=
  ∀ w ∈ s.sleepers, TimeScale.isNumber w.due = true

theorem mem_due_iff [TimeScale τ] (h : s.Timed) {now : τ} :
    w ∈ s.due now ↔ w ∈ s.sleepers ∧ TimeScale.le w.due now = true := by
  unfold due
  simp only [List.partition_eq_filter_filter]
  split
  · rw [List.append_nil, List.mem_mergeSort, List.mem_filter]
  · -- None of those that are left waits for a number, and all do, so none is left.
    rename_i hnone
    have hleft : s.sleepers.filter (not ∘ fun w => TimeScale.le w.due now) = [] := by
      rw [List.eq_nil_iff_forall_not_mem]
      intro v hv
      exact hnone (List.any_eq_true.2 ⟨v, hv, h v (List.mem_filter.1 hv).1⟩)
    rw [hleft, List.append_nil, List.mem_mergeSort, List.mem_filter]

theorem exists_mem_due_iff [TimeScale τ] (h : s.Orderly) (htimed : s.Timed) {now : τ} :
    (∃ w ∈ s.due now, w.uri = uri) ↔
      ∃ due, s.pending uri = some (some due) ∧ TimeScale.le due now = true := by
  constructor
  · rintro ⟨w, hw, rfl⟩
    obtain ⟨hsleeping, hdue⟩ := (mem_due_iff htimed).1 hw
    exact ⟨w.due, pending_of_mem h hsleeping, hdue⟩
  · rintro ⟨due, hpending, hdue⟩
    obtain ⟨w, hsleeping, huri, rfl⟩ := exists_mem_of_pending h hpending
    exact ⟨w, (mem_due_iff htimed).2 ⟨hsleeping, hdue⟩, huri⟩

theorem find?_nextTask (h : s.Orderly) :
    s.sleepers.find? (fun w => w.task = s.nextTask) = none := by
  rw [List.find?_eq_none]
  intro w hw
  have hlt := h.kept w.uri w.task (h.stored w hw)
  simpa using Nat.ne_of_lt hlt

def stop (s : Session τ κ) (task : Nat) : Session τ κ :=
  { s with sleepers := s.sleepers.filter fun w => w.task ≠ task }

theorem standing_stop_of_ne (h : s.Orderly) (htask : s.tasks.get? uri = some task) (hv : v ≠ uri) :
    (s.stop task).standing v = s.standing v := by
  have hpending : (s.stop task).pending v = s.pending v := by
    unfold pending stop
    refine Option.map_congr fun other hother => ?_
    rw [find?_filter_task_of_ne]
    rintro rfl
    exact hv (h.own v uri _ hother htask)
  simp only [standing, hpending]
  rfl

theorem standing_stop_self (htask : s.tasks.get? uri = some task) :
    (s.stop task).standing uri = { s.standing uri with pending := some none } := by
  have hpending : (s.stop task).pending uri = some none := by
    unfold pending stop
    rw [htask, Option.map_some, find?_filter_task_self, Option.map_none]
  simp only [standing, hpending]
  rfl

theorem cancel_of_none (h : s.tasks.get? uri = none) : s.cancel uri = s := by
  rw [cancel, h]

theorem cancel_of_some (h : s.tasks.get? uri = some task) : s.cancel uri = s.stop task := by
  rw [cancel, h, stop]

theorem standing_cancel_of_ne (h : s.Orderly) (hv : v ≠ uri) :
    (s.cancel uri).standing v = s.standing v := by
  cases htask : s.tasks.get? uri with
  | none => rw [cancel_of_none htask]
  | some task => rw [cancel_of_some htask, standing_stop_of_ne h htask hv]

theorem standing_cancel_self (s : Session τ κ) (uri : String) :
    (s.cancel uri).standing uri =
      { s.standing uri with pending := (s.standing uri).pending.map fun _ => none } := by
  cases htask : s.tasks.get? uri with
  | none => simp [cancel_of_none htask, standing, pending, htask]
  | some task =>
    rw [cancel_of_some htask, standing_stop_self htask]
    simp [standing, pending, htask]

def enroll (s : Session τ κ) (uri : String) : Session τ κ :=
  { s with tasks := s.tasks.insert uri s.nextTask, nextTask := s.nextTask + 1 }

theorem standing_enroll_self (h : s.Orderly) (uri : String) :
    (s.enroll uri).standing uri = { s.standing uri with pending := some none } := by
  simp only [standing, pending, enroll, Table.get?_insert_self, Option.map_some, find?_nextTask h,
    Option.map_none]

def await (s : Session τ κ) (uri : String) (due : τ) : Session τ κ :=
  { s.enroll uri with sleepers := s.sleepers ++ [⟨s.nextTask, uri, due⟩] }

theorem standing_await_self (h : s.Orderly) (uri : String) (due : τ) :
    (s.await uri due).standing uri = { s.standing uri with pending := some (some due) } := by
  simp [standing, pending, await, enroll, find?_nextTask h]

theorem standing_enroll_of_ne (hv : v ≠ uri) : (s.enroll uri).standing v = s.standing v := by
  simp only [standing, pending, enroll, Table.get?_insert_of_ne _ hv]

theorem standing_await_of_ne {due : τ} (h : s.Orderly) (hv : v ≠ uri) :
    (s.await uri due).standing v = s.standing v := by
  have hpending : (s.await uri due).pending v = (s.enroll uri).pending v := by
    unfold pending await
    refine Option.map_congr fun task htask => ?_
    -- The number of the new task is above that of the task kept for this document.
    have hlt : task < s.nextTask :=
      h.kept v task (by rwa [enroll, Table.get?_insert_of_ne _ hv] at htask)
    have hne : ¬ (s.nextTask = task) := Nat.ne_of_gt hlt
    simp [enroll, hne]
  rw [← standing_enroll_of_ne (s := s) hv]
  simp only [standing, hpending]
  rfl

/-! What is done to other documents. -/

theorem Confined.alike {r : Session τ κ × Reply} (h : Confined uri s r) (hv : v ≠ uri)
    (hstanding : r.1.standing v = s.standing v) : Alike v r (s, {}) where
  standing := hstanding
  published := publishedFor_eq_nil fun p hp heq => hv (heq.symm.trans (h.published p hp))

theorem standing_erase_tasks_of_ne (hv : v ≠ uri) :
    standing { s with tasks := s.tasks.erase uri } v = s.standing v := by
  simp only [standing, pending, Table.get?_erase, if_neg hv]

theorem alike_closeDocument_of_ne (h : s.Orderly) (hv : v ≠ uri) :
    Alike v (s.closeDocument uri) (s, {}) := by
  refine (confined_closeDocument h).alike hv ?_
  have hcancel := standing_cancel_of_ne h hv
  rw [← hcancel]
  simp only [closeDocument, standing, pending, Table.get?_erase, if_neg hv]

section Analysis

variable [Digest κ] [DecidableEq κ]

theorem validate_fst_cases (check : Checker) (s : Session τ κ) (uri text : String) (force : Bool) :
    (s.validate check uri text force).1 = s ∨
      ∃ r, (s.validate check uri text force).1 = { s with cache := s.cache.insert uri r } := by
  unfold validate
  split
  · exact .inl rfl
  · rw [analyze_fst]
    split
    · exact .inr ⟨_, rfl⟩
    · exact .inl rfl

theorem standing_validate_of_ne {force : Bool} (hv : v ≠ uri) :
    (s.validate check uri text force).1.standing v = s.standing v := by
  obtain heq | ⟨r, heq⟩ := validate_fst_cases check s uri text force
  · rw [heq]
  · rw [heq]
    simp only [standing, Table.get?_insert_of_ne _ hv]
    rfl

theorem alike_openDocument_of_ne (hv : v ≠ uri) :
    Alike v (s.openDocument check uri text) (s, {}) := by
  refine (confined_openDocument check s uri text).alike hv ?_
  rw [openDocument, standing_validate_of_ne hv]
  exact standing_put_of_ne hv

variable [Disk]

theorem standing_saveDocument_of_ne (hv : v ≠ uri) :
    (s.saveDocument check uri).1.standing v = s.standing v := by
  unfold saveDocument
  split
  · exact standing_validate_of_ne hv
  · rfl

theorem wake_of_answer (h : (s.saveDocument check uri).2.error = none) :
    s.wake check uri =
      ({ (s.saveDocument check uri).1 with
          tasks := (s.saveDocument check uri).1.tasks.erase uri },
        (s.saveDocument check uri).2) := by
  unfold wake
  dsimp only
  rw [h]

theorem wake_of_failure {e : Error} (h : (s.saveDocument check uri).2.error = some e) :
    s.wake check uri = ((s.saveDocument check uri).1, (s.saveDocument check uri).2.asTask) := by
  unfold wake
  dsimp only
  rw [h]

theorem standing_wake_of_ne (hv : v ≠ uri) : (s.wake check uri).1.standing v = s.standing v := by
  cases herror : (s.saveDocument check uri).2.error with
  | none => rw [wake_of_answer herror, standing_erase_tasks_of_ne hv, standing_saveDocument_of_ne hv]
  | some e => rw [wake_of_failure herror, standing_saveDocument_of_ne hv]

theorem alike_resume_of_ne (h : s.Orderly) (hw : w ∈ s.sleepers) (hv : v ≠ w.uri) :
    Alike v (s.resume check w) (s, {}) := by
  refine (confined_resume h hw).alike hv ?_
  rw [resume, standing_wake_of_ne hv]
  exact standing_stop_of_ne h (h.stored w hw) hv

theorem published_resumeAll_cons (s : Session τ κ) (w : Sleeper τ) (l : List (Sleeper τ)) :
    (s.resumeAll check (w :: l)).2.published =
      (s.resume check w).2.published ++ ((s.resume check w).1.resumeAll check l).2.published :=
  rfl

theorem alike_resumeAll_of_ne (h : s.Orderly) (hl : Awaited s.sleepers l)
    (hv : ∀ w ∈ l, v ≠ w.uri) : Alike v (s.resumeAll check l) (s, {}) := by
  induction l generalizing s with
  | nil => exact ⟨rfl, rfl⟩
  | cons w rest ih =>
    have hw : w ∈ s.sleepers := hl.sleeping w List.mem_cons_self
    have hfirst : Alike v (s.resume check w) (s, {}) :=
      alike_resume_of_ne h hw (hv w List.mem_cons_self)
    have hwaiting : Awaited (s.resume check w).1.sleepers rest := hl.resume h
    have hothers := ih (h.resume hw) hwaiting fun u hu => hv u (List.mem_cons_of_mem _ hu)
    refine ⟨hothers.standing.trans hfirst.standing, ?_⟩
    rw [published_resumeAll_cons, publishedFor_append, hfirst.published, hothers.published]
    rfl

variable [TimeScale τ]

theorem schedule_of_unhindered (h : s.unhindered = true) :
    s.schedule check uri = (s.enroll uri).wake check uri :=
  if_pos h

theorem schedule_of_hindered (h : s.unhindered = false) :
    s.schedule check uri = (s.await uri s.deadline, {}) :=
  if_neg (Bool.not_eq_true _ ▸ h)

theorem standing_schedule_of_ne (h : s.Orderly) (hv : v ≠ uri) :
    (s.schedule check uri).1.standing v = s.standing v := by
  cases hfree : s.unhindered with
  | true => rw [schedule_of_unhindered hfree, standing_wake_of_ne hv, standing_enroll_of_ne hv]
  | false => rw [schedule_of_hindered hfree, standing_await_of_ne h hv]

theorem changeDocument_of_on (h : s.settings.analyzeOnChange = true) :
    s.changeDocument check uri text = ((s.put uri text).cancel uri).schedule check uri :=
  if_pos h

theorem changeDocument_of_off (h : s.settings.analyzeOnChange = false) :
    s.changeDocument check uri text = (s.put uri text, {}) :=
  if_neg (Bool.not_eq_true _ ▸ h)

theorem alike_changeDocument_of_ne (h : s.Orderly) (hv : v ≠ uri) :
    Alike v (s.changeDocument check uri text) (s, {}) := by
  have hput : (s.put uri text).Orderly := h
  refine (confined_changeDocument h).alike hv ?_
  cases hon : s.settings.analyzeOnChange with
  | true =>
    rw [changeDocument_of_on hon, standing_schedule_of_ne hput.cancel hv,
      standing_cancel_of_ne hput hv, standing_put_of_ne hv]
  | false => rw [changeDocument_of_off hon, standing_put_of_ne hv]

theorem alike_handle_of_ne (h : s.Orderly) {e : Event τ} (he : e.uri? = some uri) (hv : v ≠ uri) :
    Alike v (s.handle check e) (s, {}) := by
  cases e with
  | started options => simp [Event.uri?] at he
  | configure options => simp [Event.uri?] at he
  | advance delay => simp [Event.uri?] at he
  | opened uri' text =>
    obtain rfl : uri' = uri := Option.some.inj he
    exact alike_openDocument_of_ne hv
  | changed uri' text =>
    obtain rfl : uri' = uri := Option.some.inj he
    exact alike_changeDocument_of_ne h hv
  | saved uri' =>
    obtain rfl : uri' = uri := Option.some.inj he
    exact (confined_saveDocument check s uri').alike hv (standing_saveDocument_of_ne hv)
  | closed uri' =>
    obtain rfl : uri' = uri := Option.some.inj he
    exact alike_closeDocument_of_ne h hv
  | validate uri' text force =>
    obtain rfl : uri' = uri := Option.some.inj he
    exact (confined_validate check s uri' text force).alike hv (standing_validate_of_ne hv)

end Analysis

end Session

end DefiniteAssignment.Editor
