import DefiniteAssignment.Proofs.Standing

/-! Documents are apart. What happens to a document, to the settings or to the clock does
the same to any two sessions that are the same for the document, as long as tasks wait
for times that are numbers. A task whose time is no number waits for the tasks of others. -/
namespace DefiniteAssignment.Editor.Session

variable {τ κ : Type} {check : Checker} {s t : Session τ κ} {uri v text : String} {task : Nat}
  {w w' : Sleeper τ} {l : List (Sleeper τ)}

theorem standing_erase_tasks_self (s : Session τ κ) (uri : String) :
    standing { s with tasks := s.tasks.erase uri } uri =
      { s.standing uri with pending := none } := by
  simp only [standing, pending, Table.get?_erase, if_pos, Option.map_none]

theorem standing_insert_result (s : Session τ κ) (uri : String) (r : Result κ) :
    standing { s with cache := s.cache.insert uri r } uri =
      { s.standing uri with result := some r } := by
  simp only [standing, Table.get?_insert_self]
  rfl

theorem standing_closeDocument (s : Session τ κ) (uri : String) :
    (s.closeDocument uri).1.standing uri =
      { s.standing uri with text := none, result := none, pending := none } := by
  obtain ⟨p, hp⟩ := exists_cancel_eq s uri
  simp only [closeDocument, hp, standing, pending, Table.get?_erase, if_pos, Option.map_none]

theorem alike_closeDocument (h : s.standing uri = t.standing uri) :
    Alike uri (s.closeDocument uri) (t.closeDocument uri) where
  standing := by rw [standing_closeDocument, standing_closeDocument, h]
  published := rfl

theorem alike_applyOptions (h : s.standing uri = t.standing uri) (options : List (String × Json))
    (logs : List Log) : Alike uri (s.applyOptions options logs) (t.applyOptions options logs) where
  standing := by
    have hsettings : s.settings = t.settings := congrArg Standing.settings h
    have hrest : ∀ settings, { s.standing uri with settings } = { t.standing uri with settings } :=
      fun settings => by rw [h]
    simp only [applyOptions, hsettings]
    exact hrest _
  published := rfl

theorem alike_start (h : s.standing uri = t.standing uri) (options : Json) :
    Alike uri (s.start options) (t.start options) := by
  unfold start
  split
  · exact alike_applyOptions h _ _
  · exact ⟨h, rfl⟩

theorem alike_configure (h : s.standing uri = t.standing uri) (settings : Json) :
    Alike uri (s.configure settings) (t.configure settings) := by
  unfold configure
  split
  · split
    · exact alike_applyOptions h _ _
    · exact ⟨h, rfl⟩
  · exact ⟨h, rfl⟩

section Deadline

variable [TimeScale τ]

theorem unhindered_of_isNumber (h : TimeScale.isNumber s.deadline = true) :
    s.unhindered = TimeScale.le (s.delay : τ) TimeScale.start := by
  rw [unhindered, h, Bool.not_true, Bool.false_and, Bool.or_false]

theorem deadline_cancel (s : Session τ κ) (uri : String) :
    (s.cancel uri).deadline = s.deadline := by
  obtain ⟨p, hp⟩ := exists_cancel_eq s uri
  rw [hp]
  rfl

theorem deadline_congr (h : s.standing uri = t.standing uri) : s.deadline = t.deadline := by
  have hsettings : s.settings = t.settings := congrArg Standing.settings h
  have hnow : s.now = t.now := congrArg Standing.now h
  rw [deadline, deadline, delay, delay, hnow, hsettings]

def TimesTask (s : Session τ κ) (e : Event τ) : Prop :=
  ∀ uri text, e = .changed uri text → s.settings.analyzeOnChange = true →
    TimeScale.isNumber s.deadline = true

theorem TimesTask.congr {e : Event τ} (htask : s.TimesTask e) (h : s.standing uri = t.standing uri) :
    t.TimesTask e := by
  intro v text he hon
  have hsettings : s.settings = t.settings := congrArg Standing.settings h
  exact deadline_congr h ▸ htask v text he (hsettings ▸ hon)

theorem timed_fresh : (fresh τ κ).Timed := by
  simp [Timed, fresh]

end Deadline

section Analysis

variable [Digest κ]

theorem standing_analyze_congr (h : s.standing uri = t.standing uri) :
    (s.analyze check uri text).1.standing uri = (t.analyze check uri text).1.standing uri := by
  rw [analyze_fst, analyze_fst]
  split
  · rw [standing_insert_result, standing_insert_result, h]
  · exact h

variable [DecidableEq κ]

theorem validate_congr (check : Checker) (h : s.standing uri = t.standing uri) (text : String)
    (force : Bool) :
    (s.validate check uri text force).1.standing uri =
        (t.validate check uri text force).1.standing uri ∧
      (s.validate check uri text force).2 = (t.validate check uri text force).2 := by
  have hcached : s.cached? uri text = t.cached? uri text := by
    have hresult : s.cache.get? uri = t.cache.get? uri := congrArg Standing.result h
    rw [cached?, cached?, hresult]
  unfold validate
  rw [hcached]
  split
  · exact ⟨h, rfl⟩
  · exact ⟨standing_analyze_congr h, analyze_snd s t uri text⟩

theorem alike_validate (h : s.standing uri = t.standing uri) (force : Bool) :
    Alike uri (s.validate check uri text force) (t.validate check uri text force) := by
  obtain ⟨hstanding, hreply⟩ := validate_congr check h text force
  exact ⟨hstanding, by rw [hreply]⟩

theorem alike_openDocument (h : s.standing uri = t.standing uri) :
    Alike uri (s.openDocument check uri text) (t.openDocument check uri text) := by
  refine alike_validate ?_ false
  exact (standing_put_self s uri text).trans (h ▸ (standing_put_self t uri text).symm)

variable [Disk]

theorem saveDocument_congr (check : Checker) (h : s.standing uri = t.standing uri) :
    (s.saveDocument check uri).1.standing uri = (t.saveDocument check uri).1.standing uri ∧
      (s.saveDocument check uri).2 = (t.saveDocument check uri).2 := by
  unfold saveDocument
  rw [document_congr h]
  split
  · exact validate_congr check h _ false
  · exact ⟨h, rfl⟩

theorem alike_wake (h : s.standing uri = t.standing uri) :
    Alike uri (s.wake check uri) (t.wake check uri) := by
  obtain ⟨hstanding, hreply⟩ := saveDocument_congr check h
  refine ⟨?_, by rw [published_wake, published_wake, hreply]⟩
  cases herror : (s.saveDocument check uri).2.error with
  | none =>
    rw [wake_of_answer herror, wake_of_answer (hreply ▸ herror), standing_erase_tasks_self,
      standing_erase_tasks_self, hstanding]
  | some e => rw [wake_of_failure herror, wake_of_failure (hreply ▸ herror), hstanding]

theorem alike_resume (h : s.standing uri = t.standing uri) (hs : s.Orderly) (ht : t.Orderly)
    (hw : w ∈ s.sleepers) (hw' : w' ∈ t.sleepers) (huri : w.uri = uri) (huri' : w'.uri = uri) :
    Alike uri (s.resume check w) (t.resume check w') := by
  subst huri
  have hstored' := huri' ▸ ht.stored w' hw'
  have hstop : (s.stop w.task).standing w.uri = (t.stop w'.task).standing w.uri := by
    rw [standing_stop_self (hs.stored w hw), standing_stop_self hstored', h]
  rw [resume, resume, huri']
  exact alike_wake hstop

theorem mem_sleepers_resumeAll {l : List (Sleeper τ)} (h : w ∈ (s.resumeAll check l).1.sleepers) :
    w ∈ s.sleepers := by
  induction l generalizing s with
  | nil => exact h
  | cons u rest ih =>
    have hafter : w ∈ (s.resume check u).1.sleepers := ih h
    rw [resume, sleepers_wake] at hafter
    exact (List.mem_filter.1 hafter).1

theorem alike_resumeAll (hs : s.Orderly) (hl : Awaited s.sleepers l) (hw : w ∈ l) :
    Alike w.uri (s.resumeAll check l) (s.resume check w) := by
  induction l generalizing s with
  | nil => simp at hw
  | cons u rest ih =>
    have hu : u ∈ s.sleepers := hl.sleeping u List.mem_cons_self
    have hrest : Awaited (s.resume check u).1.sleepers rest := hl.resume hs
    obtain ⟨hapart, _⟩ := List.pairwise_cons.1 hl.apart
    rcases List.mem_cons.1 hw with rfl | hw
    · -- Its own task comes first, and those that follow belong to other documents.
      have hothers : Alike w.uri ((s.resume check w).1.resumeAll check rest) (_, {}) :=
        alike_resumeAll_of_ne (hs.resume hu) hrest hapart
      refine ⟨hothers.standing, ?_⟩
      rw [published_resumeAll_cons, publishedFor_append, hothers.published]
      exact List.append_nil _
    · -- The first task is like nothing, and its own goes on from the same standing.
      have hfirst : Alike w.uri (s.resume check u) (s, {}) :=
        alike_resume_of_ne hs hu (hapart w hw).symm
      have hagain : Alike w.uri ((s.resume check u).1.resume check w) (s.resume check w) :=
        alike_resume hfirst.standing (hs.resume hu) hs (hrest.sleeping w hw)
          (hl.sleeping w (List.mem_cons_of_mem _ hw)) rfl rfl
      have hothers := (ih (hs.resume hu) hrest hw).trans hagain
      refine ⟨hothers.standing, ?_⟩
      rw [published_resumeAll_cons, publishedFor_append, hfirst.published, hothers.published]
      rfl

theorem alike_resumeAll_congr {l' : List (Sleeper τ)} (h : s.standing uri = t.standing uri)
    (hs : s.Orderly) (ht : t.Orderly) (hl : Awaited s.sleepers l) (hl' : Awaited t.sleepers l')
    (hown : (∃ w ∈ l, w.uri = uri) ↔ ∃ w ∈ l', w.uri = uri) :
    Alike uri (s.resumeAll check l) (t.resumeAll check l') := by
  by_cases hw : ∃ w ∈ l, w.uri = uri
  · obtain ⟨w', hw', huri'⟩ := hown.1 hw
    obtain ⟨w, hw, huri⟩ := hw
    have hfirst : Alike uri (s.resumeAll check l) (s.resume check w) :=
      huri ▸ alike_resumeAll hs hl hw
    have hsecond : Alike uri (t.resumeAll check l') (t.resume check w') :=
      huri' ▸ alike_resumeAll ht hl' hw'
    have hresume : Alike uri (s.resume check w) (t.resume check w') :=
      alike_resume h hs ht (hl.sleeping w hw) (hl'.sleeping w' hw') huri huri'
    exact (hfirst.trans hresume).trans hsecond.symm
  · have hfirst : Alike uri (s.resumeAll check l) (s, {}) :=
      alike_resumeAll_of_ne hs hl fun w hmem huri => hw ⟨w, hmem, huri.symm⟩
    have hsecond : Alike uri (t.resumeAll check l') (t, {}) :=
      alike_resumeAll_of_ne ht hl' fun w hmem huri => hw (hown.2 ⟨w, hmem, huri.symm⟩)
    have hnothing : Alike uri (s, {}) (t, {}) := ⟨h, rfl⟩
    exact (hfirst.trans hnothing).trans hsecond.symm

variable [TimeScale τ]

theorem alike_schedule (h : s.standing uri = t.standing uri) (hs : s.Orderly) (ht : t.Orderly)
    (hnumber : TimeScale.isNumber s.deadline = true) :
    Alike uri (s.schedule check uri) (t.schedule check uri) := by
  have hsettings : s.settings = t.settings := congrArg Standing.settings h
  have hnow : s.now = t.now := congrArg Standing.now h
  have hdelay : s.delay = t.delay := by rw [delay, delay, hsettings]
  have hdeadline : s.deadline = t.deadline := by rw [deadline, deadline, hnow, hdelay]
  have hsame : s.unhindered = t.unhindered := by
    rw [unhindered_of_isNumber hnumber, unhindered_of_isNumber (hdeadline ▸ hnumber), hdelay]
  cases hfree : s.unhindered with
  | true =>
    rw [schedule_of_unhindered hfree, schedule_of_unhindered (hsame ▸ hfree)]
    refine alike_wake ?_
    rw [standing_enroll_self hs, standing_enroll_self ht, h]
  | false =>
    rw [schedule_of_hindered hfree, schedule_of_hindered (hsame ▸ hfree), hdeadline]
    refine ⟨?_, rfl⟩
    rw [standing_await_self hs, standing_await_self ht, h]

theorem alike_changeDocument (h : s.standing uri = t.standing uri) (hs : s.Orderly)
    (ht : t.Orderly)
    (hnumber : s.settings.analyzeOnChange = true → TimeScale.isNumber s.deadline = true) :
    Alike uri (s.changeDocument check uri text) (t.changeDocument check uri text) := by
  have hput : (s.put uri text).standing uri = (t.put uri text).standing uri := by
    rw [standing_put_self, standing_put_self, h]
  have hsettings : s.settings = t.settings := congrArg Standing.settings h
  cases hon : s.settings.analyzeOnChange with
  | true =>
    rw [changeDocument_of_on hon, changeDocument_of_on (hsettings ▸ hon)]
    refine alike_schedule ?_ (Orderly.cancel hs) (Orderly.cancel ht) ?_
    · rw [standing_cancel_self, standing_cancel_self, hput]
    · rw [deadline_cancel]
      exact hnumber hon
  | false =>
    rw [changeDocument_of_off hon, changeDocument_of_off (hsettings ▸ hon)]
    exact ⟨hput, rfl⟩

theorem alike_advance (h : s.standing uri = t.standing uri) (hs : s.Orderly) (ht : t.Orderly)
    (hs' : s.Timed) (ht' : t.Timed) (delay : τ) :
    Alike uri (s.advance check delay) (t.advance check delay) := by
  have hnow : s.now = t.now := congrArg Standing.now h
  have hpending : s.pending uri = t.pending uri := congrArg Standing.pending h
  have hlater : ∀ now, standing { s with now } uri = standing { t with now } uri :=
    fun now => congrArg (fun d : Standing τ κ => { d with now }) h
  have hdue : ∀ now, (∃ w ∈ s.due now, w.uri = uri) ↔ ∃ w ∈ t.due now, w.uri = uri := by
    intro now
    rw [exists_mem_due_iff hs hs', exists_mem_due_iff ht ht', hpending]
  rw [advance, advance, hnow]
  exact alike_resumeAll_congr (hlater _) hs ht (hs.awaited_due _) (ht.awaited_due _) (hdue _)

/-- An event about the document, or about none, is the same for any two sessions that
are the same for the document. -/
theorem alike_handle (h : s.standing uri = t.standing uri) (hs : s.Orderly) (ht : t.Orderly)
    (hs' : s.Timed) (ht' : t.Timed) {e : Event τ} (he : ∀ v, e.uri? = some v → v = uri)
    (htask : s.TimesTask e) :
    Alike uri (s.handle check e) (t.handle check e) := by
  cases e with
  | started options => exact alike_start h options
  | configure settings => exact alike_configure h settings
  | advance delay => exact alike_advance h hs ht hs' ht' delay
  | opened v text =>
    obtain rfl := he v rfl
    exact alike_openDocument h
  | changed v text =>
    obtain rfl := he v rfl
    exact alike_changeDocument h hs ht (htask v text rfl)
  | saved v =>
    obtain rfl := he v rfl
    obtain ⟨hstanding, hreply⟩ := saveDocument_congr check h
    exact ⟨hstanding, by rw [handle, handle, hreply]⟩
  | closed v =>
    obtain rfl := he v rfl
    exact alike_closeDocument h
  | validate v text force =>
    obtain rfl := he v rfl
    exact alike_validate h force

def run (s : Session τ κ) : List (Checker × Event τ) → Session τ κ × List Publication
  | [] => (s, [])
  | (check, e) :: rest =>
    let (s, reply) := s.handle check e
    let (s, published) := s.run rest
    (s, reply.published ++ published)

theorem run_cons (s : Session τ κ) (check : Checker) (e : Event τ)
    (rest : List (Checker × Event τ)) :
    s.run ((check, e) :: rest) =
      (((s.handle check e).1.run rest).1,
        (s.handle check e).2.published ++ ((s.handle check e).1.run rest).2) :=
  rfl

theorem Orderly.run (h : s.Orderly) (events : List (Checker × Event τ)) :
    (s.run events).1.Orderly := by
  induction events generalizing s with
  | nil => exact h
  | cons e rest ih => exact ih (h.handle e.2)

/-! Tasks that wait for numbers. -/

theorem mem_sleepers_changeDocument (h : w ∈ (s.changeDocument check uri text).1.sleepers) :
    w ∈ s.sleepers ∨ s.settings.analyzeOnChange = true ∧ w.due = s.deadline := by
  have hstop : ∀ w ∈ ((s.put uri text).cancel uri).sleepers, w ∈ s.sleepers := by
    obtain ⟨p, hp⟩ := exists_cancel_eq (s.put uri text) uri
    intro w hw
    rw [hp] at hw
    exact (List.mem_filter.1 hw).1
  cases hon : s.settings.analyzeOnChange with
  | false =>
    rw [changeDocument_of_off hon] at h
    exact .inl h
  | true =>
    rw [changeDocument_of_on hon] at h
    cases hfree : ((s.put uri text).cancel uri).unhindered with
    | true =>
      rw [schedule_of_unhindered hfree, sleepers_wake] at h
      exact .inl (hstop w h)
    | false =>
      rw [schedule_of_hindered hfree] at h
      rcases List.mem_append.1 h with hw | hw
      · exact .inl (hstop w hw)
      · refine .inr ⟨rfl, ?_⟩
        rw [List.mem_singleton.1 hw]
        exact deadline_cancel _ _

theorem mem_sleepers_handle {e : Event τ} (h : w ∈ (s.handle check e).1.sleepers) :
    w ∈ s.sleepers ∨
      ∃ uri text, e = .changed uri text ∧ s.settings.analyzeOnChange = true ∧
        w.due = s.deadline := by
  cases e with
  | changed uri text =>
    exact (mem_sleepers_changeDocument h).imp_right fun hw => ⟨uri, text, rfl, hw⟩
  | started options =>
    obtain ⟨settings, heq, _⟩ := exists_start_eq s options
    rw [handle, heq] at h
    exact .inl h
  | configure options =>
    obtain ⟨settings, heq, _⟩ := exists_configure_eq s options
    rw [handle, heq] at h
    exact .inl h
  | opened uri text =>
    obtain ⟨cache, heq⟩ := exists_validate_eq check (s.put uri text) uri text false
    have hopened : w ∈ ((s.put uri text).validate check uri text false).1.sleepers := h
    rw [heq] at hopened
    exact .inl hopened
  | saved uri =>
    obtain ⟨cache, heq⟩ := exists_saveDocument_eq check s uri
    rw [handle, heq] at h
    exact .inl h
  | closed uri =>
    obtain ⟨p, hp⟩ := exists_cancel_eq s uri
    rw [handle, closeDocument, hp] at h
    exact .inl (List.mem_filter.1 h).1
  | validate uri text force =>
    obtain ⟨cache, heq⟩ := exists_validate_eq check s uri text force
    rw [handle, heq] at h
    exact .inl h
  | advance delay =>
    exact .inl (mem_sleepers_resumeAll (s := { s with now := TimeScale.add s.now delay }) h)

theorem Timed.handle (h : s.Timed) {e : Event τ} (htask : s.TimesTask e) :
    (s.handle check e).1.Timed := by
  intro w hw
  obtain hold | ⟨uri, text, he, hon, hdue⟩ := mem_sleepers_handle hw
  · exact h w hold
  · rw [hdue]
    exact htask uri text he hon

/-- Whenever a change starts a task, the time that this task is to wait for is a number. -/
def Punctual (s : Session τ κ) : List (Checker × Event τ) → Prop
  | [] => True
  | (check, e) :: rest => s.TimesTask e ∧ (s.handle check e).1.Punctual rest

theorem run_concerning {events : List (Checker × Event τ)} (hpunctual : s.Punctual events)
    (h : s.standing uri = t.standing uri) (hs : s.Orderly) (ht : t.Orderly) (hs' : s.Timed)
    (ht' : t.Timed) :
    (s.run events).1.standing uri =
        (t.run (Event.concerning uri events)).1.standing uri ∧
      publishedFor uri (s.run events).2 =
        publishedFor uri (t.run (Event.concerning uri events)).2 := by
  induction events generalizing s t with
  | nil => exact ⟨h, rfl⟩
  | cons head rest ih =>
    obtain ⟨check, e⟩ := head
    obtain ⟨htask, hrest⟩ := hpunctual
    cases he : e.concerns uri with
    | true =>
      have hown : Alike uri (s.handle check e) (t.handle check e) :=
        alike_handle h hs ht hs' ht' (Event.concerns_iff.1 he) htask
      obtain ⟨hstanding, hpublished⟩ := ih hrest hown.standing (hs.handle e) (ht.handle e)
        (hs'.handle htask) (ht'.handle (htask.congr h))
      rw [Event.concerning_cons_of_pos he, run_cons, run_cons, publishedFor_append,
        publishedFor_append, hown.published, hpublished]
      exact ⟨hstanding, rfl⟩
    | false =>
      -- Only the first run has this event, and the standing stays as it is.
      obtain ⟨v, hv, hne⟩ := Event.concerns_eq_false_iff.1 he
      have hother : Alike uri (s.handle check e) (s, {}) := alike_handle_of_ne hs hv hne
      obtain ⟨hstanding, hpublished⟩ := ih hrest (hother.standing.trans h) (hs.handle e) ht
        (hs'.handle htask) ht'
      rw [Event.concerning_cons_of_neg he, run_cons, publishedFor_append, hother.published,
        hpublished]
      exact ⟨hstanding, rfl⟩

theorem orderly_fresh : (fresh τ κ).Orderly := by
  have h : Reached checker (fresh τ κ) := .fresh
  exact h.orderly

/-- Documents are isolated where tasks wait for numbers: what is published for a document,
its result and its task are those of the run in which nothing happens to any other
document. -/
theorem run_alone {events : List (Checker × Event τ)} (h : (fresh τ κ).Punctual events)
    (uri : String) :
    publishedFor uri ((fresh τ κ).run events).2 =
        publishedFor uri ((fresh τ κ).run (Event.concerning uri events)).2 ∧
      ((fresh τ κ).run events).1.cache.get? uri =
        ((fresh τ κ).run (Event.concerning uri events)).1.cache.get? uri ∧
      ((fresh τ κ).run events).1.pending uri =
        ((fresh τ κ).run (Event.concerning uri events)).1.pending uri := by
  have hsame : (fresh τ κ).standing uri = (fresh τ κ).standing uri := rfl
  obtain ⟨hstanding, hpublished⟩ :=
    run_concerning h hsame orderly_fresh orderly_fresh timed_fresh timed_fresh
  exact ⟨hpublished, congrArg Standing.result hstanding, congrArg Standing.pending hstanding⟩

end Analysis

def sideBySide : List (Checker × Event Float) :=
  [(checker, .started (.obj [("analyzeOnChange", .bool true)])), (checker, .changed "a" "[]"),
    (checker, .changed "b" "["), (checker, .advance 1)]

theorem run_alone_sideBySide :
    (fresh Float).Punctual sideBySide ∧
      publishedFor "b" ((fresh Float).run sideBySide).2 =
        publishedFor "b" ((fresh Float).run (Event.concerning "b" sideBySide)).2 ∧
      ((fresh Float).run sideBySide).1.cache.get? "b" =
        ((fresh Float).run (Event.concerning "b" sideBySide)).1.cache.get? "b" ∧
      ((fresh Float).run sideBySide).1.pending "b" =
        ((fresh Float).run (Event.concerning "b" sideBySide)).1.pending "b" := by
  have hpunctual : (fresh Float).Punctual sideBySide :=
    ⟨by simp [TimesTask], fun _ _ _ _ => rfl, fun _ _ _ _ => rfl, by simp [TimesTask], trivial⟩
  exact ⟨hpunctual, run_alone hpunctual "b"⟩

def debounceOf (value : Json) : Event Float :=
  .configure (.obj [("defassign", .obj [("analyzeOnChange", .bool true),
    ("debounceSeconds", value)])])

/-- A document is changed under a delay that is no number, while the task of another waits. -/
def stuckBehind : List (Checker × Event Float) :=
  [(checker, debounceOf (.int 5)), (checker, .changed "a" "[]"),
    (checker, debounceOf (.str "nan")), (checker, .changed "b" "[]")]

def undated : Session Float := { fresh Float with settings := ⟨true, 0 / 0⟩ }

/-- Alone, the document would be validated at once. -/
theorem publishedFor_stuckBehind :
    publishedFor "b" ((fresh Float).run stuckBehind).2 = [] ∧
      publishedFor "b" ((fresh Float).run (Event.concerning "b" stuckBehind)).2 = [⟨"b", []⟩] := by
  refine ⟨rfl, ?_⟩
  have hconcerning : Event.concerning "b" stuckBehind =
      [(checker, debounceOf (.int 5)), (checker, debounceOf (.str "nan")),
        (checker, .changed "b" "[]")] := rfl
  have hfirst : (fresh Float).handle checker (debounceOf (.int 5)) =
      ({ fresh Float with settings := ⟨true, 5⟩ }, {}) := rfl
  have hsecond : handle checker { fresh Float with settings := ⟨true, 5⟩ }
      (debounceOf (.str "nan")) = (undated, {}) := rfl
  obtain ⟨logs, hvalidate⟩ :=
    exists_validate_eq_of_findings (((undated.put "b" "[]").cancel "b").enroll "b") "b" rfl
      findings_empty
  rw [hconcerning, run_cons, hfirst, run_cons, hsecond, run_cons, handle, changeDocument_of_on rfl,
    schedule_of_unhindered rfl, published_wake, saveDocument,
    show document _ "b" = .ok "[]" from rfl]
  dsimp only
  rw [hvalidate]
  rfl

end DefiniteAssignment.Editor.Session
