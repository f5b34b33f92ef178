import DefiniteAssignment.Proofs.Debouncing

/-! What the client sees. While changes are analyzed and no validation fails, the
diagnostics last published for a document are those of its present text, unless a
task is waiting to publish new ones. -/
namespace DefiniteAssignment.Editor

def lastShown (uri : String) (published : List Publication) : Option (List Diagnostic) :=
  (published.filter fun p => p.uri = uri).getLast?.map Publication.diagnostics

theorem lastShown_append_of_ne {uri : String} {published more : List Publication}
    (h : ∀ p ∈ more, p.uri ≠ uri) :
    lastShown uri (published ++ more) = lastShown uri published := by
  have hnone : more.filter (fun p => p.uri = uri) = [] := by simpa using h
  rw [lastShown, List.filter_append, hnone, List.append_nil, lastShown]

theorem lastShown_append_self (uri : String) (published : List Publication)
    (diagnostics : List Diagnostic) :
    lastShown uri (published ++ [⟨uri, diagnostics⟩]) = some diagnostics := by
  simp [lastShown]

def Reply.Untroubled (r : Reply) : Prop :=
  r.taskErrors = [] ∧ ∀ e, r.error ≠ some (.document e)

def Event.FromClient {τ : Type} : Event τ → Prop
  | .validate _ _ _ => False
  | _ => True

namespace Session

variable {τ κ : Type} {check : Checker} {s : Session τ κ} {r : Session τ κ × Reply}
  {uri text : String} {published : List Publication} {w : Sleeper τ} {l : List (Sleeper τ)}

structure Confined (uri : String) (s : Session τ κ) (r : Session τ κ × Reply) : Prop where
  documents : ∀ v, v ≠ uri → r.1.documents.get? v = s.documents.get? v
  sleepers : ∀ w ∈ s.sleepers, w.uri ≠ uri → w ∈ r.1.sleepers
  published : ∀ p ∈ r.2.published, p.uri = uri

theorem document_of_open [Disk] (h : s.documents.get? uri = some text) :
    s.document uri = .ok text := by
  rw [document, h]

theorem confined_closeDocument (h : s.Orderly) : Confined uri s (s.closeDocument uri) where
  documents v hv := by
    rw [closeDocument]
    dsimp only
    rw [Table.get?_erase, if_neg hv, documents_cancel]
  sleepers w hw hne := (mem_sleepers_cancel h).2 ⟨hw, hne⟩
  published p hp := by simp_all [closeDocument, Reply.publish]

variable [Digest κ]

theorem analyze_snd_cases (check : Checker) (s : Session τ κ) (uri text : String) :
    (∃ diagnostics, (s.analyze check uri text).2.published = [⟨uri, diagnostics⟩]) ∨
      (s.analyze check uri text).2.published = [] ∧
        ∃ e, (s.analyze check uri text).2.error = some (.document e) := by
  unfold analyze
  dsimp only
  split
  · split
    · exact .inl ⟨_, rfl⟩
    · exact .inr ⟨rfl, _, rfl⟩
  · split <;> exact .inl ⟨_, rfl⟩

variable [DecidableEq κ]

/-- The sessions that come about while every change is analyzed and no validation
fails, with all that was published. -/
inductive Attended [Disk] [TimeScale τ] (check : Checker) : Session τ κ → List Publication → Prop
  | fresh : Attended check (fresh τ κ) []
  | event {s : Session τ κ} {published : List Publication} (h : Attended check s published)
      {e : Event τ} (hclient : e.FromClient)
      (hchange : ∀ uri text, e = .changed uri text → s.settings.analyzeOnChange = true)
      (hreply : (s.handle check e).2.Untroubled) :
      Attended check (s.handle check e).1 (published ++ (s.handle check e).2.published)
  | pass {s : Session τ κ} {published : List Publication} (h : Attended check s published)
      (delay : τ) : Attended check { s with now := TimeScale.add s.now delay } published
  | resume {s : Session τ κ} {published : List Publication} (h : Attended check s published)
      {w : Sleeper τ} (hw : w ∈ s.sleepers) (hreply : (s.resume check w).2.Untroubled) :
      Attended check (s.resume check w).1 (published ++ (s.resume check w).2.published)

theorem Attended.reached [Disk] [TimeScale τ] (h : Attended check s published) : Reached check s := by
  induction h with
  | fresh => exact .fresh
  | event h hclient hchange hreply ih => exact ih.event _
  | pass h delay ih => exact ih.pass delay
  | resume h hw hreply ih => exact ih.resume hw

theorem confined_validate (check : Checker) (s : Session τ κ) (uri text : String) (force : Bool) :
    Confined uri s (s.validate check uri text force) := by
  obtain ⟨cache, hcache⟩ := exists_validate_eq check s uri text force
  refine ⟨fun v _ => by rw [hcache], fun w hw _ => by rwa [hcache], fun p hp => ?_⟩
  unfold validate at hp
  split at hp
  · simp_all [Reply.publish]
  · rcases analyze_snd_cases check s uri text with ⟨diagnostics, heq⟩ | ⟨heq, _⟩
    · simp_all
    · simp [heq] at hp

theorem confined_openDocument (check : Checker) (s : Session τ κ) (uri text : String) :
    Confined uri s (s.openDocument check uri text) := by
  obtain ⟨hdocuments, hsleepers, hpublished⟩ := confined_validate check
    { s with documents := s.documents.insert uri text } uri text false
  refine ⟨fun v hv => ?_, hsleepers, hpublished⟩
  exact (hdocuments v hv).trans (Table.get?_insert_of_ne _ hv _)

section Tasks

variable [Disk]

theorem confined_saveDocument (check : Checker) (s : Session τ κ) (uri : String) :
    Confined uri s (s.saveDocument check uri) := by
  unfold saveDocument
  split
  · exact confined_validate check s uri _ false
  · exact ⟨fun _ _ => rfl, fun _ hw _ => hw, by simp⟩

theorem published_wake (s : Session τ κ) (uri : String) :
    (s.wake check uri).2.published = (s.saveDocument check uri).2.published := by
  unfold wake
  dsimp only
  split <;> rfl

theorem confined_wake (check : Checker) (s : Session τ κ) (uri : String) :
    Confined uri s (s.wake check uri) := by
  obtain ⟨cache, tasks, heq, _⟩ := exists_wake_eq check s uri
  refine ⟨fun v _ => by rw [heq], fun w hw _ => by rwa [heq], fun p hp => ?_⟩
  rw [published_wake] at hp
  exact (confined_saveDocument check s uri).published p hp

theorem confined_resume (h : s.Orderly) (hw : w ∈ s.sleepers) :
    Confined w.uri s (s.resume check w) where
  documents := (confined_wake check _ w.uri).documents
  sleepers _ hv hne := (mem_sleepers_resume h hw).2 ⟨hv, hne⟩
  published := (confined_wake check _ w.uri).published

theorem confined_schedule [TimeScale τ] (check : Checker) (s : Session τ κ) (uri : String) :
    Confined uri s (s.schedule check uri) := by
  unfold schedule
  dsimp only
  split
  · obtain ⟨hdocuments, hsleepers, hpublished⟩ := confined_wake check
      { s with tasks := s.tasks.insert uri s.nextTask, nextTask := s.nextTask + 1 } uri
    exact ⟨hdocuments, hsleepers, hpublished⟩
  · exact ⟨fun _ _ => rfl, fun w hw _ => List.mem_append_left _ hw, by simp⟩

theorem confined_changeDocument [TimeScale τ] (h : s.Orderly) :
    Confined uri s (s.changeDocument check uri text) := by
  have hput : Orderly { s with documents := s.documents.insert uri text } := h
  unfold changeDocument
  dsimp only
  split
  · obtain ⟨hdocuments, hsleepers, hpublished⟩ := confined_schedule check
      ({ s with documents := s.documents.insert uri text }.cancel uri) uri
    refine ⟨fun v hv => ?_, fun w hw hne => ?_, hpublished⟩
    · rw [hdocuments v hv, documents_cancel, Table.get?_insert_of_ne _ hv]
    · exact hsleepers w ((mem_sleepers_cancel hput).2 ⟨hw, hne⟩) hne
  · exact ⟨fun v hv => Table.get?_insert_of_ne _ hv _, fun w hw _ => hw, by simp⟩

end Tasks

section Currency

variable [TimeScale τ]

/-- The diagnostics published last for a document are what a validation of its text
that knows nothing publishes, unless a task of the document is waiting. -/
def Current (check : Checker) (s : Session τ κ) (published : List Publication) (uri : String) :
    Prop :=
  ∀ text, s.documents.get? uri = some text → (∀ w ∈ s.sleepers, w.uri ≠ uri) →
    ∃ diagnostics, ((fresh τ κ).validate check uri text true).2.published = [⟨uri, diagnostics⟩] ∧
      lastShown uri published = some diagnostics

theorem Confined.current (h : Confined uri s r) (hs : ∀ v, Current check s published v)
    (huri : Current check r.1 (published ++ r.2.published) uri) (v : String) :
    Current check r.1 (published ++ r.2.published) v := by
  by_cases hv : v = uri
  · exact hv ▸ huri
  · intro text htext hquiet
    rw [h.documents v hv] at htext
    have hother : ∀ p ∈ r.2.published, p.uri ≠ v := fun p hp heq =>
      hv (heq.symm.trans (h.published p hp))
    rw [lastShown_append_of_ne hother]
    refine hs v text htext fun w hw heq => ?_
    exact hquiet w (h.sleepers w hw (heq ▸ hv)) heq

variable [LawfulDigest κ]

theorem current_validate (h : Faithful check s.cache)
    (htext : ∀ text', s.documents.get? uri = some text' → text' = text)
    (herror : ∀ e, (s.validate check uri text false).2.error ≠ some (.document e)) :
    Current check (s.validate check uri text false).1
      (published ++ (s.validate check uri text false).2.published) uri := by
  obtain ⟨cache, hcache⟩ := exists_validate_eq check s uri text false
  obtain ⟨_, hpublished, hsame⟩ := h.validate_false uri text
  intro text' htext' _
  rw [hcache] at htext'
  obtain rfl := htext text' htext'
  rcases analyze_snd_cases check s uri text' with ⟨diagnostics, heq⟩ | ⟨_, e, hfailed⟩
  · refine ⟨diagnostics, ?_, ?_⟩
    · rw [← heq]
      exact congrArg Reply.published (analyze_snd _ s uri text')
    · rw [hpublished, heq, lastShown_append_self]
  · exact absurd (hsame.trans hfailed) (herror e)

variable [Disk]

theorem current_saveDocument (h : Faithful check s.cache)
    (herror : ∀ e, (s.saveDocument check uri).2.error ≠ some (.document e)) :
    Current check (s.saveDocument check uri).1
      (published ++ (s.saveDocument check uri).2.published) uri := by
  cases hopen : s.documents.get? uri with
  | some text =>
    have heq : s.saveDocument check uri = s.validate check uri text false := by
      rw [saveDocument, document_of_open hopen]
    rw [heq] at herror ⊢
    exact current_validate h (fun _ htext => Option.some.inj (htext.symm.trans hopen)) herror
  | none =>
    obtain ⟨cache, hcache⟩ := exists_saveDocument_eq check s uri
    intro text htext
    rw [hcache] at htext
    exact absurd (hopen.symm.trans htext) (by simp)

theorem current_wake (h : Faithful check s.cache) (herrors : (s.wake check uri).2.taskErrors = []) :
    Current check (s.wake check uri).1 (published ++ (s.wake check uri).2.published) uri := by
  cases herror : (s.saveDocument check uri).2.error with
  | none =>
    have heq : s.wake check uri =
        ({ (s.saveDocument check uri).1 with
            tasks := (s.saveDocument check uri).1.tasks.erase uri },
          (s.saveDocument check uri).2) := by
      unfold wake
      dsimp only
      rw [herror]
    rw [heq]
    exact current_saveDocument h (by simp [herror])
  | some e =>
    unfold wake at herrors
    simp [herror, Reply.asTask] at herrors

theorem current_schedule (h : Faithful check s.cache)
    (herrors : (s.schedule check uri).2.taskErrors = []) :
    Current check (s.schedule check uri).1
      (published ++ (s.schedule check uri).2.published) uri := by
  unfold schedule at herrors ⊢
  dsimp only at herrors ⊢
  split
  · rename_i hdelay
    rw [if_pos hdelay] at herrors
    exact current_wake h herrors
  · -- The new task waits, so nothing is said about this document.
    intro text _ hquiet
    exact absurd rfl (hquiet _ (List.mem_append_right _ List.mem_cons_self))

theorem current_changeDocument (h : Faithful check s.cache)
    (hchange : s.settings.analyzeOnChange = true)
    (herrors : (s.changeDocument check uri text).2.taskErrors = []) :
    Current check (s.changeDocument check uri text).1
      (published ++ (s.changeDocument check uri text).2.published) uri := by
  unfold changeDocument at herrors ⊢
  dsimp only at herrors ⊢
  rw [if_pos hchange] at herrors ⊢
  exact current_schedule ((cache_cancel _ _).symm ▸ h) herrors

theorem current_resume (h : Faithful check s.cache) (hs : s.Orderly)
    (hcurrent : ∀ v, Current check s published v) (hw : w ∈ s.sleepers)
    (herrors : (s.resume check w).2.taskErrors = []) (v : String) :
    Current check (s.resume check w).1 (published ++ (s.resume check w).2.published) v :=
  (confined_resume hs hw).current hcurrent (current_wake h herrors) v

theorem current_resumeAll (h : Faithful check s.cache) (hs : s.Orderly)
    (hcurrent : ∀ v, Current check s published v) (hl : Awaited s.sleepers l)
    (herrors : (s.resumeAll check l).2.taskErrors = []) (v : String) :
    Current check (s.resumeAll check l).1
      (published ++ (s.resumeAll check l).2.published) v := by
  induction l generalizing s published with
  | nil =>
    rw [resumeAll, List.append_nil]
    exact hcurrent v
  | cons w rest ih =>
    -- The tasks of the rest go on waiting: they belong to other documents.
    have hw : w ∈ s.sleepers := hl.sleeping w List.mem_cons_self
    obtain ⟨hfirst, hothers⟩ := List.append_eq_nil_iff.1 herrors
    have hnext := ih h.resume (hs.resume hw) (current_resume h hs hcurrent hw hfirst)
      (hl.resume hs) hothers
    rw [List.append_assoc] at hnext
    exact hnext

theorem current_handle (h : Faithful check s.cache) (hs : s.Orderly)
    (hcurrent : ∀ v, Current check s published v) {e : Event τ} (hclient : e.FromClient)
    (hchange : ∀ uri text, e = .changed uri text → s.settings.analyzeOnChange = true)
    (hreply : (s.handle check e).2.Untroubled) (v : String) :
    Current check (s.handle check e).1 (published ++ (s.handle check e).2.published) v := by
  obtain ⟨herrors, herror⟩ := hreply
  cases e with
  | started options =>
    obtain ⟨settings, hsettings, hpublished⟩ := exists_start_eq s options
    rw [handle, hsettings, hpublished, List.append_nil]
    exact hcurrent v
  | configure options =>
    obtain ⟨settings, hsettings, hpublished⟩ := exists_configure_eq s options
    rw [handle, hsettings, hpublished, List.append_nil]
    exact hcurrent v
  | opened uri text =>
    have htext : ∀ text', (s.documents.insert uri text).get? uri = some text' → text' = text := by
      simp [eq_comm]
    exact (confined_openDocument check s uri text).current hcurrent
      (current_validate h htext herror) v
  | changed uri text =>
    exact (confined_changeDocument hs).current hcurrent
      (current_changeDocument h (hchange uri text rfl) herrors) v
  | saved uri =>
    exact (confined_saveDocument check s uri).current hcurrent (current_saveDocument h herror) v
  | closed uri =>
    refine (confined_closeDocument hs).current hcurrent ?_ v
    intro text htext
    simp [closeDocument, Table.get?_erase] at htext
  | validate uri text force => exact hclient.elim
  | advance delay =>
    exact current_resumeAll (s := { s with now := TimeScale.add s.now delay }) h hs hcurrent
      (hs.awaited_due _) herrors v

theorem Attended.current (h : Attended check s published) (v : String) :
    Current check s published v := by
  induction h generalizing v with
  | fresh => simp [Current, Session.fresh]
  | event h hclient hchange hreply ih =>
    exact current_handle h.reached.faithful h.reached.orderly ih hclient hchange hreply v
  | pass h delay ih => exact ih v
  | resume h hw hreply ih =>
    exact current_resume h.reached.faithful h.reached.orderly ih hw hreply.1 v

/-- A document for which no task is waiting is shown with the diagnostics of its
present text. -/
theorem lastShown_of_quiet (h : Attended check s published)
    (hopen : s.documents.get? uri = some text) (hquiet : ∀ w ∈ s.sleepers, w.uri ≠ uri) :
    ∃ diagnostics, ((fresh τ κ).validate check uri text true).2.published = [⟨uri, diagnostics⟩] ∧
      lastShown uri published = some diagnostics :=
  h.current uri text hopen hquiet

end Currency

theorem Attended.next [Disk] [TimeScale τ] {s' : Session τ κ} {reply : Reply} {e : Event τ}
    (h : Attended check s published) (hclient : e.FromClient)
    (hchange : ∀ uri text, e = .changed uri text → s.settings.analyzeOnChange = true)
    (heq : s.handle check e = (s', reply)) (hreply : reply.Untroubled) :
    Attended check s' (published ++ reply.published) := by
  have hevent := h.event hclient hchange (heq ▸ hreply)
  rwa [heq] at hevent

def edited : Session Float where
  settings := { analyzeOnChange := true }
  documents := ⟨[("a", "[]")]⟩
  cache := ⟨[("a", ⟨printing, [⟨.notDeclared, "x"⟩]⟩)]⟩
  tasks := ⟨[("a", 0)]⟩
  sleepers := [⟨0, "a", 0.5⟩]
  nextTask := 1
  now := 0

theorem attended_edited :
    Attended checker edited [⟨"a", diagnose printing [⟨.notDeclared, "x"⟩]⟩] := by
  obtain ⟨logs, hvalidate⟩ := exists_validate_eq_of_findings
    ({ settings := { analyzeOnChange := true }
       documents := ⟨[("a", printing)]⟩
       now := 0 } : Session Float) "a" rfl findings_printing
  have hstarted : Attended checker
      ({ settings := { analyzeOnChange := true }, now := 0 } : Session Float) [] :=
    Attended.fresh.next (e := .started (.obj [("analyzeOnChange", .bool true)])) trivial (by simp)
      rfl ⟨rfl, by simp⟩
  have hopened := hstarted.next (e := .opened "a" printing) trivial (by simp) hvalidate
    ⟨rfl, by simp [Reply.publish]⟩
  exact hopened.next (e := .changed "a" "[]") trivial (fun _ _ _ => rfl) rfl ⟨rfl, by simp⟩

theorem lastShown_of_quiet_edited :
    Attended checker (edited.handle checker (.advance 1)).1
      [⟨"a", diagnose printing [⟨.notDeclared, "x"⟩]⟩, ⟨"a", []⟩] ∧
    (edited.handle checker (.advance 1)).1.documents.get? "a" = some "[]" ∧
    (edited.handle checker (.advance 1)).1.sleepers = [] ∧
    ∃ diagnostics, ((fresh Float).validate checker "a" "[]" true).2.published =
        [⟨"a", diagnostics⟩] ∧
      lastShown "a" [⟨"a", diagnose printing [⟨.notDeclared, "x"⟩]⟩, ⟨"a", []⟩] =
        some diagnostics := by
  obtain ⟨logs, hvalidate⟩ := exists_validate_eq_of_findings
    ({ edited with sleepers := [], now := 1 } : Session Float) "a" rfl findings_empty
  have hdue : edited.due 1 = [⟨0, "a", 0.5⟩] := by
    have hle : TimeScale.le (0.5 : Float) 1 = true := by decide
    simp [due, edited, hle]
  have hrest : edited.sleepers.filter (fun v => v.task ≠ 0) = [] := rfl
  have hadvance : edited.handle checker (.advance 1) =
      ({ edited with cache := ⟨[("a", ⟨"[]", []⟩)]⟩, sleepers := [], tasks := {}, now := 1 },
        (Reply.publish "a" [] logs).append {}) := by
    change ({ edited with now := 1 } : Session Float).resumeAll checker (edited.due 1) = _
    rw [hdue, resumeAll, resume, hrest, wake, saveDocument,
      show document _ "a" = .ok "[]" from rfl]
    dsimp only
    rw [hvalidate]
    rfl
  have h := attended_edited.next (e := .advance 1) trivial (by simp) hadvance
    ⟨rfl, by simp [Reply.append, Reply.publish]⟩
  rw [hadvance]
  exact ⟨h, rfl, rfl, lastShown_of_quiet h rfl (by simp)⟩

end Session

end DefiniteAssignment.Editor
