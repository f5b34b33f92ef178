import DefiniteAssignment.Proofs.Bookkeeping
import Mathlib.Algebra.Order.Ring.Rat
import Mathlib.Tactic.NormNum

/-! Bursts of changes. A change stops the task of the one before, so while changes of a
document follow each other faster than the delay nothing is published for it; the task
of the last one is the only one to come to its time. What happens to other documents in
between plays no part. -/
namespace DefiniteAssignment.Editor

/-- Time is told in exact numbers. -/
class ExactTime (τ : Type) [AddCommMonoid τ] [LinearOrder τ] [TimeScale τ] : Prop where
  start_eq : (TimeScale.start : τ) = 0
  add_eq : ∀ a b : τ, TimeScale.add a b = a + b
  le_iff : ∀ a b : τ, TimeScale.le a b = true ↔ a ≤ b
  ofSeconds_pos_iff : ∀ x : Float, x.isFinite = true → (0 < (TimeScale.ofSeconds x : τ) ↔ 0 < x)

section ExactTime

variable {τ : Type} [AddCommMonoid τ] [LinearOrder τ] [TimeScale τ] [ExactTime τ]

theorem ExactTime.isNumber (t : τ) : TimeScale.isNumber t = true := (le_iff t t).2 le_rfl

theorem Session.timed_of_exact {κ : Type} (s : Session τ κ) : s.Timed :=
  fun w _ => ExactTime.isNumber w.due

end ExactTime

def Event.lapse {τ : Type} [Zero τ] : Event τ → τ
  | .advance delay => delay
  | .started _ | .configure _ | .opened _ _ | .changed _ _ | .saved _ | .closed _
  | .validate _ _ _ => 0

theorem Event.lapse_of_uri {τ : Type} [Zero τ] {e : Event τ} {uri : String}
    (h : e.uri? = some uri) : e.lapse = 0 := by
  cases e with
  | advance delay => simp [Event.uri?] at h
  | started _ | configure _ | opened _ _ | changed _ _ | saved _ | closed _ | validate _ _ _ => rfl

def Event.configures {τ : Type} : Event τ → Bool
  | .started _ | .configure _ => true
  | .opened _ _ | .changed _ _ | .saved _ | .closed _ | .validate _ _ _ | .advance _ => false

namespace Session

section Runs

variable {τ κ : Type} [DecidableEq κ] [Digest κ] {check : Checker} {s t : Session τ κ}
  {uri text : String} {events : List (Event τ)}

theorem settings_validate (check : Checker) (s : Session τ κ) (uri text : String) (force : Bool) :
    (s.validate check uri text force).1.settings = s.settings := by
  obtain ⟨cache, heq⟩ := exists_validate_eq check s uri text force
  rw [heq]

variable [Disk]

theorem settings_saveDocument (check : Checker) (s : Session τ κ) (uri : String) :
    (s.saveDocument check uri).1.settings = s.settings := by
  obtain ⟨cache, heq⟩ := exists_saveDocument_eq check s uri
  rw [heq]

theorem settings_wake (check : Checker) (s : Session τ κ) (uri : String) :
    (s.wake check uri).1.settings = s.settings := by
  obtain ⟨cache, tasks, heq, _⟩ := exists_wake_eq check s uri
  rw [heq]

theorem settings_resumeAll (check : Checker) (l : List (Sleeper τ)) (s : Session τ κ) :
    (s.resumeAll check l).1.settings = s.settings := by
  induction l generalizing s with
  | nil => rfl
  | cons w rest ih => exact (ih _).trans (settings_wake check _ w.uri)

variable [TimeScale τ]

theorem settings_changeDocument (check : Checker) (s : Session τ κ) (uri text : String) :
    (s.changeDocument check uri text).1.settings = s.settings := by
  obtain ⟨p, hp⟩ := exists_cancel_eq (s.put uri text) uri
  cases hon : s.settings.analyzeOnChange with
  | false =>
    rw [changeDocument_of_off hon]
    rfl
  | true =>
    rw [changeDocument_of_on hon, hp]
    unfold schedule
    dsimp only
    split
    · exact settings_wake check _ uri
    · rfl

theorem settings_handle (check : Checker) (s : Session τ κ) {e : Event τ}
    (he : e.configures = false) : (s.handle check e).1.settings = s.settings := by
  cases e with
  | started options => cases he
  | configure options => cases he
  | opened uri text => exact settings_validate check _ uri text false
  | changed uri text => exact settings_changeDocument check s uri text
  | saved uri => exact settings_saveDocument check s uri
  | closed uri =>
    obtain ⟨p, hp⟩ := exists_cancel_eq s uri
    rw [handle, closeDocument, hp]
  | validate uri text force => exact settings_validate check s uri text force
  | advance delay => exact settings_resumeAll check _ _

def runWith (check : Checker) (s : Session τ κ) (events : List (Event τ)) :
    Session τ κ × List Publication :=
  s.run (events.map fun e => (check, e))

theorem runWith_concat (check : Checker) (s : Session τ κ) (events : List (Event τ)) (e : Event τ) :
    s.runWith check (events ++ [e]) =
      (((s.runWith check events).1.handle check e).1,
        (s.runWith check events).2 ++
          ((s.runWith check events).1.handle check e).2.published) := by
  induction events generalizing s with
  | nil => exact Prod.ext rfl (List.append_nil _)
  | cons first rest ih =>
    have hcons : ∀ l, s.runWith check (first :: l) =
        (((s.handle check first).1.runWith check l).1,
          (s.handle check first).2.published ++ ((s.handle check first).1.runWith check l).2) :=
      fun _ => rfl
    rw [List.cons_append, hcons, hcons, ih, List.append_assoc]

theorem Reached.runWith (h : Reached check s) (events : List (Event τ)) :
    Reached check (s.runWith check events).1 :=
  h.run events

theorem settings_runWith (check : Checker) (s : Session τ κ) (events : List (Event τ))
    (h : ∀ e ∈ events, e.configures = false) : (s.runWith check events).1.settings = s.settings := by
  induction events generalizing s with
  | nil => rfl
  | cons e rest ih =>
    exact (ih _ fun e' he' => h e' (List.mem_cons_of_mem e he')).trans
      (settings_handle check s (h e List.mem_cons_self))

theorem wake_of_answered [LawfulDigest κ] (h : Faithful check s.cache)
    (htext : s.document uri = .ok text)
    (hanswer : ((fresh τ κ).validate check uri text true).2.error = none) :
    (s.wake check uri).2.published = ((fresh τ κ).validate check uri text true).2.published ∧
      (s.wake check uri).1.pending uri = none := by
  have hsave : s.saveDocument check uri = s.validate check uri text false := by
    rw [saveDocument, htext]
  have hfresh : ((fresh τ κ).validate check uri text true).2 = (s.analyze check uri text).2 :=
    analyze_snd _ _ _ _
  obtain ⟨-, hpublished, herror⟩ := h.validate_false uri text
  rw [← hsave] at hpublished herror
  rw [hfresh] at hanswer ⊢
  rw [published_wake]
  refine ⟨hpublished, ?_⟩
  rw [wake_of_answer (herror.trans hanswer)]
  exact congrArg Standing.pending (standing_erase_tasks_self _ uri)

variable [AddCommMonoid τ] [LinearOrder τ]

/-- Changes of a document that follow each other before the delay is over, with events
about other documents and the passing of time in between: the events, the last text, and
the time since the last change. -/
inductive Burst (check : Checker) (s : Session τ κ) (uri : String) :
    List (Event τ) → String → τ → Prop
  | first (text : String) : Burst check s uri [.changed uri text] text 0
  | again {events : List (Event τ)} {text : String} {since : τ}
      (h : Burst check s uri events text since) (next : String) :
      Burst check s uri (events ++ [.changed uri next]) next 0
  | between {events : List (Event τ)} {text : String} {since : τ}
      (h : Burst check s uri events text since) {e : Event τ} (other : e.uri? ≠ some uri)
      (settings : (s.runWith check (events ++ [e])).1.settings = s.settings)
      (soon : since + e.lapse < s.delay) :
      Burst check s uri (events ++ [e]) text (since + e.lapse)

variable [ExactTime τ]

theorem standing_handle_of_not_due (check : Checker) (hs : s.Orderly) {e : Event τ}
    (he : e.uri? ≠ some uri)
    (hdue : ∀ due, s.pending uri = some (some due) → s.now + e.lapse < due) :
    (s.handle check e).1.standing uri =
        { s.standing uri with
          settings := (s.handle check e).1.settings, now := s.now + e.lapse } ∧
      publishedFor uri (s.handle check e).2.published = [] := by
  cases huri : e.uri? with
  | some v =>
    have hne : uri ≠ v := by
      rintro rfl
      exact he huri
    have hother : Alike uri (s.handle check e) (s, {}) := alike_handle_of_ne hs huri hne
    refine ⟨?_, hother.published⟩
    have hsettings : (s.handle check e).1.settings = s.settings :=
      congrArg Standing.settings hother.standing
    rw [hother.standing, hsettings, Event.lapse_of_uri huri, add_zero]
    rfl
  | none =>
    cases e with
    | started options =>
      obtain ⟨settings, heq, hpublished⟩ := exists_start_eq s options
      rw [handle, heq, hpublished, Event.lapse, add_zero]
      exact ⟨rfl, rfl⟩
    | configure options =>
      obtain ⟨settings, heq, hpublished⟩ := exists_configure_eq s options
      rw [handle, heq, hpublished, Event.lapse, add_zero]
      exact ⟨rfl, rfl⟩
    | advance delay =>
      have hawaited := hs.awaited_due (TimeScale.add s.now delay)
      have hquiet : Alike uri (s.advance check delay)
          ({ s with now := TimeScale.add s.now delay }, {}) := by
        refine alike_resumeAll_of_ne hs hawaited fun w hw huri => ?_
        obtain ⟨due, hpending, hle⟩ := (exists_mem_due_iff hs s.timed_of_exact).1 ⟨w, hw, huri.symm⟩
        rw [ExactTime.le_iff, ExactTime.add_eq] at hle
        exact not_lt_of_ge hle (hdue due hpending)
      have hsettings : (s.advance check delay).1.settings = s.settings :=
        settings_resumeAll check _ _
      refine ⟨?_, hquiet.published⟩
      rw [handle, hquiet.standing, hsettings, ExactTime.add_eq]
      rfl
    | opened _ _ | changed _ _ | saved _ | closed _ | validate _ _ _ => simp [Event.uri?] at huri

theorem standing_changeDocument (check : Checker) (hs : s.Orderly)
    (hon : s.settings.analyzeOnChange = true) (hdelay : 0 < s.delay) (uri text : String) :
    (s.changeDocument check uri text).1.standing uri =
        { s.standing uri with text := some text, pending := some (some (s.now + s.delay)) } ∧
      (s.changeDocument check uri text).2.published = [] := by
  have hput : (s.put uri text).Orderly := hs
  obtain ⟨p, hp⟩ := exists_cancel_eq (s.put uri text) uri
  have hfree : ((s.put uri text).cancel uri).unhindered = false := by
    rw [unhindered_of_isNumber (ExactTime.isNumber _), ← Bool.not_eq_true, ExactTime.le_iff,
      ExactTime.start_eq, not_le, hp]
    exact hdelay
  rw [changeDocument_of_on hon, schedule_of_hindered hfree]
  refine ⟨?_, rfl⟩
  rw [standing_await_self hput.cancel, standing_cancel_self, standing_put_self, deadline_cancel,
    deadline, ExactTime.add_eq]
  rfl

/-- The task of the last change waits until the delay is over. It is due a fixed time after
that change, however the clock has moved since. -/
structure Waiting (s : Session τ κ) (uri text : String) (since : τ) (t : Session τ κ) : Prop where
  settings : t.settings = s.settings
  text : t.documents.get? uri = some text
  due : ∃ changed, t.now = changed + since ∧ t.pending uri = some (some (changed + s.delay))

theorem Waiting.changed (check : Checker) (ht : t.Orderly) (hsettings : t.settings = s.settings)
    (hon : s.settings.analyzeOnChange = true) (hdelay : 0 < s.delay) (uri text : String) :
    Waiting s uri text 0 (t.handle check (.changed uri text)).1 ∧
      publishedFor uri (t.handle check (.changed uri text)).2.published = [] := by
  have hsame : t.delay = s.delay := by rw [delay, delay, hsettings]
  obtain ⟨hstanding, hpublished⟩ :=
    standing_changeDocument check ht (hsettings ▸ hon) (hsame ▸ hdelay) uri text
  rw [hsame] at hstanding
  rw [handle, hpublished]
  refine ⟨⟨?_, ?_, t.now, ?_, ?_⟩, rfl⟩
  · exact (congrArg Standing.settings hstanding).trans hsettings
  · exact congrArg Standing.text hstanding
  · rw [add_zero]
    exact congrArg Standing.now hstanding
  · exact congrArg Standing.pending hstanding

variable [IsOrderedCancelAddMonoid τ]

theorem Waiting.between {since : τ} (h : Waiting s uri text since t) (ht : t.Orderly)
    {e : Event τ} (he : e.uri? ≠ some uri)
    (hsettings : (t.handle check e).1.settings = s.settings) (hsoon : since + e.lapse < s.delay) :
    Waiting s uri text (since + e.lapse) (t.handle check e).1 ∧
      publishedFor uri (t.handle check e).2.published = [] := by
  obtain ⟨changed, hnow, hpending⟩ := h.due
  have hdue : ∀ due, t.pending uri = some (some due) → t.now + e.lapse < due := by
    intro due hsome
    -- Both instants are counted from the last change, so only the time since then matters.
    obtain rfl : changed + s.delay = due := by simpa [hpending] using hsome
    rw [hnow, add_assoc]
    exact add_lt_add_right hsoon changed
  obtain ⟨hstanding, hpublished⟩ := standing_handle_of_not_due check ht he hdue
  refine ⟨⟨hsettings, ?_, changed, ?_, ?_⟩, hpublished⟩
  · exact (congrArg Standing.text hstanding).trans h.text
  · rw [← add_assoc, ← hnow]
    exact congrArg Standing.now hstanding
  · exact (congrArg Standing.pending hstanding).trans hpending

theorem Burst.waiting {since : τ} (h : Burst check s uri events text since) (hs : Reached check s)
    (hon : s.settings.analyzeOnChange = true) (hdelay : 0 < s.delay) :
    Waiting s uri text since (s.runWith check events).1 ∧
      publishedFor uri (s.runWith check events).2 = [] := by
  induction h with
  | first text =>
    -- Whatever task an earlier change has left is stopped by this one.
    rw [← List.nil_append [Event.changed uri text], runWith_concat]
    exact Waiting.changed check hs.orderly rfl hon hdelay uri text
  | again h next ih =>
    obtain ⟨hwaiting, hnothing⟩ := ih
    obtain ⟨hnext, hpublished⟩ :=
      Waiting.changed check (hs.runWith _).orderly hwaiting.settings hon hdelay uri next
    rw [runWith_concat, publishedFor_append, hnothing, hpublished]
    exact ⟨hnext, rfl⟩
  | between h he hsettings hsoon ih =>
    obtain ⟨hwaiting, hnothing⟩ := ih
    rw [runWith_concat] at hsettings
    obtain ⟨hnext, hpublished⟩ := hwaiting.between (hs.runWith _).orderly he hsettings hsoon
    rw [runWith_concat, publishedFor_append, hnothing, hpublished]
    exact ⟨hnext, rfl⟩

theorem Waiting.over [LawfulDigest κ] {since : τ} (h : Waiting s uri text since t) (ht : Reached check t)
    (hanswer : ((fresh τ κ).validate check uri text true).2.error = none) {delay : τ}
    (hover : s.delay ≤ since + delay) :
    publishedFor uri (t.handle check (.advance delay)).2.published =
        publishedFor uri ((fresh τ κ).validate check uri text true).2.published ∧
      (t.handle check (.advance delay)).1.pending uri = none := by
  obtain ⟨changed, hnow, hpending⟩ := h.due
  have hle : TimeScale.le (changed + s.delay) (TimeScale.add t.now delay) = true := by
    rw [ExactTime.le_iff, ExactTime.add_eq, hnow, add_assoc]
    exact add_le_add_right hover changed
  obtain ⟨w, hw, rfl⟩ := (exists_mem_due_iff ht.orderly t.timed_of_exact).2 ⟨_, hpending, hle⟩
  have hawaited := ht.orderly.awaited_due (TimeScale.add t.now delay)
  -- Tasks of other documents may be due as well, and of these the document sees nothing.
  have hown : Alike w.uri (t.advance check delay)
      (resume check { t with now := TimeScale.add t.now delay } w) :=
    alike_resumeAll ht.orderly hawaited hw
  have hdocument : t.document w.uri = .ok text := document_of_open h.text
  obtain ⟨hpublished, hforgotten⟩ :=
    wake_of_answered (s := stop { t with now := TimeScale.add t.now delay } w.task)
      ht.faithful hdocument hanswer
  refine ⟨?_, (congrArg Standing.pending hown.standing).trans hforgotten⟩
  rw [handle, hown.published, ← hpublished]
  rfl

/-- A burst of changes is analyzed once. Nothing is published for the document until the
delay after the last change is over; then the diagnostics of the last text are, and no
task of the document waits any more. -/
theorem publishedFor_burst [LawfulDigest κ] {since : τ} (hs : Reached check s)
    (hon : s.settings.analyzeOnChange = true) (hdelay : 0 < s.delay)
    (hburst : Burst check s uri events text since)
    (hanswer : ((fresh τ κ).validate check uri text true).2.error = none) {delay : τ}
    (hover : s.delay ≤ since + delay) :
    publishedFor uri (s.runWith check events).2 = [] ∧
      (∃ diagnostics,
        ((fresh τ κ).validate check uri text true).2.published = [⟨uri, diagnostics⟩] ∧
          publishedFor uri (s.runWith check (events ++ [.advance delay])).2 =
            [⟨uri, diagnostics⟩]) ∧
      ∀ w ∈ (s.runWith check (events ++ [.advance delay])).1.sleepers, w.uri ≠ uri := by
  obtain ⟨hwaiting, hnothing⟩ := hburst.waiting hs hon hdelay
  obtain ⟨hpublished, hforgotten⟩ := hwaiting.over (hs.runWith events) hanswer hover
  refine ⟨hnothing, ?_, ?_⟩
  · rcases analyze_snd_cases check (fresh τ κ) uri text with ⟨diagnostics, hone⟩ | ⟨-, e, herror⟩
    · have hfresh : ((fresh τ κ).validate check uri text true).2.published = [⟨uri, diagnostics⟩] :=
        hone
      refine ⟨diagnostics, hfresh, ?_⟩
      rw [runWith_concat, publishedFor_append, hnothing, hpublished, hfresh]
      simp [publishedFor]
    · exact absurd (herror.symm.trans hanswer) (by simp)
  · have horderly := (hs.runWith (events ++ [.advance delay])).orderly
    rw [runWith_concat] at horderly ⊢
    rintro w hw rfl
    have hkept := pending_of_mem horderly hw
    simp [hforgotten] at hkept

end Runs

end Session

/-! ### Time in fractions -/

/-- The exact value of a finite number; the others have none, and count as no delay. -/
def exactly (x : Float) : ℚ :=
  match x.toModel.unpack with
  | .finite .positive mantissa exponent _ => mantissa * 2 ^ exponent
  | .finite .negative mantissa exponent _ => -(mantissa * 2 ^ exponent)
  | .zero _ | .infinity _ | .notANumber => 0

theorem zero_lt_iff_unpack (x : Float) :
    0 < x ↔ Float.Model.UnpackedFloat.lt (.zero .positive) x.toModel.unpack = true := by
  change Float.lt 0 x = true ↔ _
  rw [Float.lt, decide_eq_true_iff]
  rfl

theorem exactly_pos_iff (x : Float) (h : x.isFinite = true) : 0 < exactly x ↔ 0 < x := by
  have hfinite : x.toModel.unpack.isFinite = true := h
  rw [zero_lt_iff_unpack]
  unfold exactly
  cases hx : x.toModel.unpack with
  | infinity sign =>
    rw [hx] at hfinite
    cases hfinite
  | notANumber =>
    rw [hx] at hfinite
    cases hfinite
  | zero sign => exact iff_of_false (lt_irrefl 0) Bool.false_ne_true
  | finite sign mantissa exponent hpos =>
    have hvalue : (0 : ℚ) < mantissa * 2 ^ exponent :=
      mul_pos (Nat.cast_pos.2 hpos) (zpow_pos zero_lt_two exponent)
    cases sign with
    | positive => exact iff_of_true hvalue rfl
    | negative => exact iff_of_false (neg_neg_of_pos hvalue).not_gt Bool.false_ne_true

instance : TimeScale ℚ := ⟨0, (· + ·), fun a b => a ≤ b, exactly⟩

instance : ExactTime ℚ :=
  ⟨rfl, fun _ _ => rfl, fun _ _ => decide_eq_true_iff, exactly_pos_iff⟩

theorem exactly_half : exactly 0.5 = 1 / 2 := by
  have hparts : (0.5 : Float).toModel.unpack =
      .finite .positive 4503599627370496 (-53) (by decide) := rfl
  rw [exactly, hparts]
  norm_num

namespace Session

def typing : Session ℚ :=
  ((fresh ℚ).runWith checker
    [.started (.obj [("analyzeOnChange", .bool true)]), .changed "a" "[", .advance (1 / 4)]).1

def keystrokes : List (Event ℚ) :=
  [.changed "a" printing, .advance (1 / 4), .opened "b" "[]", .changed "a" "[]", .advance (1 / 4)]

theorem publishedFor_burst_keystrokes :
    Reached checker typing ∧ typing.settings.analyzeOnChange = true ∧ 0 < typing.delay ∧
      Burst checker typing "a" keystrokes "[]" (1 / 4) ∧
      ((fresh ℚ).validate checker "a" "[]" true).2.error = none ∧
      typing.delay ≤ 1 / 4 + 1 / 4 ∧
      publishedFor "a" (typing.runWith checker keystrokes).2 = [] ∧
      (∃ diagnostics,
        ((fresh ℚ).validate checker "a" "[]" true).2.published = [⟨"a", diagnostics⟩] ∧
          publishedFor "a" (typing.runWith checker (keystrokes ++ [.advance (1 / 4)])).2 =
            [⟨"a", diagnostics⟩]) ∧
      ∀ w ∈ (typing.runWith checker (keystrokes ++ [.advance (1 / 4)])).1.sleepers,
        w.uri ≠ "a" := by
  have hreached : Reached checker typing := Reached.fresh.runWith _
  have hsettings : typing.settings = { analyzeOnChange := true } :=
    settings_runWith checker { fresh ℚ with settings := { analyzeOnChange := true } }
      [.changed "a" "[", .advance (1 / 4)] (by simp [Event.configures])
  have hdelay : typing.delay = 1 / 2 := by
    rw [delay, hsettings]
    exact exactly_half
  have hsame : ∀ events : List (Event ℚ), (∀ e ∈ events, e.configures = false) →
      (typing.runWith checker events).1.settings = typing.settings :=
    settings_runWith checker typing
  have hpause : Burst checker typing "a" _ _ _ :=
    (Burst.first printing).between (e := .advance (1 / 4)) (by simp [Event.uri?])
      (hsame _ (by simp [Event.configures])) (by rw [hdelay, Event.lapse]; norm_num)
  have hother := hpause.between (e := .opened "b" "[]") (by simp [Event.uri?])
    (hsame _ (by simp [Event.configures])) (by rw [hdelay, Event.lapse, Event.lapse]; norm_num)
  have hburst : Burst checker typing "a" keystrokes "[]" (1 / 4) := by
    have hlast := (hother.again "[]").between (e := .advance (1 / 4)) (by simp [Event.uri?])
      (hsame _ (by simp [Event.configures])) (by rw [hdelay, Event.lapse]; norm_num)
    rwa [Event.lapse, zero_add] at hlast
  obtain ⟨logs, hlogs⟩ := analyze_snd_of_findings findings_empty (fresh ℚ) "a"
  have hanswer : ((fresh ℚ).validate checker "a" "[]" true).2.error = none :=
    (congrArg Reply.error hlogs).trans rfl
  have hpositive : 0 < typing.delay := by
    rw [delay, hsettings]
    exact (ExactTime.ofSeconds_pos_iff _ rfl).2 (by decide)
  have hover : typing.delay ≤ 1 / 4 + 1 / 4 := by
    rw [hdelay]
    norm_num
  have hon : typing.settings.analyzeOnChange = true := by rw [hsettings]
  exact ⟨hreached, hon, hpositive, hburst, hanswer, hover,
    publishedFor_burst hreached hon hpositive hburst hanswer hover⟩

end Session

end DefiniteAssignment.Editor
