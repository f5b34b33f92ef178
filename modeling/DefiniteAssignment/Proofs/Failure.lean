import DefiniteAssignment.Proofs.Timeliness

/-! Failures. A validation answers every text but one: a text in which the first thing
that cannot be read is a statement with a list or an object for its kind. And an event
that fails leaves the session as it was, except that of the options it brings the one
that is read first has been taken over. -/
namespace DefiniteAssignment

theorem bind_eq_error_iff {ε α β : Type} {x : Except ε α} {f : α → Except ε β} {e : ε} :
    x >>= f = .error e ↔ x = .error e ∨ ∃ a, x = .ok a ∧ f a = .error e := by
  cases x <;> simp [bind, Except.bind]

theorem map_eq_error_iff {ε α β : Type} {x : Except ε α} {f : α → β} {e : ε} :
    f <$> x = .error e ↔ x = .error e := by
  cases x <;> simp [Functor.map, Except.map]

def Json.isCompound : Json → Bool
  | arr _ | obj _ => true
  | null | bool _ | int _ | real _ | str _ => false

namespace Stmt

variable {kind : String}

/-- The statements can be read in order, those of bodies included, up to one whose kind
is a list or an object. -/
inductive Stumbles : List Json → Prop
  | kind {members : List (String × Json)} {found : Json} {rest : List Json}
      (hfound : Json.find "type" members = some found) (hcompound : found.isCompound = true) :
      Stumbles (.obj members :: rest)
  | body {members : List (String × Json)} {name : String} {items rest : List Json}
      (hkind : loadKind members = .ok .function) (hname : loadName .function members = .ok name)
      (hbody : Json.find "body" members = some (.arr items)) (h : Stumbles items) :
      Stumbles (.obj members :: rest)
  | later {v : Json} {s : Stmt} {rest : List Json} (hv : ofJson v = .ok s) (h : Stumbles rest) :
      Stumbles (v :: rest)

theorem loadKind_eq_unusableKind_iff {members : List (String × Json)} :
    (∃ kind, loadKind members = .error (.unusableKind kind)) ↔
      ∃ found, Json.find "type" members = some found ∧ found.isCompound = true := by
  unfold loadKind
  cases hfound : Json.find "type" members with
  | none => simp
  | some found =>
    cases found with
    | str text =>
      simp only [Option.getD_some]
      cases Kind.ofText? text <;> simp [Json.isCompound]
    | _ => simp [Json.isCompound]

theorem loadName_ne_unusableKind (k : Kind) (members : List (String × Json)) :
    loadName k members ≠ .error (.unusableKind kind) := by
  unfold loadName
  split
  · split <;> simp
  · simp

theorem loadConditional_ne_unusableKind (members : List (String × Json)) :
    loadConditional members ≠ .error (.unusableKind kind) := by
  unfold loadConditional
  split <;> simp

theorem bodyMember_of_find {members : List (String × Json)} {v : Json}
    (h : Json.find "body" members = some v) : bodyMember members = body v := by
  induction members with
  | nil => cases h
  | cons member rest ih =>
    obtain ⟨key, w⟩ := member
    simp only [Json.find] at h
    simp only [bodyMember]
    split at h
    · rename_i hkey
      rw [if_pos hkey, Option.some.inj h]
    · rename_i hkey
      rw [if_neg hkey, ih h]

mutual

theorem stumbles_of_ofJson {rest : List Json} :
    (v : Json) → ofJson v = .error (.unusableKind kind) → Stumbles (v :: rest)
  | .obj members, h => by
    rw [ofJson] at h
    -- The kind is read first, then the name, then what only this kind has.
    obtain hkind | ⟨k, hkind, h⟩ := bind_eq_error_iff.1 h
    · obtain ⟨found, hfound, hcompound⟩ := loadKind_eq_unusableKind_iff.1 ⟨kind, hkind⟩
      exact .kind hfound hcompound
    obtain hname | ⟨name, hname, h⟩ := bind_eq_error_iff.1 h
    · exact absurd hname (loadName_ne_unusableKind k members)
    cases k with
    | function =>
      obtain hbody | ⟨body, _, h⟩ := bind_eq_error_iff.1 h
      · obtain ⟨items, hitems, hstumbles⟩ := stumbles_of_bodyMember members hbody
        exact .body hkind hname hitems hstumbles
      · cases h
    | call =>
      obtain hconditional | ⟨conditional, _, h⟩ := bind_eq_error_iff.1 h
      · exact absurd hconditional (loadConditional_ne_unusableKind members)
      · cases h
    | declare | assign | print => cases h
  | .null, h | .bool _, h | .int _, h | .real _, h | .str _, h | .arr _, h => by
    simp [ofJson] at h

theorem stumbles_of_bodyMember :
    (members : List (String × Json)) → bodyMember members = .error (.unusableKind kind) →
      ∃ items, Json.find "body" members = some (.arr items) ∧ Stumbles items
  | [], h => by cases h
  | (key, v) :: rest, h => by
    simp only [bodyMember] at h
    simp only [Json.find]
    split at h
    · rename_i hkey
      obtain ⟨items, rfl, hstumbles⟩ := stumbles_of_body v h
      exact ⟨items, by rw [if_pos hkey], hstumbles⟩
    · rename_i hkey
      rw [if_neg hkey]
      exact stumbles_of_bodyMember rest h

theorem stumbles_of_body :
    (v : Json) → body v = .error (.unusableKind kind) → ∃ items, v = .arr items ∧ Stumbles items
  | .arr items, h => ⟨items, rfl, stumbles_of_listOfJson items h⟩
  | .null, h | .bool _, h | .int _, h | .real _, h | .str _, h | .obj _, h => by
    simp [body] at h

theorem stumbles_of_listOfJson :
    (items : List Json) → listOfJson items = .error (.unusableKind kind) → Stumbles items
  | [], h => by cases h
  | v :: rest, h => by
    rw [listOfJson] at h
    obtain hv | ⟨s, hv, h⟩ := bind_eq_error_iff.1 h
    · exact stumbles_of_ofJson v hv
    obtain hrest | ⟨l, _, h⟩ := bind_eq_error_iff.1 h
    · exact .later hv (stumbles_of_listOfJson rest hrest)
    · cases h

end

theorem Stumbles.listOfJson {items : List Json} (h : Stumbles items) :
    ∃ kind, listOfJson items = .error (.unusableKind kind) := by
  induction h with
  | kind hfound hcompound =>
    obtain ⟨kind, hkind⟩ := loadKind_eq_unusableKind_iff.2 ⟨_, hfound, hcompound⟩
    exact ⟨kind, by simp [Stmt.listOfJson, ofJson, hkind, bind, Except.bind]⟩
  | body hkind hname hbody h ih =>
    obtain ⟨kind, hitems⟩ := ih
    have hmember : bodyMember _ = .error (.unusableKind kind) :=
      (bodyMember_of_find hbody).trans hitems
    exact ⟨kind, by simp [Stmt.listOfJson, ofJson, hkind, hname, hmember, bind, Except.bind]⟩
  | later hv h ih =>
    obtain ⟨kind, hrest⟩ := ih
    exact ⟨kind, by simp [Stmt.listOfJson, hv, hrest, bind, Except.bind]⟩

end Stmt

namespace Program

inductive Stumbles : Json → Prop
  | list {items : List Json} (h : Stmt.Stumbles items) : Stumbles (.arr items)
  | object {members : List (String × Json)} {items : List Json}
      (hkind : Json.find "type" members = some (.str "Program"))
      (hbody : Json.find "body" members = some (.arr items)) (h : Stmt.Stumbles items) :
      Stumbles (.obj members)

theorem ofJson_eq_unusableKind_iff {v : Json} :
    (∃ kind, ofJson v = .error (.unusableKind kind)) ↔ Stumbles v := by
  constructor
  · rintro ⟨kind, h⟩
    unfold ofJson at h
    split at h
    · rename_i items
      exact .list (Stmt.stumbles_of_listOfJson items (map_eq_error_iff.1 h))
    · rename_i members
      split at h
      · rename_i hkind
        obtain ⟨items, hitems, hstumbles⟩ :=
          Stmt.stumbles_of_bodyMember members (map_eq_error_iff.1 h)
        refine .object ?_ hitems hstumbles
        cases hfound : Json.find "type" members with
        | none => simp [hfound] at hkind
        | some found => simpa [hfound] using hkind
      · simp at h
    · simp at h
  · rintro (h | ⟨hkind, hbody, h⟩)
    · obtain ⟨kind, hitems⟩ := h.listOfJson
      exact ⟨kind, map_eq_error_iff.2 hitems⟩
    · obtain ⟨kind, hitems⟩ := h.listOfJson
      have hmember : Stmt.bodyMember _ = .error (.unusableKind kind) :=
        (Stmt.bodyMember_of_find hbody).trans hitems
      refine ⟨kind, ?_⟩
      simp only [ofJson, hkind, Option.getD_some]
      exact map_eq_error_iff.2 hmember

def Stuck (text : String) : Prop :=
  ∃ v, Json.parse text = .ok v ∧ Stumbles v

theorem parse_eq_unusableKind_iff {text : String} :
    (∃ kind, parse text = .error (.load (.unusableKind kind))) ↔ Stuck text := by
  unfold parse Stuck
  cases hjson : Json.parse text with
  | error e =>
    have he : ∃ fault, e = .json text fault := by
      unfold Json.parse at hjson
      split at hjson
      · cases hjson
      · cases hjson
        exact ⟨_, rfl⟩
    obtain ⟨fault, rfl⟩ := he
    simp [bind, Except.bind]
  | ok v =>
    simp only [Except.ok.injEq, exists_eq_left', ← ofJson_eq_unusableKind_iff]
    cases hload : ofJson v <;> simp [hload, bind, Except.bind]

theorem stuck_iff {text : String} :
    Stuck text ↔ ∃ e, parse text = .error e ∧ e.isMalformed = false := by
  rw [← parse_eq_unusableKind_iff]
  constructor
  · rintro ⟨kind, h⟩
    exact ⟨_, h, rfl⟩
  · rintro ⟨e, h, he⟩
    obtain ⟨text, fault⟩ | ⟨error⟩ := e
    · cases he
    · cases error <;> first | exact ⟨_, h⟩ | cases he

instance (text : String) : Decidable (Stuck text) :=
  match h : parse text with
  | .ok p => isFalse (by simp [stuck_iff, h])
  | .error e => decidable_of_iff (e.isMalformed = false) (by simp [stuck_iff, h])

end Program

namespace Editor

def Reply.Answers (r : Reply) (uri : String) : Prop :=
  r.error = none ∧ ∃ diagnostics, r.published = [⟨uri, diagnostics⟩]

theorem Settings.setAnalyzeOnChange_eq (s : Settings) (options : List (String × Json)) :
    s.setAnalyzeOnChange options =
      { s with
        analyzeOnChange :=
          ((Json.find "analyzeOnChange" options).map Json.isTruthy).getD s.analyzeOnChange } := by
  unfold setAnalyzeOnChange
  cases Json.find "analyzeOnChange" options <;> rfl

theorem Settings.apply_of_error {s : Settings} {options : List (String × Json)} {e : SettingError}
    (h : (s.apply options).2 = some e) : (s.apply options).1 = s.setAnalyzeOnChange options := by
  unfold apply at h ⊢
  dsimp only at h ⊢
  split at h
  · cases h
  · split at h
    · cases h
    · rfl

def Event.option? {τ : Type} (key : String) : Event τ → Option Json
  | started (.obj options) => Json.find key options
  | configure (.obj members) =>
    match Json.find Diagnostic.origin members with
    | some (.obj options) => Json.find key options
    | _ => none
  | _ => none

namespace Session

variable {τ κ : Type} {check : Checker} {s : Session τ κ} {uri text : String} {error : Error}

/-- Nothing was published, and the session is as it was, but for the setting for which
there may have been a new value. -/
structure Unharmed (s : Session τ κ) (value : Option Json) (r : Session τ κ × Reply) : Prop where
  published : r.2.published = []
  cache : r.1.cache = s.cache
  sleepers : r.1.sleepers = s.sleepers
  tasks : r.1.tasks = s.tasks
  settings : r.1.settings =
    { s.settings with
      analyzeOnChange := (value.map Json.isTruthy).getD s.settings.analyzeOnChange }

theorem applyOptions_of_error {options : List (String × Json)} {logs : List Log}
    (h : (s.applyOptions options logs).2.error = some error) :
    Unharmed s (Json.find "analyzeOnChange" options) (s.applyOptions options logs) := by
  obtain ⟨e, he, _⟩ := Option.map_eq_some_iff.1 h
  refine ⟨rfl, rfl, rfl, rfl, ?_⟩
  rw [← Settings.setAnalyzeOnChange_eq, ← Settings.apply_of_error he]
  rfl

section Analysis

variable [Digest κ]

theorem exists_analyze_eq_of_stuck (check : Checker) (h : Program.Stuck text) (s : Session τ κ)
    (uri : String) :
    ∃ e logs, s.analyze check uri text = (s, { logs, error := some (.document e) }) := by
  obtain ⟨e, hparse, hmalformed⟩ := Program.stuck_iff.1 h
  refine ⟨e, [⟨.info, s!"Analyzing {uri}"⟩], ?_⟩
  simp [analyze, hparse, hmalformed]

theorem answers_analyze_of_not_stuck (h : ¬ Program.Stuck text) (s : Session τ κ) (uri : String) :
    (s.analyze check uri text).2.Answers uri := by
  unfold analyze
  cases hparse : Program.parse text with
  | error e =>
    have hmalformed : e.isMalformed = true := by
      by_contra hne
      exact h (Program.stuck_iff.2 ⟨e, hparse, Bool.not_eq_true _ ▸ hne⟩)
    simp only [hmalformed]
    exact ⟨rfl, _, rfl⟩
  | ok program =>
    dsimp only
    split <;> exact ⟨rfl, _, rfl⟩

theorem answers_analyze_iff (check : Checker) (s : Session τ κ) (uri text : String) :
    (s.analyze check uri text).2.Answers uri ↔ ¬ Program.Stuck text := by
  refine ⟨fun hanswers hstuck => ?_, fun h => answers_analyze_of_not_stuck h s uri⟩
  obtain ⟨e, logs, heq⟩ := exists_analyze_eq_of_stuck check hstuck s uri
  rw [heq] at hanswers
  cases hanswers.1

theorem analyze_of_error (h : (s.analyze check uri text).2.error = some error) :
    (s.analyze check uri text).1 = s ∧ (s.analyze check uri text).2.published = [] := by
  by_cases hstuck : Program.Stuck text
  · obtain ⟨e, logs, heq⟩ := exists_analyze_eq_of_stuck check hstuck s uri
    rw [heq]
    exact ⟨rfl, rfl⟩
  · rw [(answers_analyze_of_not_stuck hstuck s uri).1] at h
    cases h

end Analysis

variable [DecidableEq κ] [Digest κ]

/-- A validation is answered exactly if its text is not stuck, and these are the texts
that can be read or are found to be malformed. -/
theorem validate_answers_iff [LawfulDigest κ] [Disk] [TimeScale τ] (h : Reached check s) (uri text : String)
    (force : Bool) :
    ((s.validate check uri text force).2.Answers uri ↔ ¬ Program.Stuck text) ∧
      ((∃ p, Program.parse text = .ok p) ∨
          (∃ e, Program.parse text = .error e ∧ e.isMalformed = true) ↔
        ¬ Program.Stuck text) := by
  constructor
  · obtain ⟨_, hpublished, herror⟩ := h.faithful.validate_false uri text
    cases force with
    | true => exact answers_analyze_iff check s uri text
    | false =>
      rw [← answers_analyze_iff check s uri text, Reply.Answers, Reply.Answers, hpublished, herror]
  · rw [Program.stuck_iff]
    cases hparse : Program.parse text with
    | ok p => simp
    | error e => simp

theorem validate_answers_iff_edited : Reached checker edited ∧ ¬ Program.Stuck "[" ∧
    (edited.validate checker "a" "[" false).2.Answers "a" := by
  have hstuck : ¬ Program.Stuck "[" := by decide +kernel
  have hreached := attended_edited.reached
  exact ⟨hreached, hstuck, (validate_answers_iff hreached "a" "[" false).1.2 hstuck⟩

def listed : String := "[\x7b\"type\":[]\x7d]"

theorem stuck_listed : Program.Stuck listed := by decide +kernel

theorem unanswered_listed :
    ¬ ((fresh Float).validate checker "a" listed false).2.Answers "a" ∧
      ¬ ((∃ p, Program.parse listed = .ok p) ∨
        ∃ e, Program.parse listed = .error e ∧ e.isMalformed = true) := by
  constructor
  · have heq : (fresh Float).validate checker "a" listed false =
        (fresh Float).analyze checker "a" listed := rfl
    rw [heq, answers_analyze_iff]
    exact not_not_intro stuck_listed
  · obtain ⟨e, hparse, hmalformed⟩ := Program.stuck_iff.1 stuck_listed
    simp [hparse, hmalformed]

theorem validate_of_error {force : Bool}
    (h : (s.validate check uri text force).2.error = some error) :
    (s.validate check uri text force).1 = s ∧
      (s.validate check uri text force).2.published = [] := by
  unfold validate at h ⊢
  split at h
  · cases h
  · exact analyze_of_error h

theorem unharmed_validate {force : Bool}
    (h : (s.validate check uri text force).2.error = some error) :
    Unharmed s none (s.validate check uri text force) := by
  obtain ⟨heq, hpublished⟩ := validate_of_error h
  exact ⟨hpublished, by rw [heq], by rw [heq], by rw [heq], by rw [heq]; rfl⟩

section Tasks

variable [Disk]

theorem unharmed_saveDocument (h : (s.saveDocument check uri).2.error = some error) :
    Unharmed s none (s.saveDocument check uri) := by
  unfold saveDocument at h ⊢
  split at h
  · exact unharmed_validate h
  · exact ⟨rfl, rfl, rfl, rfl, rfl⟩

theorem error_wake (s : Session τ κ) (uri : String) : (s.wake check uri).2.error = none := by
  unfold wake
  dsimp only
  split
  · assumption
  · rfl

theorem error_resumeAll (s : Session τ κ) (l : List (Sleeper τ)) :
    (s.resumeAll check l).2.error = none := by
  induction l generalizing s with
  | nil => rfl
  | cons w rest ih => simp [resumeAll, Reply.append, ih, resume, error_wake]

variable [TimeScale τ]

theorem error_changeDocument (s : Session τ κ) (uri text : String) :
    (s.changeDocument check uri text).2.error = none := by
  unfold changeDocument schedule
  dsimp only
  split
  · split
    · exact error_wake _ _
    · rfl
  · rfl

/-- Whatever fails, nothing is published, and the results, the tasks and the settings are
as they were, except for the analysis of changes where the event brings this option. -/
theorem handle_of_error {e : Event τ} (h : (s.handle check e).2.error = some error) :
    Unharmed s (e.option? "analyzeOnChange") (s.handle check e) := by
  cases e with
  | started options =>
    cases options with
    | obj members => exact applyOptions_of_error h
    | null | bool _ | int _ | real _ | str _ | arr _ => cases h
  | configure settings =>
    cases settings with
    | obj members =>
      cases hfound : Json.find Diagnostic.origin members with
      | none => simp [handle, configure, hfound] at h
      | some found =>
        cases found with
        | obj options =>
          simp only [handle, configure, Event.option?, hfound] at h ⊢
          exact applyOptions_of_error h
        | null | bool _ | int _ | real _ | str _ | arr _ =>
          simp [handle, configure, hfound] at h
    | null | bool _ | int _ | real _ | str _ | arr _ => cases h
  | opened uri text =>
    obtain ⟨hpublished, hcache, hsleepers, htasks, hsettings⟩ := unharmed_validate h
    exact ⟨hpublished, hcache, hsleepers, htasks, hsettings⟩
  | saved uri => exact unharmed_saveDocument h
  | validate uri text force => exact unharmed_validate h
  | changed uri text =>
    rw [handle, error_changeDocument] at h
    cases h
  | closed uri => cases h
  | advance delay =>
    rw [handle, advance, error_resumeAll] at h
    cases h

end Tasks

theorem handle_of_error_edited :
    ∃ error, (edited.handle checker (.opened "b" listed)).2.error = some error ∧
      edited.sleepers = [⟨0, "a", 0.5⟩] ∧
      Unharmed edited none (edited.handle checker (.opened "b" listed)) := by
  obtain ⟨e, logs, hanalyze⟩ := exists_analyze_eq_of_stuck checker stuck_listed
    { edited with documents := edited.documents.insert "b" listed } "b"
  have herror : (edited.handle checker (.opened "b" listed)).2.error = some (.document e) :=
    congrArg (fun r => r.2.error) hanalyze
  exact ⟨_, herror, rfl, handle_of_error herror⟩

def misconfigure : Event Float :=
  .configure (.obj [("defassign", .obj [("analyzeOnChange", .bool true),
    ("debounceSeconds", .str "soon")])])

/-- The event is refused, and yet the settings are not what they were. -/
theorem settings_misconfigure :
    ((fresh Float).handle checker misconfigure).2.error =
        some (.setting (.notNumeral "soon")) ∧
      ((fresh Float).handle checker misconfigure).1.settings ≠ (fresh Float).settings := by
  have hread : Decimal.readFloat? "soon" = none := rfl
  have heq : (fresh Float).handle checker misconfigure =
      ({ fresh Float with settings := { analyzeOnChange := true } },
        { error := some (.setting (.notNumeral "soon")) }) := by
    simp [handle, configure, misconfigure, Json.find, Diagnostic.origin, applyOptions,
      Settings.apply, Settings.setAnalyzeOnChange, Json.isTruthy, seconds, hread, fresh]
  rw [heq]
  refine ⟨rfl, fun hsettings => ?_⟩
  cases congrArg Settings.analyzeOnChange hsettings

end Session

end Editor

end DefiniteAssignment
