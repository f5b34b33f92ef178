import DefiniteAssignment.Editor.Diagnostic
import DefiniteAssignment.Editor.Settings
import DefiniteAssignment.Program.Data

/-! An editing session. Documents are validated when they are opened or saved,
and some quiet time after they are changed; the result for a text is kept with a
digest of the text, and used again while the digest stays the same. Time is any
scale on which instants can be compared and delays added; on one of them there may be
times that are no numbers, and these compare with none. -/
namespace DefiniteAssignment.Editor

class TimeScale (τ : Type) where
  start : τ
  add : τ → τ → τ
  le : τ → τ → Bool
  ofSeconds : Float → τ

instance : TimeScale Float := ⟨0, (· + ·), fun a b => a ≤ b, id⟩

def TimeScale.isNumber {τ : Type} [TimeScale τ] (t : τ) : Bool := le t t

class Digest (κ : Type) where
  ofText : String → κ

/-- A digest that tells texts apart. -/
class LawfulDigest (κ : Type) [Digest κ] : Prop where
  injective : ∀ {s t : String}, (Digest.ofText s : κ) = Digest.ofText t → s = t

instance : Digest String := ⟨id⟩

instance : LawfulDigest String := ⟨id⟩

structure Result (κ : Type) where
  digest : κ
  problems : List Problem
deriving DecidableEq

structure Sleeper (τ : Type) where
  task : Nat
  uri : String
  due : τ

structure Session (τ : Type) (κ : Type := String) where
  settings : Settings := {}
  documents : Table String := {}
  cache : Table (Result κ) := {}
  /-- The last task of each document, unless it ended well. -/
  tasks : Table Nat := {}
  sleepers : List (Sleeper τ) := []
  nextTask : Nat := 0
  now : τ

inductive Level where
  | info
  | error
deriving DecidableEq, Repr

structure Log where
  level : Level
  text : String
deriving DecidableEq, Repr

inductive Error where
  | document (error : ReadError)
  | setting (error : SettingError)

def Error.message : Error → String
  | document error => error.message
  | setting error => error.message

/-- What is read for a document that is not open: a text, or an error. -/
class Disk where
  read : String → Except Error String

instance : Disk := ⟨fun _ => .ok ""⟩

structure Publication where
  uri : String
  diagnostics : List Diagnostic
deriving DecidableEq

structure Reply where
  published : List Publication := []
  logs : List Log := []
  taskErrors : List Error := []
  error : Option Error := none

namespace Reply

def publish (uri : String) (diagnostics : List Diagnostic) (logs : List Log) : Reply :=
  { published := [⟨uri, diagnostics⟩], logs }

/-- The error of a task is its own and stops nothing else. -/
def asTask (r : Reply) : Reply := { r with taskErrors := r.error.toList, error := none }

def append (a b : Reply) : Reply where
  published := a.published ++ b.published
  logs := a.logs ++ b.logs
  taskErrors := a.taskErrors ++ b.taskErrors
  error := a.error <|> b.error

end Reply

inductive Event (τ : Type) where
  | started (options : Json)
  | configure (settings : Json)
  | opened (uri text : String)
  | changed (uri text : String)
  | saved (uri : String)
  | closed (uri : String)
  | validate (uri text : String) (force : Bool)
  | advance (delay : τ)

abbrev Checker := Program → Except String (List Problem)

def checker : Checker := fun p => p.problems.mapError Failure.message

theorem checker_eq_ok_iff {p : Program} {problems : List Problem} :
    checker p = .ok problems ↔ p.problems = .ok problems := by
  unfold checker
  cases p.problems with
  | error failure =>
    change Except.error failure.message = Except.ok problems ↔ _
    simp
  | ok found =>
    change Except.ok found = Except.ok problems ↔ _
    simp

namespace Session

variable {τ κ : Type}

def fresh (τ : Type) (κ : Type := String) [TimeScale τ] : Session τ κ := { now := TimeScale.start }

def document [Disk] (s : Session τ κ) (uri : String) : Except Error String :=
  match s.documents.get? uri with
  | some text => .ok text
  | none => Disk.read uri

def cancel (s : Session τ κ) (uri : String) : Session τ κ :=
  match s.tasks.get? uri with
  | none => s
  | some task => { s with sleepers := s.sleepers.filter fun w => w.task ≠ task }

def applyOptions (s : Session τ κ) (options : List (String × Json)) (logs : List Log) :
    Session τ κ × Reply :=
  let (settings, error) := s.settings.apply options
  ({ s with settings }, { logs, error := error.map .setting })

def start (s : Session τ κ) (options : Json) : Session τ κ × Reply :=
  let logs : List Log := [⟨.info, "Server initialized"⟩]
  match options with
  | .obj members => s.applyOptions members logs
  | _ => (s, { logs })

def configure (s : Session τ κ) (settings : Json) : Session τ κ × Reply :=
  match settings with
  | .obj members =>
    match Json.find Diagnostic.origin members with
    | some (.obj options) => s.applyOptions options []
    | _ => (s, {})
  | _ => (s, {})

def closeDocument (s : Session τ κ) (uri : String) : Session τ κ × Reply :=
  let s := s.cancel uri
  ({ s with
      documents := s.documents.erase uri
      cache := s.cache.erase uri
      tasks := s.tasks.erase uri }, Reply.publish uri [] [])

def delay [TimeScale τ] (s : Session τ κ) : τ := TimeScale.ofSeconds s.settings.debounce

def deadline [TimeScale τ] (s : Session τ κ) : τ := TimeScale.add s.now s.delay

/-- Whether a task that starts now has nothing to wait for: there is no delay, or its time
is no number and it stands behind no task whose time is one. -/
def unhindered [TimeScale τ] (s : Session τ κ) : Bool :=
  TimeScale.le (s.delay : τ) TimeScale.start ||
    !TimeScale.isNumber s.deadline && s.sleepers.all fun w => !TimeScale.isNumber w.due

/-- The tasks that go on at an instant: those that are due, in the order of their time and
of their creation at the same time, and then those whose time is no number if they stand
behind no other any more. -/
def due [TimeScale τ] (s : Session τ κ) (now : τ) : List (Sleeper τ) :=
  let (ready, later) := s.sleepers.partition fun w => TimeScale.le w.due now
  ready.mergeSort (fun v w => TimeScale.le v.due w.due) ++
    if later.any fun w => TimeScale.isNumber w.due then [] else later

def diagnose (text : String) (problems : List Problem) : List Diagnostic :=
  problems.map (Diagnostic.ofProblem text)

def analyze [Digest κ] (check : Checker) (s : Session τ κ) (uri text : String) :
    Session τ κ × Reply :=
  let begun : Log := ⟨.info, s!"Analyzing {uri}"⟩
  match Program.parse text with
  | .error e =>
    if e.isMalformed then
      (s, Reply.publish uri [.ofMessage s!"Invalid program: {e.message}"]
        [begun, ⟨.error, s!"Loading failed for {uri}: {e.message}"⟩])
    else (s, { logs := [begun], error := some (.document e) })
  | .ok program =>
    match check program with
    | .error message =>
      (s, Reply.publish uri [.ofMessage s!"Internal error: {message}"]
        [begun, ⟨.error, s!"Analysis failed for {uri}: {message}"⟩])
    | .ok problems =>
      ({ s with cache := s.cache.insert uri ⟨Digest.ofText text, problems⟩ },
        Reply.publish uri (diagnose text problems)
          [begun, ⟨.info,
            s!"Analysis complete: {uri} (0.000s, {problems.length} problems)"⟩])

variable [DecidableEq κ] [Digest κ]

def cached? (s : Session τ κ) (uri text : String) : Option (List Problem) :=
  (s.cache.get? uri).bind fun r =>
    if r.digest = Digest.ofText text then some r.problems else none

def validate (check : Checker) (s : Session τ κ) (uri text : String) (force : Bool) :
    Session τ κ × Reply :=
  match force, s.cached? uri text with
  | false, some problems =>
    (s, Reply.publish uri (diagnose text problems)
      [⟨.info, s!"Analyzing {uri}"⟩, ⟨.info, s!"Cache hit for {uri} (source unchanged)"⟩])
  | _, _ => s.analyze check uri text

def openDocument (check : Checker) (s : Session τ κ) (uri text : String) : Session τ κ × Reply :=
  { s with documents := s.documents.insert uri text }.validate check uri text false

variable [Disk]

/-- Saves and tasks take the text that a document has at the time. -/
def saveDocument (check : Checker) (s : Session τ κ) (uri : String) : Session τ κ × Reply :=
  match s.document uri with
  | .ok text => s.validate check uri text false
  | .error e => (s, { error := some e })

/-- The rest of a task after its wait. One that fails is still remembered. -/
def wake (check : Checker) (s : Session τ κ) (uri : String) : Session τ κ × Reply :=
  let (s, reply) := s.saveDocument check uri
  match reply.error with
  | none => ({ s with tasks := s.tasks.erase uri }, reply)
  | some _ => (s, reply.asTask)

/-- Starts a task for a document. One with nothing to wait for runs as the last part of the
event that starts it, so no other event comes between the two and stops it. -/
def schedule [TimeScale τ] (check : Checker) (s : Session τ κ) (uri : String) :
    Session τ κ × Reply :=
  let task := s.nextTask
  let enrolled := { s with tasks := s.tasks.insert uri task, nextTask := task + 1 }
  if s.unhindered then enrolled.wake check uri
  else ({ enrolled with sleepers := s.sleepers ++ [⟨task, uri, s.deadline⟩] }, {})

def resume (check : Checker) (s : Session τ κ) (w : Sleeper τ) : Session τ κ × Reply :=
  { s with sleepers := s.sleepers.filter fun v => v.task ≠ w.task }.wake check w.uri

def resumeAll (check : Checker) (s : Session τ κ) : List (Sleeper τ) → Session τ κ × Reply
  | [] => (s, {})
  | w :: rest =>
    let (s, first) := s.resume check w
    let (s, others) := s.resumeAll check rest
    (s, first.append others)

def advance [TimeScale τ] (check : Checker) (s : Session τ κ) (delay : τ) : Session τ κ × Reply :=
  let now := TimeScale.add s.now delay
  { s with now }.resumeAll check (s.due now)

def changeDocument [TimeScale τ] (check : Checker) (s : Session τ κ) (uri text : String) :
    Session τ κ × Reply :=
  let s := { s with documents := s.documents.insert uri text }
  if s.settings.analyzeOnChange then (s.cancel uri).schedule check uri else (s, {})

def handle [TimeScale τ] (check : Checker) (s : Session τ κ) : Event τ → Session τ κ × Reply
  | .started options => s.start options
  | .configure settings => s.configure settings
  | .opened uri text => s.openDocument check uri text
  | .changed uri text => s.changeDocument check uri text
  | .saved uri => s.saveDocument check uri
  | .closed uri => s.closeDocument uri
  | .validate uri text force => s.validate check uri text force
  | .advance delay => s.advance check delay

end Session

end DefiniteAssignment.Editor
