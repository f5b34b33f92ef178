import DefiniteAssignment.Analysis.Report
import DefiniteAssignment.Command.Console
import DefiniteAssignment.Command.Options
import DefiniteAssignment.Program.Benchmark

/-! Checking a file, and timing the checker. -/
namespace DefiniteAssignment.Command

/-- Measured times, in microseconds: of the phases of the check of a file, and
of the checks of generated programs one after the other. -/
structure Times where
  read : Nat
  load : Nat
  analyze : Nat
  generated : Nat → Nat

def padText (width : Nat) (text : String) : String :=
  String.ofList (Decimal.padLeft width ' ' text.toList)

/-- Milliseconds with one decimal place, a half of which goes to the even side. -/
def milliseconds (width microseconds : Nat) : String :=
  let tenths := microseconds / 100
  let left := microseconds % 100
  let tenths := if 50 < left || (left = 50 && tenths % 2 = 1) then tenths + 1 else tenths
  padText width s!"{tenths / 10}.{tenths % 10}" ++ "ms"

def problemLines (bullet : String) (problems : List Problem) : List String :=
  if problems.isEmpty then ["No problems."]
  else "Problems:" :: problems.map fun p => bullet ++ " " ++ p.line

def timing (t : Times) (scopes problems : Nat) : List String :=
  ["", s!"--- Benchmark ({scopes} scopes, {problems} problems) ---",
    "  Read:      " ++ milliseconds 7 t.read, "  Load:      " ++ milliseconds 7 t.load,
    "  Analyze:   " ++ milliseconds 7 t.analyze,
    "  Total:     " ++ milliseconds 7 (t.read + t.load + t.analyze)]

def report (o : Options) (t : Times) (path : String) (p : Program) (a : Analysis) : String :=
  let problems := a.problems.toList
  let findings :=
    if o.json then [(Json.arr (problems.map Problem.toJson)).render .standard]
    else
      (if o.print then [s!"=== Program {path} ===", p.text, ""] else []) ++
        s!"=== Analysis for {path} ===" :: problemLines "  -" problems
  Console.paragraph
    (findings ++ if o.benchmark then timing t a.scopes.size problems.length else [])

def checkFile (lookup : Lookup) (o : Options) (t : Times) (path : String) : Console Nat :=
  match lookup.has path, readProgram lookup path with
  | .error e, _ => .fail "" (.file e)
  | .ok false, _ => .done (Console.line s!"ERROR: file not found: {path}") 1
  | .ok true, .error e =>
    if e.isMalformed then .done (Console.line s!"Error while loading {path}: {e.message}") 1
    else .fail "" e
  | .ok true, .ok p =>
    let log := debugLog o.verbose p
    match ({} : Analysis).check p.body with
    | (_, some failure) => (Console.fail "" (.analysis failure)).after "" log
    | (a, none) =>
      let info :=
        if o.verbose then
          Console.line
            s!"INFO defassign: Analyzed {a.count} of {a.scopes.size} scopes in {path}"
        else ""
      (Console.done (report o t path p a) (if a.problems.toList.isEmpty then 0 else 1)).after ""
        (log ++ info)

def timeOne (o : Options) (n : Int) (elapsed : Nat) : Console Bool :=
  let p := Program.benchmark n.toNat
  let log := debugLog o.verbose p
  match p.problems with
  | .error failure => (Console.fail "" (.analysis failure)).after "" log
  | .ok problems =>
    let line := s!"  {padText 6 (Json.intText n)} functions: {milliseconds 9 elapsed}" ++
      s!"  ({problems.length} problems)"
    (Console.done (Console.line line) problems.isEmpty).after "" log

def timeAll (o : Options) (t : Times) : (i : Nat) → List Int → Console Bool
  | _, [] => .done "" true
  | i, n :: rest =>
    (timeOne o n (t.generated i)).andThen fun clean =>
      (timeAll o t (i + 1) rest).andThen fun others => .done "" (clean && others)

def timeGenerated (o : Options) (t : Times) : Console Nat :=
  ((timeAll o t 0 o.sizes).andThen fun clean => .done "" (if clean then 0 else 1)).after
    (Console.line "--- Benchmark ---") ""

end DefiniteAssignment.Command
