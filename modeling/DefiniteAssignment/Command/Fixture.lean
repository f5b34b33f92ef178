import DefiniteAssignment.Command.Check

/-! Fixtures: program files that say which problems they are expected to have,
as pairs of a code and a symbol. -/
namespace DefiniteAssignment.Command

def elements? : Json → Option (List Json)
  | .arr items => some items
  | .str s => some (s.toList.map fun c => .str (String.singleton c))
  | .obj members => some (members.map fun m => .str m.1)
  | .null | .bool _ | .int _ | .real _ => none

def pair (v : Json) : Except ExpectError (String × String) :=
  match elements? v with
  | none => .error (.notPair v.kind)
  | some [code, symbol] => .ok (code.display, symbol.display)
  | some [] => .error (.tooFew 0)
  | some [_] => .error (.tooFew 1)
  | some (_ :: _ :: _ :: _) => .error .tooMany

def expectations : Json → Except ExpectError (Option (List (String × String)))
  | .obj members =>
    match (Json.find "expect" members).getD .null with
    | .null => .ok none
    | v =>
      match elements? v with
      | none => .error (.notIterable v.kind)
      | some items => some <$> items.mapM pair
  | v => .error (.notObject v.kind)

structure Fixture where
  program : Program
  expected : Option (List (String × String))

/-- Expectations are read before the program. -/
def readFixture (lookup : Lookup) (path : String) : Except Error Fixture := do
  let v ← (Json.parse (← readText lookup path)).mapError .read
  let expected ← (expectations v).mapError .expect
  let program ← (Program.ofJson v).mapError fun e => .read (.load e)
  return { program, expected }

def pairsText (pairs : List (String × String)) : String :=
  "[" ++ ", ".intercalate (pairs.map fun (code, symbol) =>
    "(" ++ Text.quoted code ++ ", " ++ Text.quoted symbol ++ ")") ++ "]"

namespace Fixture

def complaint (f : Fixture) (problems : List Problem) : Option String :=
  let actual := problems.map fun p => (p.code.text, p.symbol)
  match f.expected with
  | none => some "ASSERT FAIL: fixture has no \"expect\" list"
  | some expected =>
    if actual = expected then none
    else some s!"ASSERT FAIL: expected {pairsText expected}, got {pairsText actual}"

def verdict (f : Fixture) (problems : List Problem) : List String :=
  f.program.text :: problemLines "-" problems ++ (f.complaint problems).toList ++
    [if (f.complaint problems).isNone then "ASSERTIONS: PASS" else "ASSERTIONS: FAIL", ""]

end Fixture

/-- Runs one fixture; the result says whether it passes. The program is checked
twice, with the same problems both times. -/
def runFixture (lookup : Lookup) (verbose : Bool) (path : String) : Console Bool :=
  let title := Console.line s!"===== Analysis for {path}"
  match lookup.has path, readFixture lookup path with
  | .error e, _ => .fail title (.file e)
  | .ok false, _ => .done (title ++ Console.paragraph ["ERROR: file not found", ""]) false
  | .ok true, .error e =>
    if e.isMalformed then
      .done (title ++ Console.paragraph [s!"Error while loading {path}: {e.message}", ""]) false
    else .fail title e
  | .ok true, .ok f =>
    let log := debugLog verbose f.program
    match f.program.problems with
    | .error failure => (Console.fail title (.analysis failure)).after "" log
    | .ok problems =>
      (Console.done (title ++ Console.paragraph (f.verdict problems))
        (f.complaint problems).isNone).after "" (log ++ log)

def runEach (lookup : Lookup) (verbose : Bool) : List String → Console (Nat × Nat)
  | [] => .done "" (0, 0)
  | path :: rest =>
    (runFixture lookup verbose path).andThen fun passed =>
      (runEach lookup verbose rest).andThen fun (total, ok) =>
        .done "" (total + 1, if passed then ok + 1 else ok)

/-- Runs fixtures in the order of their paths; the result is zero when all pass. -/
def runSuite (lookup : Lookup) (verbose : Bool) (paths : List String) : Console Nat :=
  (runEach lookup verbose (paths.mergeSort fun a b => a ≤ b)).andThen fun (total, ok) =>
    .done (Console.line s!"===== Summary: {ok}/{total} tests passed =====")
      (if ok = total then 0 else 1)

def suiteCommand (lookup : Lookup) (paths : List String) : Console Nat :=
  let c := runSuite lookup false paths
  match c.result with
  | .ok code => { c with result := .error (.exit code) }
  | .error _ => c

end DefiniteAssignment.Command
