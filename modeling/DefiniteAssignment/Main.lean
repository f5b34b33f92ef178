import DefiniteAssignment.Command.Run

/-! The command line. Files are read and phases are timed here; what is said and
how the command ends is decided by `Command.run`. -/
namespace DefiniteAssignment.Command

def fixtureList : String := "tests/programs.txt"

def isNumbered (code n : UInt32) : Bool := code = n || code = 0 - n

def fetch (path : String) : IO (Except FileError (List UInt8)) := do
  let tidied := Path.tidy path
  if path.toList.contains (Char.ofNat 0) then return .error .nullCharacter
  try
    let bytes ← IO.FS.readBinFile tidied
    return .ok bytes.toList
  catch e =>
    match e with
    | .inappropriateType _ code _ =>
      if isNumbered code 20 then return .error (.notDirectory tidied)
      else return .error (.isDirectory tidied)
    | .invalidArgument _ code _ =>
      if isNumbered code 36 then return .error (.nameTooLong tidied)
      else return .error (.notFound tidied)
    | _ => return .error (.notFound tidied)

def fetched (files : List (String × Except FileError (List UInt8))) : Lookup := fun path =>
  ((files.find? fun file => file.1 = path).map Prod.snd).getD (.error (.notFound path))

def fetchAll (paths : List String) : IO Lookup := do
  return fetched (← paths.mapM fun path => do return (path, ← fetch path))

def timed {α : Type} (compute : Unit → IO α) : IO (Nat × α) := do
  let start ← IO.monoNanosNow
  let value ← compute ()
  let stop ← IO.monoNanosNow
  return ((stop - start) / 1000, value)

def timeProgram (p : Program) : IO Nat := do
  let (elapsed, _) ← timed fun _ => IO.lazyPure fun _ => p.problems.toOption.map List.length
  return elapsed

def timeFile (path : String) : IO Times := do
  let (read, lookup) ← timed fun _ => fetchAll [path]
  let (load, program) ← timed fun _ => IO.lazyPure fun _ => readProgram lookup path
  let analyze ← match program with
    | .ok p => timeProgram p
    | .error _ => pure 0
  return ⟨read, load, analyze, fun _ => 0⟩

def timeSizes (sizes : List Int) : IO Times := do
  let elapsed ← sizes.mapM fun n => timeProgram (Program.benchmark n.toNat)
  return ⟨0, 0, 0, fun i => elapsed[i]?.getD 0⟩

def measure (o : Options) : IO Times :=
  match o.benchmark, o.file with
  | true, some path => timeFile path
  | true, none => timeSizes o.sizes
  | false, _ => pure ⟨0, 0, 0, fun _ => 0⟩

def listedFixtures (o : Options) : IO (List String) := do
  if o.tests then
    let lookup ← fetchAll [fixtureList]
    match readText lookup fixtureList with
    | .ok text =>
      return ((Text.lines text.toList).map String.ofList).filter (· ≠ "")
    | .error _ => return []
  else return []

def present (c : Console Nat) : IO UInt32 := do
  (← IO.getStdout).putStr c.out
  (← IO.getStderr).putStr c.err
  match c.result with
  | .ok code | .error (.exit code) => return UInt32.ofNat code
  | .error (.error e) =>
    (← IO.getStderr).putStr (Console.line e.message)
    return 1

end DefiniteAssignment.Command

open DefiniteAssignment Command in
def main (args : List String) : IO UInt32 := do
  match Options.parse args with
  | .error _ => Command.present (run (fetched []) ⟨0, 0, 0, fun _ => 0⟩ [] args)
  | .ok o =>
    let fixtures ← listedFixtures o
    let lookup ← fetchAll (o.file.toList ++ fixtures)
    Command.present (run lookup (← measure o) fixtures args)
