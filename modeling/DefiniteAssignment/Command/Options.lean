import DefiniteAssignment.Decimal.Numeral
import DefiniteAssignment.Text.Literal

/-! Options of the command line. Long options may be shortened to a beginning
that only one of them has; short ones may be joined; two dashes end the options;
what looks like a negative number is a value. -/
namespace DefiniteAssignment.Command

inductive Flag where
  | help
  | tests
  | print
  | json
  | benchmark
  | sizes
  | verbose
deriving DecidableEq, Repr

namespace Flag

def spellings : List (String × Flag) :=
  [("-h", help), ("--help", help), ("--tests", tests), ("--print", print), ("--json", json),
    ("--benchmark", benchmark), ("--sizes", sizes), ("-v", verbose), ("--verbose", verbose)]

def ofSpelling? (s : String) : Option Flag := (spellings.find? fun e => e.1 = s).map Prod.snd

def name (f : Flag) : String :=
  "/".intercalate ((spellings.filter fun e => e.2 = f).map Prod.fst)

end Flag

inductive UsageError where
  | ambiguous (arg : String) (matching : List String)
  | unexpectedValue (flag : Flag) (value : String)
  | missingValues (flag : Flag)
  | notInteger (flag : Flag) (value : String)
  | unrecognized (args : List String)
deriving DecidableEq, Repr

def UsageError.message : UsageError → String
  | ambiguous arg matching =>
    "ambiguous option: " ++ arg ++ " could match " ++ ", ".intercalate matching
  | unexpectedValue flag value =>
    "argument " ++ flag.name ++ ": ignored explicit argument " ++ Text.quoted value
  | missingValues flag => "argument " ++ flag.name ++ ": expected at least one argument"
  | notInteger flag value =>
    "argument " ++ flag.name ++ ": invalid int value: " ++ Text.quoted value
  | unrecognized args => "unrecognized arguments: " ++ " ".intercalate args

structure Options where
  file : Option String := none
  tests : Bool := false
  print : Bool := false
  json : Bool := false
  benchmark : Bool := false
  sizes : List Int := [10, 100, 1000, 5000]
  verbose : Bool := false
deriving DecidableEq, Repr

/-! ### Single arguments -/

inductive Arg where
  | plain (text : String)
  | dashes
  | option (flag : Flag)
  | valued (flag : Flag) (value : String)
  | joined (flag : Flag) (letters : List Char)
  | unknown (text : String)
deriving DecidableEq, Repr

def splitEquals (cs : List Char) : List Char × Option (List Char) :=
  match cs.dropWhile (· ≠ '=') with
  | [] => (cs, none)
  | _ :: value => (cs.takeWhile (· ≠ '='), some value)

/-- A minus sign with a whole number, or with a fraction after a point; a line
feed may close it. -/
def isNegativeNumber (cs : List Char) : Bool :=
  let isDigit (c : Char) : Bool := (Text.digit? c).isSome
  match cs with
  | '-' :: rest =>
    let rest := if rest.getLast? = some '\n' then rest.dropLast else rest
    let fraction := rest.dropWhile isDigit
    match fraction with
    | [] => !rest.isEmpty
    | '.' :: places => !places.isEmpty && places.all isDigit
    | _ => false
  | _ => false

def withValue (flag : Flag) : Option (List Char) → Arg
  | none => .option flag
  | some value => .valued flag (String.ofList value)

def classifyLong (arg : String) : Except UsageError (Option Arg) :=
  let (lead, value) := splitEquals arg.toList
  match Flag.spellings.filter fun e => lead.isPrefixOf e.1.toList with
  | [] => .ok none
  | [e] => .ok (some (withValue e.2 value))
  | several => .error (.ambiguous arg (several.map Prod.fst))

def classifyShort (arg : String) : Option Arg :=
  let cs := arg.toList
  (Flag.ofSpelling? (String.ofList (cs.take 2))).map fun flag => .joined flag (cs.drop 2)

def classifyOther (arg : String) : Arg :=
  if isNegativeNumber arg.toList || arg.toList.contains ' ' then .plain arg else .unknown arg

def classify (arg : String) : Except UsageError Arg :=
  match arg.toList with
  | '-' :: second :: _ =>
    match Flag.ofSpelling? arg, splitEquals arg.toList with
    | some flag, _ => .ok (.option flag)
    | none, (lead, value) =>
      match Flag.ofSpelling? (String.ofList lead), value with
      | some flag, some value =>
        .ok (if second = '-' then withValue flag (some value) else .joined flag value)
      | _, _ =>
        if second = '-' then (·.getD (classifyOther arg)) <$> classifyLong arg
        else .ok ((classifyShort arg).getD (classifyOther arg))
  | _ => .ok (.plain arg)

def classifyAll : List String → Except UsageError (List Arg)
  | [] => .ok []
  | arg :: rest =>
    if arg = "--" then .ok (.dashes :: rest.map .plain)
    else do
      let first ← classify arg
      let rest ← classifyAll rest
      return first :: rest

/-! ### Whole command lines -/

inductive Interruption where
  | help
  | usage (error : UsageError)
deriving DecidableEq, Repr

structure Progress where
  options : Options := {}
  fileTaken : Bool := false
  unrecognized : List String := []

namespace Progress

def refuse {α : Type} (error : UsageError) : Except Interruption α := .error (.usage error)

def leaveOver (p : Progress) (arg : String) : Progress :=
  { p with unrecognized := p.unrecognized ++ [arg] }

def takeFile (p : Progress) (file : Option String) : Progress :=
  { p with options := { p.options with file }, fileTaken := true }

def set (p : Progress) : Flag → Except Interruption Progress
  | .help => .error .help
  | .tests => .ok { p with options := { p.options with tests := true } }
  | .print => .ok { p with options := { p.options with print := true } }
  | .json => .ok { p with options := { p.options with json := true } }
  | .benchmark => .ok { p with options := { p.options with benchmark := true } }
  | .verbose => .ok { p with options := { p.options with verbose := true } }
  | .sizes => refuse (.missingValues .sizes)

/-- A pair of dashes among the values stands for none. -/
def setSizes (p : Progress) (values : List String) : Except Interruption Progress := do
  let sizes ← (values.erase "--").mapM fun value =>
    match Decimal.readInt? value with
    | some n => .ok n
    | none => refuse (.notInteger .sizes value)
  return { p with options := { p.options with sizes } }

/-- The options that letters after a short one stand for. `flag` is the option
before them, and the one to blame for a letter that stands for none. -/
def spell (flag : Flag) : List Char → Except UsageError (List Flag)
  | [] => .ok [flag]
  | c :: rest =>
    match Flag.ofSpelling? (String.ofList ['-', c]) with
    | none => .error (.unexpectedValue flag (String.ofList (c :: rest)))
    | some next => (flag :: ·) <$> spell next rest

def leadingValues : List Arg → List String
  | .plain text :: rest => text :: leadingValues rest
  | _ => []

def joined (p : Progress) (flag : Flag) (letters : List Char) : Except Interruption Progress :=
  if letters.isEmpty then refuse (.unexpectedValue flag "")
  else
    match spell flag letters with
    | .error e => refuse e
    | .ok flags => flags.foldlM set p

/-- Reads one argument, and says how many of those after it it takes with it. -/
def step (p : Progress) (arg : Arg) (rest : List Arg) : Except Interruption (Progress × Nat) :=
  match arg with
  | .plain text =>
    if p.fileTaken then .ok (p.leaveOver text, 0)
    else .ok (p.takeFile (some text), if rest.head? = some .dashes then 1 else 0)
  | .dashes =>
    if p.fileTaken then .ok (p.leaveOver "--", 0)
    else
      match rest with
      | .plain text :: _ => .ok (p.takeFile (some text), 1)
      | _ => .ok (p.takeFile none, 0)
  | .unknown text => .ok (p.leaveOver text, 0)
  | .option .sizes =>
    match leadingValues rest with
    | [] => refuse (.missingValues .sizes)
    | values => do return (← p.setSizes values, values.length)
  | .option flag => do return (← p.set flag, 0)
  | .valued .sizes value => do return (← p.setSizes [value], 0)
  | .valued flag value => refuse (.unexpectedValue flag value)
  | .joined flag letters => do return (← p.joined flag letters, 0)

def readAll (p : Progress) : List Arg → Except Interruption Progress
  | [] => .ok p
  | arg :: rest =>
    match p.step arg rest with
    | .error e => .error e
    | .ok (p, n) => p.readAll (rest.drop n)
termination_by args => args.length
decreasing_by
  simp only [List.length_drop, List.length_cons]
  omega

end Progress

def Options.parse (args : List String) : Except Interruption Options :=
  match classifyAll args with
  | .error e => .error (.usage e)
  | .ok args => do
    let p ← Progress.readAll {} args
    if p.unrecognized.isEmpty then return p.options
    else Progress.refuse (.unrecognized p.unrecognized)

/-! ### Texts -/

def usageText : String :=
  "usage: defassign [-h] [--tests] [--print] [--json] [--benchmark]\n" ++
  "                 [--sizes N [N ...]] [-v]\n" ++
  "                 [file]\n"

def helpText : String :=
  usageText ++
  "\n" ++
  "defassign: checks that variables are declared before use and assigned before\n" ++
  "being read\n" ++
  "\n" ++
  "positional arguments:\n" ++
  "  file               JSON program file to analyze\n" ++
  "\n" ++
  "options:\n" ++
  "  -h, --help         show this help message and exit\n" ++
  "  --tests            Run fixture test suite\n" ++
  "  --print            Print the program as pseudo-source before the analysis\n" ++
  "  --json             Print problems as JSON\n" ++
  "  --benchmark        Print timing breakdown; without a file, time generated\n" ++
  "                     programs instead\n" ++
  "  --sizes N [N ...]  Function counts of the generated benchmark programs\n" ++
  "  -v, --verbose      Enable debug logging\n"

def UsageError.report (e : UsageError) : String :=
  usageText ++ "defassign: error: " ++ e.message ++ "\n"

end DefiniteAssignment.Command
