import DefiniteAssignment.Command.Fixture

/-! The commands: the checker, a printer of pseudo-source, and a normalizer of
program files. -/
namespace DefiniteAssignment.Command

def perform (lookup : Lookup) (t : Times) (fixtures : List String) (o : Options) : Console Nat :=
  if o.tests then runSuite lookup o.verbose fixtures
  else
    match o.file.filter (· ≠ "") with
    | some path => checkFile lookup o t path
    | none => if o.benchmark then timeGenerated o t else .done helpText 1

def run (lookup : Lookup) (t : Times) (fixtures : List String) (args : List String) :
    Console Nat :=
  match Options.parse args with
  | .error .help => { out := helpText, result := .error (.exit 0) }
  | .error (.usage e) => { err := e.report, result := .error (.exit 2) }
  | .ok o => perform lookup t fixtures o

def runPrinter (lookup : Lookup) (args : List String) : Console Unit :=
  match args with
  | [path] =>
    match readProgram lookup path with
    | .ok p => .done (Console.paragraph [s!"==== Program {path}", p.text]) ()
    | .error e =>
      if e.isMalformed || e.isFile then
        { out := Console.line s!"Error while loading {path}: {e.message}",
          result := .error (.exit 1) }
      else .fail "" e
  | _ =>
    { out := Console.line "Usage: python ast_printer.py <program.json>",
      result := .error (.exit 1) }

def runNormalizer (lookup : Lookup) (args : List String) : Console Unit :=
  match args with
  | [] =>
    { err := Console.line "Usage: python3 -m frontend.ir_json <program.json>",
      result := .error (.exit 1) }
  | path :: _ =>
    match readProgram lookup path with
    | .error e => .fail "" e
    | .ok p =>
      match p.render .standard with
      | .ok text => .done (Console.line text) ()
      | .error s => .fail "" (.analysis (.unknownStatement s Scope.rootName))

end DefiniteAssignment.Command
