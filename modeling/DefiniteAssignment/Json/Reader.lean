import DefiniteAssignment.Json.Token

/-! Reading JSON: a reader takes one token after the other and keeps the arrays
and objects that are still open. -/
namespace DefiniteAssignment.Json

/-- An array or object that waits for a value; items are kept last first. -/
inductive Open where
  | array (items : List Json)
  | member (members : List (String × Json)) (key : String)

inductive Reader where
  | value (outer : List Open) (mayClose : Bool)
  | name (outer : List Open) (members : List (String × Json)) (mayClose : Bool)
  | colon (outer : List Open) (members : List (String × Json)) (key : String)
  | after (outer : List Open) (v : Json)

namespace Reader

def reason : Reader → Reason
  | value _ _ => .value
  | name _ _ _ => .name
  | colon _ _ _ => .colon
  | after [] _ => .extra
  | after (_ :: _) _ => .comma

def step? : Reader → Token → Option Reader
  | value outer _, .scalar v => some (after outer v)
  | value outer _, .str s => some (after outer (.str s))
  | value outer _, .openArray => some (value (.array [] :: outer) true)
  | value outer _, .openObject => some (name outer [] true)
  | value (.array _ :: outer) true, .closeArray => some (after outer (.arr []))
  | name outer members _, .str key => some (colon outer members key)
  | name outer _ true, .closeObject => some (after outer (.obj []))
  | colon outer members key, .colon => some (value (.member members key :: outer) false)
  | after (.array items :: outer) v, .comma => some (value (.array (v :: items) :: outer) false)
  | after (.array items :: outer) v, .closeArray => some (after outer (.arr (v :: items).reverse))
  | after (.member members key :: outer) v, .comma => some (name outer (put key v members) false)
  | after (.member members key :: outer) v, .closeObject =>
    some (after outer (.obj (put key v members)))
  | _, _ => none

def step (r : Reader) (token : Nat × Token) : Except Fault Reader :=
  match r.step? token.2 with
  | some r => .ok r
  | none => .error (.located r.reason token.1)

/-- The end of the tokens. A fault in the text shows where a value was looked
for, and a broken string also where a name was. -/
def finish (r : Reader) (stop : Nat) (fault : Option Fault) : Except Fault Json :=
  match r, fault with
  | after [] v, none => .ok v
  | value _ _, some fault => .error fault
  | name _ _ _, some fault =>
    .error (if fault.inString then fault else .located .name stop)
  | r, _ => .error (.located r.reason stop)

end Reader

def read (cs : List Char) : Except Fault Json :=
  if cs.head? = some (Char.ofNat 0xFEFF) then .error (.located .byteOrderMark 0) else
  let ts := tokens 0 cs
  match ts.list.foldlM Reader.step (.value [] false) with
  | .error fault => .error fault
  | .ok r => r.finish ts.stop ts.fault

/-! ### Messages -/

def Reason.text : Reason → String
  | value => "Expecting value"
  | name => "Expecting property name enclosed in double quotes"
  | colon => "Expecting ':' delimiter"
  | comma => "Expecting ',' delimiter"
  | extra => "Extra data"
  | unterminated => "Unterminated string starting at"
  | control => "Invalid control character at"
  | escape => "Invalid \\escape"
  | unicodeEscape => "Invalid \\uXXXX escape"
  | byteOrderMark => "Unexpected UTF-8 BOM (decode using utf-8-sig)"

def place (cs : List Char) (position : Nat) : Nat × Nat :=
  let before := cs.take position
  (before.count '\n' + 1, (before.reverse.takeWhile (· ≠ '\n')).length + 1)

def Fault.message (cs : List Char) : Fault → String
  | located reason position =>
    let (line, column) := place cs position
    s!"{reason.text}: line {line} column {column} (char {position})"
  | tooLong digits =>
    s!"Exceeds the limit ({Decimal.maxDigits} digits) for integer string conversion: " ++
      s!"value has {digits} digits; use sys.set_int_max_str_digits() to increase the limit"

end DefiniteAssignment.Json
