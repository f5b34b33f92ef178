import DefiniteAssignment.Decimal.Numeral
import DefiniteAssignment.Json.Basic

/-! The tokens of a JSON text. Reading stops at the first character that starts
no token; what the reader makes of it depends on what it was looking for. -/
namespace DefiniteAssignment.Json

inductive Reason where
  | value
  | name
  | colon
  | comma
  | extra
  | unterminated
  | control
  | escape
  | unicodeEscape
  | byteOrderMark
deriving DecidableEq, Repr

inductive Fault where
  | located (reason : Reason) (position : Nat)
  | tooLong (digits : Nat)
deriving DecidableEq, Repr

def Fault.inString : Fault → Bool
  | located .unterminated _ | located .control _ | located .escape _
  | located .unicodeEscape _ => true
  | located .value _ | located .name _ | located .colon _ | located .comma _
  | located .extra _ | located .byteOrderMark _ | tooLong _ => false

inductive Token where
  | openArray
  | closeArray
  | openObject
  | closeObject
  | comma
  | colon
  | str (s : String)
  | scalar (v : Json)

def isSpace (c : Char) : Bool := c = ' ' || c = '\t' || c = '\n' || c = '\r'

/-! ### Strings -/

def simpleEscape? (c : Char) : Option Char :=
  if c = '"' then some '"'
  else if c = '\\' then some '\\'
  else if c = '/' then some '/'
  else if c = 'b' then some '\x08'
  else if c = 'f' then some '\x0c'
  else if c = 'n' then some '\n'
  else if c = 'r' then some '\r'
  else if c = 't' then some '\t'
  else none

def hexValue? (c : Char) : Option Nat :=
  if '0' ≤ c && c ≤ '9' then some (c.toNat - 0x30)
  else if 'a' ≤ c && c ≤ 'f' then some (c.toNat - 0x61 + 10)
  else if 'A' ≤ c && c ≤ 'F' then some (c.toNat - 0x41 + 10)
  else none

/-- The number that the first four characters stand for in base sixteen. A text
cannot end with them, since the closing quote of the string is still to come. -/
def unit? : List Char → Option Nat
  | a :: b :: c :: d :: _ :: _ => do
    return (← hexValue? a) * 4096 + (← hexValue? b) * 256 + (← hexValue? c) * 16 + (← hexValue? d)
  | _ => none

def isHighSurrogate (n : Nat) : Bool := 0xD800 ≤ n && n ≤ 0xDBFF

def isLowSurrogate (n : Nat) : Bool := 0xDC00 ≤ n && n ≤ 0xDFFF

def joinSurrogates (high low : Nat) : Char :=
  Char.ofNat (0x10000 + (high - 0xD800) * 0x400 + (low - 0xDC00))

/-- The character of one unit. A lone surrogate stands for no character. -/
def ofUnit (n : Nat) : Char :=
  if isHighSurrogate n || isLowSurrogate n then Char.ofNat 0xFFFD else Char.ofNat n

/-- Reads an escape by units after its backslash and `u`: the character, and the
count of characters taken. A high surrogate takes a low one that follows. The
backslash stands at `position`. -/
def scanUnits (position : Nat) (cs : List Char) : Except Fault (Char × Nat) :=
  match unit? cs with
  | none => .error (.located .unicodeEscape (position + 1))
  | some high =>
    if isHighSurrogate high then
      match cs.drop 4 with
      | '\\' :: 'u' :: rest =>
        match unit? rest with
        | none => .error (.located .unicodeEscape (position + 7))
        | some low =>
          if isLowSurrogate low then .ok (joinSurrogates high low, 10) else .ok (ofUnit high, 4)
      | _ => .ok (ofUnit high, 4)
    else .ok (ofUnit high, 4)

def scanEscape (start position : Nat) : List Char → Except Fault (Char × Nat)
  | [] => .error (.located .unterminated start)
  | c :: rest =>
    if c = 'u' then do
      let (c, n) ← scanUnits position rest
      return (c, n + 1)
    else
      match simpleEscape? c with
      | some c => .ok (c, 1)
      | none => .error (.located .escape position)

/-- Reads one character of a string from `c`, which is no quote, and what
follows: the character, and the count of following characters taken. -/
def scanChar (start position : Nat) (c : Char) (rest : List Char) : Except Fault (Char × Nat) :=
  if c = '\\' then scanEscape start position rest
  else if c.toNat < 0x20 then .error (.located .control position)
  else .ok (c, 0)

/-- Reads a string after its opening quote, which stands at `start`: its
characters and the position after its closing quote. `done` holds the characters
so far, last first. -/
def scanString (start : Nat) (done : List Char) (position : Nat) :
    List Char → Except Fault (List Char × Nat)
  | [] => .error (.located .unterminated start)
  | c :: rest =>
    if c = '"' then .ok (done.reverse, position + 1)
    else
      match scanChar start position c rest with
      | .error fault => .error fault
      | .ok (c, n) => scanString start (c :: done) (position + 1 + n) (rest.drop n)
termination_by cs => cs.length
decreasing_by
  simp only [List.length_drop, List.length_cons]
  omega

/-! ### Numbers -/

def wholePart : List Char → List Char
  | '0' :: _ => ['0']
  | cs => cs.takeWhile Decimal.isDigit

def fractionPart : List Char → List Char
  | '.' :: rest => if (rest.takeWhile Decimal.isDigit).isEmpty then []
    else '.' :: rest.takeWhile Decimal.isDigit
  | _ => []

def exponentSign : List Char → List Char
  | '+' :: _ => ['+']
  | '-' :: _ => ['-']
  | _ => []

def exponentPart : List Char → List Char
  | [] => []
  | c :: rest =>
    if c = 'e' || c = 'E' then
      let sign := exponentSign rest
      let digits := (rest.drop sign.length).takeWhile Decimal.isDigit
      if digits.isEmpty then [] else c :: sign ++ digits
    else []

def numberValue (negative : Bool) (whole fraction exponent : List Char) : Except Fault Json :=
  if fraction.isEmpty && exponent.isEmpty then
    if whole.length ≤ Decimal.maxDigits then
      let n := Int.ofNat (Decimal.ofDigits whole)
      .ok (.int (if negative then -n else n))
    else .error (.tooLong whole.length)
  else
    let places := fraction.drop 1
    let power := (Decimal.readExponent? exponent).getD 0
    let x := Decimal.toFloat (Decimal.ofDigits (whole ++ places)) (power - Int.ofNat places.length)
    .ok (.real (if negative then -x else x))

def scanNumber (position : Nat) (cs : List Char) : Except Fault (Json × Nat) :=
  let sign := match cs with
    | '-' :: _ => 1
    | _ => 0
  let rest := cs.drop sign
  let whole := wholePart rest
  let rest := rest.drop whole.length
  let fraction := fractionPart rest
  let exponent := exponentPart (rest.drop fraction.length)
  if whole.isEmpty then .error (.located .value position)
  else do
    let v ← numberValue (sign = 1) whole fraction exponent
    return (v, sign + whole.length + fraction.length + exponent.length)

/-! ### Tokens -/

def words : List (String × Json) :=
  [("null", .null), ("true", .bool true), ("false", .bool false), ("NaN", .real (0.0 / 0.0)),
    ("Infinity", .real (1.0 / 0.0)), ("-Infinity", .real (-1.0 / 0.0))]

def scanWord? (cs : List Char) : Option (Json × Nat) :=
  (words.find? fun (w, _) => w.toList.isPrefixOf cs).map fun (w, v) => (v, w.length)

def mark? (c : Char) : Option Token :=
  if c = '[' then some .openArray
  else if c = ']' then some .closeArray
  else if c = '\x7b' then some .openObject
  else if c = '\x7d' then some .closeObject
  else if c = ',' then some .comma
  else if c = ':' then some .colon
  else none

def scanToken (position : Nat) (c : Char) (rest : List Char) : Except Fault (Token × Nat) :=
  match mark? c with
  | some t => .ok (t, 0)
  | none =>
    if c = '"' then do
      let (cs, stop) ← scanString position [] (position + 1) rest
      return (.str (String.ofList cs), stop - position - 1)
    else
      match scanWord? (c :: rest) with
      | some (v, n) => .ok (.scalar v, n - 1)
      | none => do
        let (v, n) ← scanNumber position (c :: rest)
        return (.scalar v, n - 1)

/-- The tokens of a text with their positions, the position at which they stop,
and the fault that stopped them, if it was not the end. -/
structure Tokens where
  list : List (Nat × Token)
  stop : Nat
  fault : Option Fault

def tokens (position : Nat) : List Char → Tokens
  | [] => ⟨[], position, none⟩
  | c :: rest =>
    if isSpace c then tokens (position + 1) rest
    else
      match scanToken position c rest with
      | .error fault => ⟨[], position, some fault⟩
      | .ok (t, n) =>
        let after := tokens (position + 1 + n) (rest.drop n)
        { after with list := (position, t) :: after.list }
termination_by cs => cs.length
decreasing_by
  · simp
  · simp only [List.length_drop, List.length_cons]
    omega

end DefiniteAssignment.Json
