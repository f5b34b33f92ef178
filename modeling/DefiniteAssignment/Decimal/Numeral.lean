import DefiniteAssignment.Text.Blank
import DefiniteAssignment.Text.Digit

/-! Reading numerals. Blanks may surround a numeral, the digits of any script
count, and an underscore may stand between two digits. -/
namespace DefiniteAssignment.Decimal

def isDigit (c : Char) : Bool := '0' ≤ c && c ≤ '9'

def ofDigits (ds : List Char) : Nat := ds.foldl (fun n c => 10 * n + (c.toNat - '0'.toNat)) 0

/-- The float nearest to `digits * 10 ^ exponent`. Outside the range of floats
the size alone decides, so no large power is computed. -/
def toFloat (digits : Nat) (exponent : Int) : Float :=
  let size := Int.ofNat (Nat.toDigits 10 digits).length + exponent
  if digits = 0 || size < -330 then 0.0
  else if 310 < size then 1.0 / 0.0
  else Float.ofScientific digits (exponent < 0) exponent.natAbs

def maxDigits : Nat := 4300

def plainDigit (c : Char) : Char :=
  match Text.digit? c with
  | some n => Nat.digitChar n
  | none => c

/-- Drops the underscores, each of which must stand between two digits. -/
def joinGroups : List Char → Option (List Char)
  | [] => some []
  | '_' :: _ => none
  | c :: '_' :: d :: rest =>
    if isDigit c && isDigit d then (joinGroups (d :: rest)).map (c :: ·) else none
  | [_, '_'] => none
  | c :: rest => (joinGroups rest).map (c :: ·)

def prepare (s : String) : Option (List Char) :=
  joinGroups ((Text.trimMargins s.toList).map plainDigit)

def splitSign : List Char → Bool × List Char
  | '-' :: rest => (true, rest)
  | '+' :: rest => (false, rest)
  | rest => (false, rest)

def readInt? (s : String) : Option Int := do
  let (negative, ds) := splitSign (← prepare s)
  guard (!ds.isEmpty && ds.all isDigit && ds.length ≤ maxDigits)
  return if negative then - Int.ofNat (ofDigits ds) else Int.ofNat (ofDigits ds)

def readExponent? : List Char → Option Int
  | [] => some 0
  | c :: rest => do
    guard (c = 'e' || c = 'E')
    let (negative, ds) := splitSign rest
    guard (!ds.isEmpty && ds.all isDigit)
    return if negative then - Int.ofNat (ofDigits ds) else Int.ofNat (ofDigits ds)

def readMagnitude? (cs : List Char) : Option Float := do
  let word := String.ofList (cs.map Char.toLower)
  if word = "inf" || word = "infinity" then return 1.0 / 0.0
  if word = "nan" then return 0.0 / 0.0
  let whole := cs.takeWhile isDigit
  let rest := cs.dropWhile isDigit
  let (fraction, rest) := match rest with
    | '.' :: rest => (rest.takeWhile isDigit, rest.dropWhile isDigit)
    | rest => ([], rest)
  guard (!whole.isEmpty || !fraction.isEmpty)
  let exponent ← readExponent? rest
  return toFloat (ofDigits (whole ++ fraction)) (exponent - Int.ofNat fraction.length)

def readFloat? (s : String) : Option Float := do
  let (negative, cs) := splitSign (← prepare s)
  let x ← readMagnitude? cs
  return if negative then -x else x

end DefiniteAssignment.Decimal
