import DefiniteAssignment.Decimal.Shortest

/-! Floating-point numbers as text. -/
namespace DefiniteAssignment.Decimal

/-- How digits are laid out: between which places of the leading digit they are
written without an exponent, and how many digits an exponent has at least. -/
structure Layout where
  firstPositional : Int
  lastPositional : Int
  exponentWidth : Nat

/-- Numbers from a ten-thousandth up to ten thousand million million are written
out, with `.0` after whole ones; an exponent has a sign and two digits or more. -/
def plain : Layout := ⟨-4, 15, 2⟩

def padLeft (width : Nat) (pad : Char) (cs : List Char) : List Char :=
  List.replicate (width - cs.length) pad ++ cs

namespace Layout

def exponent (l : Layout) (place : Int) : List Char :=
  'e' :: (if 0 ≤ place then '+' else '-') ::
    padLeft l.exponentWidth '0' (Nat.toDigits 10 place.natAbs)

def write (l : Layout) (ds : List Char) (place : Int) : List Char :=
  if l.firstPositional ≤ place && place ≤ l.lastPositional then
    if place < 0 then '0' :: '.' :: List.replicate (-place - 1).toNat '0' ++ ds
    else
      let whole := place.toNat + 1
      let fraction := ds.drop whole
      ds.take whole ++ List.replicate (whole - ds.length) '0' ++ '.' ::
        (if fraction.isEmpty then ['0'] else fraction)
  else
    match ds with
    | [d] => d :: l.exponent place
    | d :: rest => d :: '.' :: rest ++ l.exponent place
    | [] => []

end Layout

def Scaled.significant (d : Scaled) : List Char × Int :=
  let ds := Nat.toDigits 10 d.digits
  ((ds.reverse.dropWhile (· = '0')).reverse, d.exponent + Int.ofNat ds.length - 1)

/-- The fewest digits that read back as the number. -/
def text (x : Float) : String :=
  if x.isNaN then "nan" else
  let sign := if x.toBits.toNat / Nat.pow 2 63 = 1 then "-" else ""
  sign ++
    if x.isInf then "inf"
    else if x == 0 then "0.0"
    else
      let (ds, place) := (Binary.ofBits x.toBits).shortest.significant
      String.ofList (plain.write ds place)

end DefiniteAssignment.Decimal
