/-! The shortest decimal that reads back as a given binary number. A positive
binary number is `mantissa * 2 ^ exponent`; the decimals that read back as it
fill an interval around it. For each number of digits only its two neighbours on
that decimal grid need to be tried: the first grid with a hit has the fewest
digits, and of two hits the nearer is taken. All arithmetic is exact. -/
namespace DefiniteAssignment.Decimal

/-- A positive finite number in binary. Just above a power of two the next lower
number is only half as far away as the next higher one. -/
structure Binary where
  mantissa : Nat
  exponent : Int
  narrowBelow : Bool

structure Scaled where
  digits : Nat
  exponent : Int
deriving DecidableEq, Repr

namespace Binary

def ofBits (bits : UInt64) : Binary :=
  let fraction := bits.toNat % Nat.pow 2 52
  let biased := bits.toNat / Nat.pow 2 52 % Nat.pow 2 11
  if biased = 0 then ⟨fraction, -1074, false⟩
  else ⟨Nat.pow 2 52 + fraction, Int.ofNat biased - 1075, fraction = 0 && biased > 1⟩

def quarter (b : Binary) : Nat × Nat :=
  let e := b.exponent - 2
  if 0 ≤ e then (Nat.pow 2 e.toNat, 1) else (1, Nat.pow 2 (-e).toNat)

def powerOfTen (e : Int) : Nat × Nat :=
  if 0 ≤ e then (Nat.pow 10 e.toNat, 1) else (1, Nat.pow 10 (-e).toNat)

/-- The decimal `c * 10 ^ e` lies in the interval that reads back as the number;
its ends belong to it when the mantissa is even. -/
def readsBack (b : Binary) (c : Nat) (e : Int) : Bool :=
  let (u, d) := b.quarter
  let (p, q) := powerOfTen e
  let x := c * p * d
  let low := (4 * b.mantissa - if b.narrowBelow then 1 else 2) * u * q
  let high := (4 * b.mantissa + 2) * u * q
  if b.mantissa % 2 = 0 then low ≤ x && x ≤ high else low < x && x < high

def distance (b : Binary) (c : Nat) (e : Int) : Nat :=
  let (u, d) := b.quarter
  let (p, q) := powerOfTen e
  let x := c * p * d
  let v := 4 * b.mantissa * u * q
  (x - v) + (v - x)

def floorAt (b : Binary) (e : Int) : Nat :=
  let (u, d) := b.quarter
  let (p, q) := powerOfTen e
  4 * b.mantissa * u * q / (d * p)

def leadingPlace (b : Binary) : Int :=
  let (u, d) := b.quarter
  let num := 4 * b.mantissa * u
  if d ≤ num then Int.ofNat (Nat.toDigits 10 (num / d)).length - 1
  else
    let places := (Nat.toDigits 10 (d / num)).length
    if num * Nat.pow 10 (places - 1) = d then 1 - Int.ofNat places else - Int.ofNat places

/-- The better of the two neighbours with `n` digits, if either reads back. An
exact tie goes to the even one. -/
def withDigits (b : Binary) (n : Nat) : Option Scaled :=
  let e := b.leadingPlace + 1 - Int.ofNat n
  let low := b.floorAt e
  let high := low + 1
  match b.readsBack low e, b.readsBack high e with
  | true, false => some ⟨low, e⟩
  | false, true => some ⟨high, e⟩
  | false, false => none
  | true, true =>
    let down := b.distance low e
    let up := b.distance high e
    if down < up || (down = up && low % 2 = 0) then some ⟨low, e⟩ else some ⟨high, e⟩

def shortest (b : Binary) : Scaled :=
  ((List.range 17).findSome? fun n => b.withDigits (n + 1)).getD
    ⟨b.floorAt (b.leadingPlace - 16), b.leadingPlace - 16⟩

end Binary

end DefiniteAssignment.Decimal
