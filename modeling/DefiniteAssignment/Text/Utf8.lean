import DefiniteAssignment.Text.Literal

/-! Texts from bytes in UTF-8. Bytes that are no text are refused at the first
place where no text can go on, with the bytes of the character that broke off. -/
namespace DefiniteAssignment.Text.Utf8

inductive Reason where
  | startByte
  | continuationByte
  | endOfData
deriving DecidableEq, Repr

/-- The bytes from `start` up to `stop` form no character; `first` is the first
of them. -/
structure Fault where
  reason : Reason
  start : Nat
  stop : Nat
  first : UInt8
deriving DecidableEq, Repr

/-- What follows a first byte: how many further bytes, between which bounds the
next of them lies, and the bits that the first byte contributes. -/
structure Lead where
  owed : Nat
  low : Nat
  high : Nat
  bits : Nat

def lead? (b : Nat) : Option Lead :=
  if b < 0x80 then some ⟨0, 0x80, 0xBF, b⟩
  else if b < 0xC2 then none
  else if b < 0xE0 then some ⟨1, 0x80, 0xBF, b - 0xC0⟩
  else if b = 0xE0 then some ⟨2, 0xA0, 0xBF, 0⟩
  else if b = 0xED then some ⟨2, 0x80, 0x9F, 0xD⟩
  else if b < 0xF0 then some ⟨2, 0x80, 0xBF, b - 0xE0⟩
  else if b = 0xF0 then some ⟨3, 0x90, 0xBF, 0⟩
  else if b < 0xF4 then some ⟨3, 0x80, 0xBF, b - 0xF0⟩
  else if b = 0xF4 then some ⟨3, 0x80, 0x8F, 4⟩
  else none

/-- Takes the further bytes of a character, of which `taken` bytes are read: its
code point, or why it breaks off and after how many bytes. -/
def finish : (owed low high bits taken : Nat) → List UInt8 → Except (Reason × Nat) Nat
  | 0, _, _, bits, _, _ => .ok bits
  | _ + 1, _, _, _, taken, [] => .error (.endOfData, taken)
  | owed + 1, low, high, bits, taken, b :: rest =>
    if low ≤ b.toNat ∧ b.toNat ≤ high then
      finish owed 0x80 0xBF (bits * 64 + (b.toNat - 0x80)) (taken + 1) rest
    else .error (.continuationByte, taken)

def decodeFrom (position : Nat) : List UInt8 → Except Fault (List Char)
  | [] => .ok []
  | b :: rest =>
    match lead? b.toNat with
    | none => .error ⟨.startByte, position, position + 1, b⟩
    | some l =>
      match finish l.owed l.low l.high l.bits 1 rest with
      | .error (reason, taken) => .error ⟨reason, position, position + taken, b⟩
      | .ok code =>
        match decodeFrom (position + 1 + l.owed) (rest.drop l.owed) with
        | .ok cs => .ok (Char.ofNat code :: cs)
        | .error fault => .error fault
termination_by bytes => bytes.length
decreasing_by
  simp only [List.length_drop, List.length_cons]
  omega

def decode (bytes : List UInt8) : Except Fault (List Char) := decodeFrom 0 bytes

def Reason.text : Reason → String
  | startByte => "invalid start byte"
  | continuationByte => "invalid continuation byte"
  | endOfData => "unexpected end of data"

def Fault.message (f : Fault) : String :=
  let place :=
    if f.stop = f.start + 1 then
      s!"byte 0x{String.ofList (hex 2 f.first.toNat)} in position {f.start}"
    else s!"bytes in position {f.start}-{f.stop - 1}"
  s!"'utf-8' codec can't decode {place}: {f.reason.text}"

end DefiniteAssignment.Text.Utf8
