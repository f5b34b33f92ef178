import DefiniteAssignment.Json.Basic

/-! Writing JSON with plain characters only: everything else is escaped by its
16-bit units. -/
namespace DefiniteAssignment.Json

/-- One line, or one item per line with `unit` for each level. -/
inductive Layout where
  | inline
  | lines (unit : String)
deriving DecidableEq, Repr

namespace Layout

def spaces (n : Int) : Layout := lines (String.ofList (List.replicate n.toNat ' '))

def standard : Layout := spaces 2

def lineBreak (l : Layout) (level : Nat) : List Char :=
  match l with
  | inline => []
  | lines unit => '\n' :: (List.replicate level unit.toList).flatten

def separator (l : Layout) (level : Nat) : List Char :=
  match l with
  | inline => [',', ' ']
  | lines _ => ',' :: l.lineBreak level

end Layout

def unitEscape (n : Nat) : List Char := '\\' :: 'u' :: Text.hex 4 n

def escapeChar (c : Char) : List Char :=
  let n := c.toNat
  if c = '"' then ['\\', '"']
  else if c = '\\' then ['\\', '\\']
  else if c = '\n' then ['\\', 'n']
  else if c = '\r' then ['\\', 'r']
  else if c = '\t' then ['\\', 't']
  else if n = 0x0C then ['\\', 'f']
  else if n = 0x08 then ['\\', 'b']
  else if 0x20 ≤ n && n ≤ 0x7E then [c]
  else if n < 0x10000 then unitEscape n
  else unitEscape (0xD800 + (n - 0x10000) / 0x400) ++ unitEscape (0xDC00 + (n - 0x10000) % 0x400)

def stringChars (s : String) : List Char := '"' :: s.toList.flatMap escapeChar ++ ['"']

def realText (x : Float) : String :=
  if x.isNaN then "NaN" else if x.isInf then (if 0 < x then "Infinity" else "-Infinity")
  else Decimal.text x

mutual

def chars (l : Layout) (level : Nat) : Json → List Char
  | null => ['n', 'u', 'l', 'l']
  | bool true => ['t', 'r', 'u', 'e']
  | bool false => ['f', 'a', 'l', 's', 'e']
  | int n => (intText n).toList
  | real x => (realText x).toList
  | str s => stringChars s
  | arr [] => ['[', ']']
  | arr (v :: rest) =>
    '[' :: l.lineBreak (level + 1) ++ chars l (level + 1) v ++ itemChars l (level + 1) rest ++
      l.lineBreak level ++ [']']
  | obj [] => ['\x7b', '\x7d']
  | obj ((k, v) :: rest) =>
    '\x7b' :: l.lineBreak (level + 1) ++ stringChars k ++ [':', ' '] ++ chars l (level + 1) v ++
      memberChars l (level + 1) rest ++ l.lineBreak level ++ ['\x7d']

def itemChars (l : Layout) (level : Nat) : List Json → List Char
  | [] => []
  | v :: rest => l.separator level ++ chars l level v ++ itemChars l level rest

def memberChars (l : Layout) (level : Nat) : List (String × Json) → List Char
  | [] => []
  | (k, v) :: rest =>
    l.separator level ++ stringChars k ++ [':', ' '] ++ chars l level v ++
      memberChars l level rest

end

def render (l : Layout) (v : Json) : String := String.ofList (chars l 0 v)

end DefiniteAssignment.Json
