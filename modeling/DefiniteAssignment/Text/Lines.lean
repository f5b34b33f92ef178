/-! Lines of a text. -/
namespace DefiniteAssignment.Text

def lines : List Char → List (List Char)
  | [] => [[]]
  | c :: rest =>
    match lines rest with
    | line :: more => if c = '\n' then [] :: line :: more else (c :: line) :: more
    | [] => [[c]]

/-- A carriage return, alone or before a line feed, becomes one line feed. -/
def unifyNewlines : List Char → List Char
  | [] => []
  | '\r' :: '\n' :: rest => '\n' :: unifyNewlines rest
  | c :: rest => (if c = '\r' then '\n' else c) :: unifyNewlines rest

end DefiniteAssignment.Text
