/-! Blank characters: the spaces of all scripts, the line and page breaks, and the
four information separators. -/
namespace DefiniteAssignment.Text

def isSeparator (c : Char) : Bool := 0x1C ≤ c.toNat && c.toNat ≤ 0x1F

def isBlank (c : Char) : Bool :=
  let n := c.toNat
  (0x09 ≤ n && n ≤ 0x0D) || isSeparator c || n = 0x20 || n = 0x85 || n = 0xA0 || n = 0x1680 ||
    (0x2000 ≤ n && n ≤ 0x200A) || n = 0x2028 || n = 0x2029 || n = 0x202F || n = 0x205F ||
    n = 0x3000

/-- The blanks that may surround a number; information separators may not. -/
def isMargin (c : Char) : Bool := isBlank c && !isSeparator c

def trimMargins (cs : List Char) : List Char :=
  ((cs.dropWhile isMargin).reverse.dropWhile isMargin).reverse

end DefiniteAssignment.Text
