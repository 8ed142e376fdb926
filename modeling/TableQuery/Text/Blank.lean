/-! # Blank characters

The blanks that separate words of a query and are trimmed from its texts: the
ASCII controls tab to carriage return, the space, the no-break and figure spaces,
the line and paragraph separators and the byte order mark. The next-line control
and the zero-width space are not among them.
-/
namespace TableQuery.Text

def isBlank (c : Char) : Bool :=
  let n := c.toNat
  (9 ≤ n && n ≤ 13) || n == 0x20 || n == 0xA0 || n == 0x1680 || (0x2000 ≤ n && n ≤ 0x200A)
    || n == 0x2028 || n == 0x2029 || n == 0x202F || n == 0x205F || n == 0x3000 || n == 0xFEFF

def trimStart (cs : List Char) : List Char := cs.dropWhile isBlank

def trimEnd (cs : List Char) : List Char := (cs.reverse.dropWhile isBlank).reverse

def trim (cs : List Char) : List Char := trimEnd (trimStart cs)

end TableQuery.Text
