/-! # Text measured in 16-bit units

Widths of columns, the order of texts and the single characters of a pattern all
count 16-bit units: a character below 0x10000 is one unit, any other is a pair of
surrogates. Texts are ordered by their lists of units, which differs from the
order of characters where surrogates meet the units above them.
-/
namespace TableQuery.Text

def charUnits (c : Char) : List Nat :=
  if c.toNat < 0x10000 then [c.toNat]
  else [0xD800 + (c.toNat - 0x10000) / 0x400, 0xDC00 + (c.toNat - 0x10000) % 0x400]

def units (s : String) : List Nat := s.toList.flatMap charUnits

/-- The characters of a list of 16-bit units, or of larger units that are characters already.
A surrogate without its partner becomes the replacement character. -/
def charsOfUnits : List Nat → List Char
  | [] => []
  | u :: rest =>
    if 0xD800 ≤ u ∧ u < 0xE000 then
      match rest with
      | [] => ['\uFFFD']
      | v :: rest' =>
        if u < 0xDC00 ∧ 0xDC00 ≤ v ∧ v < 0xE000 then
          Char.ofNat (0x10000 + (u - 0xD800) * 0x400 + (v - 0xDC00)) :: charsOfUnits rest'
        else '\uFFFD' :: charsOfUnits (v :: rest')
    else Char.ofNat u :: charsOfUnits rest

def width (s : String) : Nat := (units s).length

def order (a b : String) : Ordering := compare (units a) (units b)

def sorted (texts : List String) : List String := texts.mergeSort fun a b => (order a b).isLE

/-- Fills a text with blanks on its right up to `n` units; a wider text is kept. -/
def padRight (n : Nat) (s : String) : String :=
  s ++ String.ofList (List.replicate (n - width s) ' ')

end TableQuery.Text
