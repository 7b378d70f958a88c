/-
  PcmConvert.Text.Blank — blank characters, and what is left of a text without them at
  its two ends. Blank is Unicode's White_Space property: 25 characters, the no-break
  space among them, the zero width space not.
-/

namespace PcmConvert.Text

/-- The ranges of the White_Space property, ends included, in order. -/
def blankRanges : List (Nat × Nat) :=
  [(0x09, 0x0D), (0x20, 0x20), (0x85, 0x85), (0xA0, 0xA0), (0x1680, 0x1680), (0x2000, 0x200A),
   (0x2028, 0x2029), (0x202F, 0x202F), (0x205F, 0x205F), (0x3000, 0x3000)]

def isBlank (c : Char) : Bool := blankRanges.any fun r => r.1 ≤ c.toNat && c.toNat ≤ r.2

/-- `s` without its blank ends. -/
def trim (s : List Char) : List Char := ((s.dropWhile isBlank).reverse.dropWhile isBlank).reverse

/-- The pieces of `s` between the characters `sep`: one more than there are of them. -/
def pieces (sep : Char) : List Char → List (List Char)
  | [] => [[]]
  | c :: r =>
    if c = sep then [] :: pieces sep r
    else match pieces sep r with
      | p :: ps => (c :: p) :: ps
      | [] => [[c]]

example : (blankRanges.map fun r => r.2 + 1 - r.1).sum = 25 := rfl
example : isBlank '\u00a0' = true ∧ isBlank '\u200b' = false := by decide
example : pieces ',' "a,,b".toList = ["a".toList, [], "b".toList] := by decide

end PcmConvert.Text
