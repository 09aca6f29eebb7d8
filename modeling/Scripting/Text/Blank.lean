/-!
# `Text.Blank` — blank characters and trimming

A character is blank when it has the property `White_Space` of Unicode. Texts that are read as
numbers are trimmed of blanks at both ends first.
-/

namespace Scripting.Text

/-- The characters of `White_Space`, as increasing ranges with both ends. -/
def blanks : List (Nat × Nat) :=
  [(0x9, 0xd), (0x20, 0x20), (0x85, 0x85), (0xa0, 0xa0), (0x1680, 0x1680), (0x2000, 0x200a),
    (0x2028, 0x2029), (0x202f, 0x202f), (0x205f, 0x205f), (0x3000, 0x3000)]

def isBlank (c : Char) : Bool :=
  blanks.any fun (low, high) => low ≤ c.toNat && c.toNat ≤ high

/-- Drop the blanks at the end of a list of characters. -/
def trimEndList (cs : List Char) : List Char := (cs.reverse.dropWhile isBlank).reverse

def trim (s : String) : String := String.ofList (trimEndList (s.toList.dropWhile isBlank))

def trimEnd (s : String) : String := String.ofList (trimEndList s.toList)

end Scripting.Text
