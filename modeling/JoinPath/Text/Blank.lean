/-!
# Blanks

White space in the sense of Unicode, and the removal of it at the ends of a text.
-/

namespace JoinPath.Text

/-- The characters of Unicode's property `White_Space`. -/
def isBlank (c : Char) : Bool :=
  let n := c.toNat
  (0x9 ≤ n && n ≤ 0xd) || n == 0x20 || n == 0x85 || n == 0xa0 || n == 0x1680
    || (0x2000 ≤ n && n ≤ 0x200a) || n == 0x2028 || n == 0x2029 || n == 0x202f || n == 0x205f
    || n == 0x3000

def trimLeft (text : List Char) : List Char := text.dropWhile isBlank

def trimRight (text : List Char) : List Char := (text.reverse.dropWhile isBlank).reverse

/-- Takes the blanks off both ends. -/
def trim (text : List Char) : List Char := trimRight (trimLeft text)

@[simp] theorem trimLeft_of_not_blank {c : Char} (h : isBlank c = false) (text : List Char) :
    trimLeft (c :: text) = c :: text := by simp [trimLeft, h]

end JoinPath.Text
