/-! # Blank characters

The characters of Unicode's `White_Space` property, and the removal of blanks from both ends of a
text. Removal never reaches inside: what is left starts and ends with a character that is not
blank.
-/
namespace NativeBridge.Text

def isBlank (c : Char) : Bool :=
  let n := c.toNat
  (0x09 ≤ n && n ≤ 0x0d) || n == 0x20 || n == 0x85 || n == 0xa0 || n == 0x1680 ||
    (0x2000 ≤ n && n ≤ 0x200a) || n == 0x2028 || n == 0x2029 || n == 0x202f ||
    n == 0x205f || n == 0x3000

def dropBlanksAtEnd (cs : List Char) : List Char := (cs.reverse.dropWhile isBlank).reverse

def trim (cs : List Char) : List Char := dropBlanksAtEnd (cs.dropWhile isBlank)

@[simp] theorem trim_nil : trim [] = [] := rfl

end NativeBridge.Text
