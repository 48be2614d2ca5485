/-!
# White space

The characters that separate words: the line and column controls, the spaces of all widths, and the
line and paragraph separators. A zero-width space is none of them.
-/

namespace Quill.Text

def isBlank (c : Char) : Bool :=
  let n := c.toNat
  (0x09 ≤ n && n ≤ 0x0D) || n == 0x20 || n == 0x85 || n == 0xA0 || n == 0x1680 ||
    (0x2000 ≤ n && n ≤ 0x200A) || n == 0x2028 || n == 0x2029 || n == 0x202F || n == 0x205F ||
    n == 0x3000

def strip (text : List Char) : List Char :=
  ((text.dropWhile isBlank).reverse.dropWhile isBlank).reverse

def consWord (c : Char) : List (List Char) → List (List Char)
  | [] => [[c]]
  | w :: ws =>
    if isBlank c then if w.isEmpty then [] :: ws else [] :: w :: ws else (c :: w) :: ws

/-- The longest pieces of a text that hold no white space. -/
def words (text : List Char) : List (List Char) :=
  (text.foldr consWord [[]]).filter (! ·.isEmpty)

end Quill.Text
