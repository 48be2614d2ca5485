/-!
# Occurrences of one text in another

Occurrences of a separator are taken from the left and do not overlap. Texts are lists of
characters.
-/

namespace Quill.Text

def occursIn (part : List Char) : List Char → Bool
  | [] => part.isEmpty
  | c :: rest => part.isPrefixOf (c :: rest) || occursIn part rest

/-- The pieces of a text between the occurrences of a separator, after those in `done` and the
beginning `piece` of the next one, both last one first. The next `skip` characters belong to an
occurrence. -/
def splitFrom (separator : List Char) (done : List (List Char)) (piece : List Char) :
    Nat → List Char → List (List Char)
  | _, [] => (piece.reverse :: done).reverse
  | skip + 1, _ :: rest => splitFrom separator done piece skip rest
  | 0, c :: rest =>
    if separator.isPrefixOf (c :: rest) then
      splitFrom separator (piece.reverse :: done) [] (separator.length - 1) rest
    else splitFrom separator done (c :: piece) 0 rest

/-- The pieces of a text between the occurrences of a separator; the single characters if the
separator is empty. -/
def split (separator text : List Char) : List (List Char) :=
  if separator.isEmpty then text.map ([·]) else splitFrom separator [] [] 0 text

/-- The place that an index means in something of the given length: negative ones count from the
end. -/
def place? (length : Nat) (index : Int) : Option Nat :=
  let i := if index < 0 then length + index else index
  if i < 0 then none else some i.toNat

end Quill.Text
