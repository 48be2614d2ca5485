import Quill.Position

/-!
# Source files

The named text of one program, read line by line. Line breaks are line feeds; carriage returns at
the end of a line belong to the break, not to the line.
-/

namespace Quill

structure SourceFile where
  name : String
  content : String
  deriving Inhabited, Repr

namespace SourceFile

def inline (content : String) : SourceFile := ⟨"<inline>", content⟩

def consLine (c : Char) : List (List Char) → List (List Char)
  | [] => [[c]]
  | l :: ls => if c = '\n' then [] :: l :: ls else (c :: l) :: ls

/-- The pieces of a text between its line feeds; there is always at least one. -/
def splitLines (text : List Char) : List (List Char) := text.foldr consLine [[]]

def trimReturns (line : List Char) : List Char :=
  (line.reverse.dropWhile (· == '\r')).reverse

def lines (f : SourceFile) : List String :=
  (splitLines f.content.toList).map (String.ofList ∘ trimReturns)

def lineCount (f : SourceFile) : Nat := f.lines.length

def line? (f : SourceFile) : Nat → Option String
  | 0 => none
  | n + 1 => f.lines[n]?

/-- The place `name:line:column`, followed by the line it lies on when the source has that line. -/
def excerpt (f : SourceFile) (span : Span) : String :=
  let place := f.name ++ ":" ++ span.text
  match f.line? span.line with
  | some l => place ++ "\n  | " ++ l
  | none => place

theorem splitLines_ne_nil (text : List Char) : splitLines text ≠ [] := by
  cases text with
  | nil => simp [splitLines]
  | cons c rest =>
    rw [splitLines, List.foldr_cons, consLine.eq_def]
    split
    · simp
    · split <;> simp

end SourceFile

end Quill
