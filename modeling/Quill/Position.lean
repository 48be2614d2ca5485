/-!
# Positions and spans

A position is a 1-based line and column, columns counted in characters. A span runs from the first
character of a piece of text to its last one. `Position.after` says where a text ends that starts at
a given position, so the positions of a source are a function of its text alone.
-/

namespace Quill

/-- A 1-based line and column. -/
structure Position where
  line : Nat
  column : Nat
  deriving DecidableEq, Inhabited, Repr

namespace Position

def start : Position := ⟨1, 1⟩

def before (p q : Position) : Bool :=
  p.line < q.line || (p.line == q.line && p.column < q.column)

def min (p q : Position) : Position := if q.before p then q else p

def max (p q : Position) : Position := if p.before q then q else p

/-- The position after the character `c`: a line feed starts the next line. -/
def next (p : Position) (c : Char) : Position :=
  if c = '\n' then ⟨p.line + 1, 1⟩ else ⟨p.line, p.column + 1⟩

def after (p : Position) (text : List Char) : Position := text.foldl next p

/-- The column to the left of `p`, never less than 1. -/
def back (p : Position) : Position := ⟨p.line, Nat.max 1 (p.column - 1)⟩

/-- The column to the right of `p`. Columns have 32 bits, so there is none next to the last one. -/
def nextColumn (p : Position) : Position := ⟨p.line, p.column + 1⟩

def text (p : Position) : String := toString p.line ++ ":" ++ toString p.column

@[simp] theorem after_nil (p : Position) : p.after [] = p := rfl

@[simp] theorem after_cons (p : Position) (c : Char) (cs : List Char) :
    p.after (c :: cs) = (p.next c).after cs := rfl

theorem after_append (p : Position) (s t : List Char) :
    p.after (s ++ t) = (p.after s).after t := List.foldl_append

end Position

/-- From the first character of a piece of text to its last one. -/
structure Span where
  first : Position
  last : Position
  deriving DecidableEq, Inhabited, Repr

namespace Span

def point (p : Position) : Span := ⟨p, p⟩

def origin : Span := point .start

def ofText (p : Position) (read : List Char) : Span := ⟨p, (p.after read).back⟩

/-- The smallest span that covers both. -/
def merge (a b : Span) : Span := ⟨a.first.min b.first, a.last.max b.last⟩

def line (s : Span) : Nat := s.first.line

def text (s : Span) : String := s.first.text

end Span

end Quill
