import Quill.Expr
import Quill.SyntaxError

/-!
# Reading a list of tokens

The grammar sees the tokens without white space and comments, except that the comment lines right
above a definition are kept with it as its documentation. A cursor stands before one of these
tokens, and a `Parse` moves it forward or fails.
-/

namespace Quill.Grammar

theorem eq_of_beq_mark {k : Token.Kind} {m : Mark} (h : (k == .mark m) = true) : k = .mark m := by
  cases k with
  | mark m' =>
    have heq : (m' == m) = true := h
    rw [beq_iff_eq.mp heq]
  | _ => cases h

theorem eq_of_beq_keyword {k : Token.Kind} {w : Keyword} (h : (k == .keyword w) = true) :
    k = .keyword w := by
  cases k with
  | keyword w' =>
    have heq : (w' == w) = true := h
    rw [beq_iff_eq.mp heq]
  | _ => cases h

theorem eq_of_beq_eof {k : Token.Kind} (h : (k == .eof) = true) : k = .eof := by
  cases k with
  | eof => rfl
  | _ => cases h

theorem bne_eof_iff {k : Token.Kind} : (k != .eof) = true ↔ k ≠ .eof := by
  cases k <;> first | exact ⟨nofun, fun h ↦ absurd rfl h⟩ | exact ⟨fun _ ↦ nofun, fun _ ↦ rfl⟩

/-- A token that counts, with the documentation above it. -/
structure Cell where
  kind : Token.Kind
  span : Span
  doc : Option String
  deriving Inhabited, Repr

/-- A comment's text without the number sign and at most one blank after it. -/
def commentText (text : String) : String :=
  match text.toList with
  | '#' :: ' ' :: rest | '#' :: rest => String.ofList rest
  | rest => String.ofList rest

/-- What the current line holds, and the comment lines that may document what follows; the latest
line comes first. -/
structure Margin where
  comments : List String
  hasCode : Bool
  hasComment : Bool

namespace Margin

def empty : Margin := ⟨[], false, false⟩

/-- A comment documents what follows when it has its line for itself. -/
def comment (m : Margin) (text : String) : Margin :=
  { m with comments := if m.hasCode then m.comments else commentText text :: m.comments
           hasComment := true }

/-- An empty line parts the comments above it from what follows. -/
def newline (m : Margin) : Margin :=
  { m with comments := if m.hasCode || m.hasComment then m.comments else []
           hasCode := false
           hasComment := false }

/-- The documentation of a token: only a definition that starts its line has any. -/
def doc (m : Margin) (kind : Token.Kind) : Option String :=
  match kind with
  | .keyword .def_ | .keyword .type | .keyword .module =>
    if m.hasCode || m.comments.isEmpty then none
    else some ("\n".intercalate m.comments.reverse)
  | _ => none

def code (m : Margin) : Margin := { m with comments := [], hasCode := true }

end Margin

/-- Adds the tokens that count to those before them, which are given last one first. -/
def cellsOnto (done : List Cell) (m : Margin) : List Token → List Cell
  | [] => done.reverse
  | t :: rest =>
    match t.kind with
    | .whitespace => cellsOnto done m rest
    | .comment text => cellsOnto done (m.comment text) rest
    | .newline => cellsOnto (⟨t.kind, t.span, none⟩ :: done) m.newline rest
    | kind => cellsOnto (⟨kind, t.span, m.doc kind⟩ :: done) m.code rest

def cells (tokens : List Token) : List Cell := cellsOnto [] .empty tokens

structure Cursor where
  rest : List Cell
  previous : Span
  stop : Span
  /-- More than the number of all tokens. -/
  limit : Nat
  deriving Inhabited

namespace Cursor

/-- A cursor before the first of the tokens. Nothing is read from the end of file on, which needs
no token of its own: without one the program ends where its last token stands. -/
def ofTokens (tokens : List Token) : Cursor :=
  let all := cells tokens
  let stop := match (all.find? (·.kind == .eof)).or all.getLast? with
    | some c => c.span
    | none => .origin
  ⟨all.takeWhile (·.kind != .eof), .origin, stop, all.length + 1⟩

theorem ofTokens_limit (tokens : List Token) :
    (ofTokens tokens).rest.length < (ofTokens tokens).limit :=
  Nat.lt_succ_of_le (List.takeWhile_prefix _).length_le

def kind (c : Cursor) : Token.Kind :=
  match c.rest with
  | [] => .eof
  | t :: _ => t.kind

def second (c : Cursor) : Token.Kind :=
  match c.rest with
  | _ :: t :: _ => t.kind
  | _ => .eof

def third (c : Cursor) : Token.Kind :=
  match c.rest with
  | _ :: _ :: t :: _ => t.kind
  | _ => .eof

def span (c : Cursor) : Span :=
  match c.rest with
  | [] => c.stop
  | t :: _ => t.span

def doc (c : Cursor) : Option String :=
  match c.rest with
  | [] => none
  | t :: _ => t.doc

def next (c : Cursor) : Cursor :=
  match c.rest with
  | [] => c
  | t :: rest => { c with rest := rest, previous := t.span }

theorem next_kind (c : Cursor) : c.next.kind = c.second := by
  obtain ⟨rest, _, _, _⟩ := c
  obtain _ | ⟨_, _ | ⟨_, _⟩⟩ := rest <;> rfl

theorem next_second (c : Cursor) : c.next.second = c.third := by
  obtain ⟨rest, _, _, _⟩ := c
  obtain _ | ⟨_, _ | ⟨_, _ | ⟨_, _⟩⟩⟩ := rest <;> rfl

def skipNewlines (c : Cursor) : Cursor :=
  go c.rest c.previous
where
  go (rest : List Cell) (previous : Span) : Cursor :=
    match rest with
    | [] => { c with rest := [], previous := previous }
    | t :: more =>
      match t.kind with
      | .newline => go more t.span
      | _ => { c with rest := rest, previous := previous }

def isSeparator : Token.Kind → Bool
  | .newline | .mark .semicolon => true
  | _ => false

/-- Before the next token that is neither a line break nor a semicolon. -/
def skipSeparators (c : Cursor) : Cursor :=
  go c.rest c.previous
where
  go (rest : List Cell) (previous : Span) : Cursor :=
    match rest with
    | [] => { c with rest := [], previous := previous }
    | t :: more =>
      if isSeparator t.kind then go more t.span
      else { c with rest := rest, previous := previous }

def unexpected (c : Cursor) (expected : Expected) : ParseError := ⟨expected, .token c.kind, c.span⟩

end Cursor

abbrev Parse (α : Type) := StateT Cursor (Except ParseError) α

namespace Parse

variable {α β : Type}

def kind : Parse Token.Kind := return (← get).kind

def span : Parse Span := return (← get).span

def previous : Parse Span := return (← get).previous

def failAt (expected : Expected) (found : Found) (span : Span) : Parse α :=
  throw ⟨expected, found, span⟩

def unexpected (expected : Expected) : Parse α := do throw ((← get).unexpected expected)

def advance : Parse Span := fun c => .ok (c.span, c.next)

def eat (kind : Token.Kind) : Parse Bool := fun c =>
  if c.kind == kind then .ok (true, c.next) else .ok (false, c)

def eatMark (m : Mark) : Parse Bool := eat (.mark m)

def eatKeyword (k : Keyword) : Parse Bool := eat (.keyword k)

def expect (m : Mark) : Parse Span := do
  if (← kind) == .mark m then advance else unexpected (.token (.mark m))

def atMark (m : Mark) : Parse Bool := return (← kind) == .mark m

def atKeyword (k : Keyword) : Parse Bool := return (← kind) == .keyword k

def skipNewlines : Parse Unit := modify Cursor.skipNewlines

def skipSeparators : Parse Unit := modify Cursor.skipSeparators

def separator : Parse Unit := do
  if Cursor.isSeparator (← kind) then skipSeparators else unexpected .separator

def identifier : Parse Ident := do
  match ← kind with
  | .identifier name => return ⟨name, ← advance⟩
  | _ => unexpected .identifier

def constantName : Parse Ident := do
  match ← kind with
  | .constant name => return ⟨name, ← advance⟩
  | _ => unexpected .constantName

def endOf (construct : Keyword) : Parse Span := do
  if ← atKeyword .end_ then advance else unexpected (.endOf construct)

/-- Repeats `step` until it gives a result, `n` times at most. -/
def repeatUpTo (step : α → Parse (α ⊕ β)) : Nat → α → Parse β
  | 0, _ => unexpected .progress
  | n + 1, a => do
    match ← step a with
    | .inl a => repeatUpTo step n a
    | .inr b => return b

/-- Repeats `step` until it gives a result. As every step but the last reads a token, the number of
tokens bounds the repetition. -/
def iterate (step : α → Parse (α ⊕ β)) (a : α) : Parse β := do
  repeatUpTo step (← get).limit a

end Parse

end Quill.Grammar
