import Quill.SyntaxError
import Quill.Token

/-!
# From text to tokens

`Token.scan` takes one token from the front of a text; `Token.ofText` repeats it up to the end of
the text or its first NUL. A token is a number of characters taken from the front (`Token.take`), so
nothing is dropped on the way.
-/

namespace Quill.Token

/-- The text of a number may hold underscores between the digits. -/
def isDigitPart (c : Char) : Bool := c.isDigit || c == '_'

def isSpace (c : Char) : Bool := c == ' ' || c == '\t' || c == '\r'

def nul : Char := '\x00'

/-- A token at the front of a text: the characters it takes and those it leaves. -/
structure Scanned where
  kind : Kind
  read : List Char
  rest : List Char

/-- Why no token is at the front of a text: what is wrong with `read`, which follows `before`. -/
structure Failure where
  fault : LexFault
  before : List Char
  read : List Char

/-- The part of a name after its first characters: one question mark, or one exclamation mark that
does not start `!=`, belongs to it. -/
def nameSuffix : List Char → List Char
  | '?' :: _ => ['?']
  | '!' :: '=' :: _ => []
  | '!' :: _ => ['!']
  | _ => []

def nameLength (suffixed : Bool) (text : List Char) : Nat :=
  let word := (text.takeWhile continuesName).length
  if suffixed then word + (nameSuffix (text.drop word)).length else word

def take (n : Nat) (text : List Char) (kind : List Char → Kind) : Scanned :=
  let read := text.take n
  ⟨kind read, read, text.drop n⟩

def digitsValue (digits : List Char) : Nat :=
  digits.foldl (fun n c => 10 * n + (c.toNat - '0'.toNat)) 0

def maxInt : Nat := 9223372036854775807

/-- The whole part, and the digits after a point if a digit follows the point. -/
def numberParts (text : List Char) : List Char × Option (List Char) :=
  let whole := text.takeWhile isDigitPart
  match text.drop whole.length with
  | '.' :: d :: rest =>
    if d.isDigit then (whole, some ((d :: rest).takeWhile isDigitPart)) else (whole, none)
  | _ => (whole, none)

def scanNumber (text : List Char) : Except Failure Scanned :=
  match numberParts text with
  | (whole, none) =>
    let digits := whole.filter (· != '_')
    let value := digitsValue digits
    if value ≤ maxInt then
      .ok (take whole.length text fun _ => .int (Int64.ofNat value))
    else .error ⟨.integerOutOfRange (String.ofList digits), [], whole⟩
  | (whole, some fraction) =>
    -- The digits are kept exact and rounded to a float only once.
    let places := fraction.filter (· != '_')
    let value := digitsValue (whole.filter (· != '_') ++ places)
    let x := Decimal.toFloat ⟨value, -(places.length : Int)⟩
    .ok (take (whole.length + 1 + fraction.length) text fun _ => .float x)

def escapeValue : Char → Option Char
  | 'n' => some '\n'
  | 't' => some '\t'
  | 'r' => some '\r'
  | '0' => some '\x00'
  | 'e' => some '\x1b'
  | '\\' => some '\\'
  | '"' => some '"'
  | _ => none

inductive Quotation where
  /-- With a quotation mark: the characters stood for, last one first, and how many were read. -/
  | closed (value : List Char) (length : Nat)
  /-- With the end of the source. -/
  | unterminated (length : Nat)
  /-- With a backslash, after `length` characters, before one that has no escape. -/
  | invalidEscape (length : Nat) (escaped : Char)

/-- Reads up to a double quote; backslashes start escapes. `value` is what the `n` characters read
so far stand for, last one first. -/
def readQuoted (value : List Char) (n : Nat) : List Char → Quotation
  | [] => .unterminated n
  | '"' :: _ => .closed value (n + 1)
  | ['\\'] => .unterminated (n + 1)
  | '\\' :: e :: rest =>
    -- A zero character ends the source, even behind a backslash.
    if e = nul then .unterminated (n + 1)
    else match escapeValue e with
      | some v => readQuoted (v :: value) (n + 2) rest
      | none => .invalidEscape n e
  | c :: rest => if c = nul then .unterminated n else readQuoted (c :: value) (n + 1) rest

/-- Reads up to a single quote; a backslash counts only before a quote or another backslash. -/
def readRaw (value : List Char) (n : Nat) : List Char → Quotation
  | [] => .unterminated n
  | '\'' :: _ => .closed value (n + 1)
  | '\\' :: '\'' :: rest => readRaw ('\'' :: value) (n + 2) rest
  | '\\' :: '\\' :: rest => readRaw ('\\' :: value) (n + 2) rest
  | c :: rest => if c = nul then .unterminated n else readRaw (c :: value) (n + 1) rest

def scanString (text : List Char) : Quotation → Except Failure Scanned
  | .closed value n => .ok (take (n + 1) text fun _ => .str (String.ofList value.reverse))
  | .unterminated n => .error ⟨.unterminatedString, [], text.take (n + 1)⟩
  | .invalidEscape n e => .error ⟨.invalidEscape e, text.take (n + 1), ['\\', e]⟩

/-- The marks, longest spellings first. The colon is missing: it may start a symbol. -/
def marksByLength : List Mark :=
  [.andAndAssign, .orOrAssign, .minusAt, .andAnd, .orOr, .lessEqual, .greaterEqual, .equalEqual,
    .bangEqual, .matchOp, .plusAssign, .minusAssign, .starAssign, .slashAssign, .percentAssign,
    .plus, .minus, .star, .slash, .percent, .less, .greater, .assign, .bang, .amp, .pipe, .comma,
    .dot, .semicolon, .lParen, .rParen, .lBracket, .rBracket, .lBrace, .rBrace]

/-- `m` is spelled at the front of `text`. A minus before an attribute is not the name `-@`. -/
def marks (text : List Char) (m : Mark) : Bool :=
  m.text.toList.isPrefixOf text &&
    (m != .minusAt || !(text.drop 2).head?.any startsName)

def scanMark (c : Char) (text : List Char) : Except Failure Scanned :=
  match marksByLength.find? (marks text) with
  | some m => .ok (take m.text.length text fun _ => .mark m)
  | none => .error ⟨.unexpectedCharacter (Text.escapeAlone c), [], [c]⟩

def nameKind (read : List Char) : Kind :=
  let name := String.ofList read
  match Keyword.ofText? name with
  | some k => .keyword k
  | none => .identifier name

def markedName (read : List Char) : String := String.ofList (read.drop 1)

def scan (c : Char) (rest : List Char) : Except Failure Scanned :=
  let text := c :: rest
  if isSpace c then .ok (take (text.takeWhile isSpace).length text fun _ => .whitespace)
  else if c = '\n' then .ok (take 1 text fun _ => .newline)
  else if c = '#' then
    .ok (take (text.takeWhile fun d => d != '\n' && d != nul).length text
      fun read => .comment (String.ofList read))
  else if c.isDigit then scanNumber text
  else if c = '"' then scanString text (readQuoted [] 0 rest)
  else if c = '\'' then scanString text (readRaw [] 0 rest)
  else if c = '@' then
    if rest.head?.any startsName then
      .ok (take (1 + nameLength true rest) text fun read => .attr (markedName read))
    else .error ⟨.namelessAttribute, [], ['@']⟩
  else if c = ':' then
    -- A colon without a name behind it is a mark.
    if rest.head?.any fun d => d.isAlpha || d == '_' then
      .ok (take (1 + nameLength true rest) text fun read => .symbol (markedName read))
    else .ok (take 1 text fun _ => .mark .colon)
  else if startsName c then .ok (take (1 + nameLength true rest) text nameKind)
  else if c.isUpper then
    -- The name of a constant ends in no question or exclamation mark.
    .ok (take (1 + nameLength false rest) text fun read => .constant (String.ofList read))
  else scanMark c text

structure Stream where
  tokens : Array Token
  error : Option LexError
  deriving Inhabited

/-- Adds the tokens of `text`, which starts at `p`, to those before it. `fuel` counts the tokens
still allowed. -/
def scanAll (done : Array Token) (p : Position) : Nat → List Char → Stream
  | 0, _ => ⟨done, none⟩
  | _ + 1, [] => ⟨done.push ⟨.eof, "", .point p⟩, none⟩
  | fuel + 1, c :: rest =>
    if c = nul then ⟨done.push ⟨.eof, "", .point p⟩, none⟩
    else match scan c rest with
      | .ok s => scanAll (done.push ⟨s.kind, String.ofList s.read, .ofText p s.read⟩)
          (p.after s.read) fuel s.rest
      | .error f => ⟨done, some ⟨f.fault, .ofText (p.after f.before) f.read⟩⟩

/-- The tokens of a text: as a token takes at least one character, there are no more of them than
characters, and the end. -/
def ofText (text : String) : Stream :=
  let chars := text.toList
  scanAll #[] .start (chars.length + 1) chars

def ofText? (text : String) : Except LexError (Array Token) :=
  match ofText text with
  | ⟨tokens, none⟩ => .ok tokens
  | ⟨_, some e⟩ => .error e

end Quill.Token
