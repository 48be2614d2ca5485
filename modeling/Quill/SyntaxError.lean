import Quill.Token

/-!
# Syntax errors

Why a text is no program: a piece of it is no token, or a token stands where the grammar wants
another. Reading stops at the first such place.
-/

namespace Quill

inductive LexFault where
  /-- No token starts with this character, which is given as it is shown. -/
  | unexpectedCharacter (shown : String)
  /-- No name follows an at sign. -/
  | namelessAttribute
  | integerOutOfRange (digits : String)
  | unterminatedString
  /-- A backslash in a string before a character that has no escape. Its first byte is shown. -/
  | invalidEscape (escaped : Char)
  deriving DecidableEq, Inhabited, Repr

namespace LexFault

/-- The first byte of a character's encoding, taken for a character. -/
def firstByte (c : Char) : Char :=
  match String.utf8EncodeChar c with
  | b :: _ => Char.ofNat b.toNat
  | [] => c

def text : LexFault → String
  | unexpectedCharacter shown => "unexpected character '" ++ shown ++ "'"
  | namelessAttribute => "expected attribute name after '@'"
  | integerOutOfRange digits => "integer literal '" ++ digits ++ "' is out of range"
  | unterminatedString => "unterminated string literal"
  | invalidEscape c => "invalid escape sequence '\\" ++ (firstByte c).toString ++ "'"

end LexFault

structure LexError where
  fault : LexFault
  span : Span
  deriving DecidableEq, Inhabited, Repr

namespace LexError

def text (e : LexError) : String := e.span.text ++ ": " ++ e.fault.text

end LexError

inductive Expected where
  | token (kind : Token.Kind)
  | separator
  | expression
  | expressionOrEnd
  | pattern
  | identifier
  | constantName
  | methodName
  /-- The end of a construct, which is given by the word that starts it. -/
  | endOf (construct : Keyword)
  /-- At least one choice of a `case`. -/
  | choice
  | numberAfterMinus
  | singleSplatInPattern
  | singleSplatParameter
  /-- The block parameter is the last one before the closing mark. -/
  | afterBlockParameter (closing : Mark)
  /-- The block argument is the last one before the closing mark. -/
  | afterBlockArgument (closing : Mark)
  | assignable
  | unchainedEquality
  | indexArgument
  | listElement
  | yieldArgument
  | singleBlock
  /-- The grammar went round without reading a token. No program makes it do so. -/
  | progress
  deriving BEq, Inhabited, Repr

namespace Expected

def text : Expected → String
  | token k => k.shown
  | separator => "newline or ';'"
  | expression => "expression"
  | expressionOrEnd => "expression or end of file"
  | pattern => "pattern"
  | identifier => "identifier"
  | constantName => "constant name"
  | methodName => "method name"
  | endOf construct => "'end' to close '" ++ construct.text ++ "'"
  | choice => "'when'"
  | numberAfterMinus => "number after '-' in pattern"
  | singleSplatInPattern => "at most one splat per list pattern"
  | singleSplatParameter => "at most one splat parameter"
  | afterBlockParameter closing => (Token.Kind.mark closing).shown ++ " after block parameter"
  | afterBlockArgument closing => (Token.Kind.mark closing).shown ++ " after block argument"
  | assignable => "assignable expression"
  | unchainedEquality => "end of expression (equality operators do not chain)"
  | indexArgument => "index argument"
  | listElement => "list element"
  | yieldArgument => "yield argument"
  | singleBlock => "a single block"
  | progress => "progress"

end Expected

inductive Found where
  | token (kind : Token.Kind)
  | methodCall
  | expression
  | blockArgument
  | secondBlock
  | splatOutsideList
  deriving BEq, Inhabited, Repr

namespace Found

def text : Found → String
  | token k => k.shown
  | methodCall => "method call"
  | expression => "expression"
  | blockArgument => "'&'"
  | secondBlock => "second block"
  | splatOutsideList => "'*' outside a list pattern"

end Found

structure ParseError where
  expected : Expected
  found : Found
  span : Span
  deriving BEq, Inhabited, Repr

namespace ParseError

def text (e : ParseError) : String :=
  e.span.text ++ ": expected " ++ e.expected.text ++ ", found " ++ e.found.text

end ParseError

inductive SyntaxError where
  | lex (error : LexError)
  | parse (error : ParseError)
  deriving BEq, Inhabited, Repr

namespace SyntaxError

def span : SyntaxError → Span
  | lex e => e.span
  | parse e => e.span

def text : SyntaxError → String
  | lex e => "lex error at " ++ e.text
  | parse e => "parse error at " ++ e.text

end SyntaxError

end Quill
