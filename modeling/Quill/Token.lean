import Quill.Decimal.Notation
import Quill.Position
import Quill.Text.Quoted

/-!
# Tokens

The words of a program: literals with their values, names, keywords, operators and punctuation, and
the white space, line breaks and comments between them. A token keeps the exact text it was read
from, so the tokens of a source spell it out again.
-/

namespace Quill

inductive Keyword where
  | def_ | end_ | type | module | include_ | if_ | elsif | else_ | while_ | for_ | in_ | do_
  | case | when | begin_ | rescue | ensure | raise | return_ | break_ | next | yield | super
  | self | nil | true_ | false_
  deriving DecidableEq, Inhabited, Repr

namespace Keyword

def text : Keyword → String
  | def_ => "def" | end_ => "end" | type => "type" | module => "module" | include_ => "include"
  | if_ => "if" | elsif => "elsif" | else_ => "else" | while_ => "while" | for_ => "for"
  | in_ => "in" | do_ => "do" | case => "case" | when => "when" | begin_ => "begin"
  | rescue => "rescue" | ensure => "ensure" | raise => "raise" | return_ => "return"
  | break_ => "break" | next => "next" | yield => "yield" | super => "super" | self => "self"
  | nil => "nil" | true_ => "true" | false_ => "false"

def all : List Keyword :=
  [def_, end_, type, module, include_, if_, elsif, else_, while_, for_, in_, do_, case, when,
    begin_, rescue, ensure, raise, return_, break_, next, yield, super, self, nil, true_, false_]

def ofText? (word : String) : Option Keyword := all.find? (·.text == word)

theorem mem_all (k : Keyword) : k ∈ all := by cases k <;> decide

theorem ofText?_text (k : Keyword) : ofText? k.text = some k := by cases k <;> decide

end Keyword

inductive Mark where
  | plus | minus | star | slash | percent
  /-- The name of the unary minus, which stands only where a method is named. -/
  | minusAt
  | less | lessEqual | equalEqual | bangEqual | greaterEqual | greater
  | andAnd | orOr | bang | matchOp
  | assign | plusAssign | minusAssign | starAssign | slashAssign | percentAssign
  | andAndAssign | orOrAssign
  | comma | dot | colon | semicolon | amp | pipe
  | lParen | rParen | lBracket | rBracket | lBrace | rBrace
  deriving DecidableEq, Inhabited, Repr

namespace Mark

def text : Mark → String
  | plus => "+" | minus => "-" | star => "*" | slash => "/" | percent => "%" | minusAt => "-@"
  | less => "<" | lessEqual => "<=" | equalEqual => "==" | bangEqual => "!="
  | greaterEqual => ">=" | greater => ">" | andAnd => "&&" | orOr => "||" | bang => "!"
  | matchOp => "=:" | assign => "=" | plusAssign => "+=" | minusAssign => "-="
  | starAssign => "*=" | slashAssign => "/=" | percentAssign => "%=" | andAndAssign => "&&="
  | orOrAssign => "||=" | comma => "," | dot => "." | colon => ":" | semicolon => ";"
  | amp => "&" | pipe => "|" | lParen => "(" | rParen => ")" | lBracket => "[" | rBracket => "]"
  | lBrace => "\x7b" | rBrace => "\x7d"

def all : List Mark :=
  [plus, minus, star, slash, percent, minusAt, less, lessEqual, equalEqual, bangEqual,
    greaterEqual, greater, andAnd, orOr, bang, matchOp, assign, plusAssign, minusAssign,
    starAssign, slashAssign, percentAssign, andAndAssign, orOrAssign, comma, dot, colon,
    semicolon, amp, pipe, lParen, rParen, lBracket, rBracket, lBrace, rBrace]

theorem mem_all (m : Mark) : m ∈ all := by cases m <;> decide

end Mark

namespace Token

/-- Names of variables, methods and attributes start with a small letter or an underscore. -/
def startsName (c : Char) : Bool := c.isLower || c == '_'

def continuesName (c : Char) : Bool := c.isAlphanum || c == '_'

/-- What a token is. Literals carry the value they stand for, names their text. -/
inductive Kind where
  | int (value : Int64)
  | float (value : Float)
  | str (value : String)
  | symbol (name : String)
  | identifier (name : String)
  | constant (name : String)
  | attr (name : String)
  | keyword (word : Keyword)
  | mark (mark : Mark)
  /-- A run of spaces, tabs and carriage returns. -/
  | whitespace
  | newline
  /-- From a number sign to the end of the line. -/
  | comment (text : String)
  | eof
  deriving BEq, Inhabited, Repr

namespace Kind

/-- White space and comments are in the stream of tokens, but the grammar passes over them. -/
def isTrivia : Kind → Bool
  | whitespace | comment _ => true
  | _ => false

def shown : Kind → String
  | int n => toString n.toInt
  | float x => FloatNotation.plain.write x
  | str s => Text.quote s
  | symbol s => ":" ++ s
  | identifier s | constant s => s
  | attr s => "@" ++ s
  | keyword k => "'" ++ k.text ++ "'"
  | mark m => "'" ++ m.text ++ "'"
  | whitespace => "whitespace"
  | newline => "newline"
  | comment _ => "comment"
  | eof => "end of file"

end Kind

end Token

/-- A token, the text it was read from and where that text stands. -/
structure Token where
  kind : Token.Kind
  lexeme : String
  span : Span
  deriving BEq, Inhabited, Repr

end Quill
