import Quill.Token

/-!
# Patterns and parameter lists

A pattern describes values and names parts of them. Parameter lists, destructuring, `case` arms and
`rescue` clauses are made of patterns.
-/

namespace Quill

inductive Literal where
  | nil
  | bool (value : Bool)
  | int (value : Int64)
  | float (value : Float)
  | str (value : String)
  | symbol (name : String)
  deriving BEq, Inhabited, Repr

namespace Literal

def text : Literal → String
  | nil => "nil"
  | bool b => toString b
  | int n => toString n.toInt
  | float x => FloatNotation.plain.write x
  | str s => Text.quote s
  | symbol s => ":" ++ s

end Literal

structure Ident where
  name : String
  span : Span
  deriving DecidableEq, Inhabited, Repr

/-- Constants joined by dots, such as `Geo.Point`. -/
structure TypePath where
  segments : List Ident
  span : Span
  deriving DecidableEq, Inhabited, Repr

namespace TypePath

def text (p : TypePath) : String := ".".intercalate (p.segments.map (·.name))

end TypePath

inductive Pattern where
  /-- Matches everything and binds nothing. -/
  | wildcard (span : Span)
  /-- Binds a name, to a value of the given type if there is one. -/
  | bind (name : Ident) (type : Option TypePath)
  /-- The values of a type or module, or those equal to any other constant. -/
  | const (path : TypePath)
  | literal (value : Literal) (span : Span)
  | list (items : List Pattern) (span : Span)
  /-- The items of a list that no other pattern beside it takes. -/
  | splat (name : Option Ident) (span : Span)
  deriving Inhabited, Repr

namespace Pattern

def span : Pattern → Span
  | wildcard s | literal _ s | list _ s | splat _ s => s
  | bind name none => name.span
  | bind name (some path) => name.span.merge path.span
  | const path => path.span

def isSplat : Pattern → Bool
  | splat .. => true
  | _ => false

/-- Whether two patterns match the same values, whatever they bind. -/
def sameShape : Pattern → Pattern → Bool
  | wildcard _, wildcard _ | wildcard _, bind _ none | bind _ none, wildcard _
  | bind _ none, bind _ none => true
  | bind _ (some a), bind _ (some b) | const a, const b => a.text == b.text
  | literal a _, literal b _ => a == b
  | list as _, list bs _ => same as bs
  | splat .., splat .. => true
  | _, _ => false
where
  same : List Pattern → List Pattern → Bool
    | [], [] => true
    | a :: as, b :: bs => sameShape a b && same as bs
    | _, _ => false

def names : Pattern → List String
  | bind name _ | splat (some name) _ => [name.name]
  | list items _ => all items
  | _ => []
where
  all : List Pattern → List String
    | [] => []
    | p :: ps => names p ++ all ps

def text : Pattern → String
  | wildcard _ => "_"
  | bind name none => name.name
  | bind name (some path) => name.name ++ ": " ++ path.text
  | const path => path.text
  | literal value _ => value.text
  | list items _ => "[" ++ ", ".intercalate (texts items) ++ "]"
  | splat (some name) _ => "*" ++ name.name
  | splat none _ => "*"
where
  texts : List Pattern → List String
    | [] => []
    | p :: ps => text p :: texts ps

end Pattern

/-- The parameters of a method or block: patterns, at most one of them a splat, and a name for the
block that comes with a call. -/
structure Params where
  items : List Pattern
  block : Option Ident
  deriving Inhabited, Repr

namespace Params

def none : Params := ⟨[], .none⟩

def required (p : Params) : Nat := p.items.countP (!·.isSplat)

def isVariadic (p : Params) : Bool := p.items.any (·.isSplat)

/-- Whether both take the same arguments. The block does not count. -/
def sameShape (p q : Params) : Bool := Pattern.sameShape.same p.items q.items

def text (p : Params) : String :=
  let block := match p.block with
    | some b => ["&" ++ b.name]
    | .none => []
  "(" ++ ", ".intercalate (p.items.map Pattern.text ++ block) ++ ")"

end Params

end Quill
