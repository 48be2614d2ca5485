import Quill.Pattern

namespace Quill

/-- Operators between two operands that call a method of the left one. -/
inductive Operator where
  | add | sub | mul | div | mod | eq | notEq | less | lessEq | greater | greaterEq
  deriving DecidableEq, Inhabited, Repr

namespace Operator

def text : Operator → String
  | add => "+" | sub => "-" | mul => "*" | div => "/" | mod => "%" | eq => "==" | notEq => "!="
  | less => "<" | lessEq => "<=" | greater => ">" | greaterEq => ">="

def method : Operator → String
  | notEq => "=="
  | op => op.text

end Operator

inductive PrefixOp where
  | neg | not
  deriving DecidableEq, Inhabited, Repr

/-- Connectives that may leave their right operand unevaluated. -/
inductive Connective where
  | and | or
  deriving DecidableEq, Inhabited, Repr

inductive Compound where
  | arith (op : Operator)
  | logic (op : Connective)
  deriving DecidableEq, Inhabited, Repr

inductive Jump where
  | raise | return_ | break_ | next
  deriving DecidableEq, Inhabited, Repr

inductive TypeSort where
  | type | module
  deriving DecidableEq, Inhabited, Repr

namespace TypeSort

def text : TypeSort → String
  | type => "type"
  | module => "module"

end TypeSort

mutual

structure Expr where
  kind : Expr.Kind
  span : Span

inductive Expr.Kind where
  | literal (value : Literal)
  | list (items : List Expr)
  | self
  /-- A variable, or a call without arguments on the current object. -/
  | name (name : String)
  | constant (name : String)
  | attr (name : String)
  /-- A call, on the current object if no receiver is given. -/
  | call (receiver : Option Expr) (method : Ident) (args : List Expr) (block : Option BlockArg)
  /-- Without arguments of its own it passes on those of the current method. -/
  | super (args : Option (List Expr)) (block : Option BlockArg)
  | yield (args : List Expr)
  | block (block : Block)
  | binary (op : Operator) (left right : Expr)
  | unary (op : PrefixOp) (operand : Expr)
  | logical (op : Connective) (left right : Expr)
  | fits (value : Expr) (pattern : Pattern)
  | assign (target : Target) (value : Expr)
  | compound (op : Compound) (target : Target) (value : Expr)
  | destructure (pattern : Pattern) (value : Expr)
  | cond (span : Span) (condition : Expr) (thenBody : List Expr) (elseBody : Option (List Expr))
  | loop (span : Span) (condition : Expr) (body : List Expr)
  | forEach (span : Span) (pattern : Pattern) (items : Expr) (body : List Expr)
  | select (span : Span) (subject : Expr) (arms : List Arm) (elseBody : Option (List Expr))
  | protect (body : Body)
  | jump (jump : Jump) (value : Option Expr)
  | method (definition : MethodDef)
  | type (definition : TypeDef)
  | include_ (module : Expr)

inductive BlockArg where
  /-- Written after the call. -/
  | literal (block : Block)
  /-- The value of an expression among the arguments. -/
  | pass (value : Expr)

structure Block where
  params : Params
  body : List Expr
  span : Span

inductive Target where
  | local_ (name : Ident)
  | attr (name : Ident)
  | constant (name : Ident)
  | index (receiver : Expr) (args : List Expr)
  | member (receiver : Expr) (name : Ident)

structure Arm where
  pattern : Pattern
  guard : Option Expr
  body : List Expr
  span : Span

structure Body where
  statements : List Expr
  rescues : List Rescue
  elseBody : Option (List Expr)
  ensure : Option (List Expr)
  span : Span

/-- What to do about the raised values that match; without a pattern, about all. -/
structure Rescue where
  pattern : Option Pattern
  guard : Option Expr
  body : List Expr
  span : Span

structure MethodDef where
  name : Ident
  /-- Defined for the type itself and not for its instances. -/
  singleton : Bool
  params : Params
  guard : Option Expr
  body : Body
  doc : Option String
  span : Span

structure TypeDef where
  sort : TypeSort
  name : Ident
  superclass : Option Expr
  body : List Expr
  doc : Option String
  span : Span

end

instance : Inhabited Expr := ⟨⟨.self, default⟩⟩

namespace Body

def isProtected (b : Body) : Bool := !b.rescues.isEmpty || b.elseBody.isSome || b.ensure.isSome

end Body

structure Program where
  body : List Expr
  span : Span
  deriving Inhabited

end Quill
