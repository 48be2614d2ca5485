import Quill.Pattern

/-!
# Values

Numbers, texts, symbols and the like are what they are. Lists, lambdas, types and instances have an
identity: the value is a reference, and what it refers to is kept by the interpreter.
-/

namespace Quill

structure ListId where
  index : Nat
  deriving DecidableEq, Inhabited, Repr

structure LambdaId where
  index : Nat
  deriving DecidableEq, Inhabited, Repr

structure TypeId where
  index : Nat
  deriving DecidableEq, Inhabited, Repr

/-- The number of an instance of a type that a program can make instances of. -/
structure ObjectId where
  index : Nat
  deriving DecidableEq, Inhabited, Repr

inductive Value where
  | nil
  | bool (value : Bool)
  | int (value : Int64)
  | float (value : Float)
  | str (value : String)
  | symbol (name : String)
  | list (id : ListId)
  | lambda (id : LambdaId)
  | type (id : TypeId)
  | object (id : ObjectId)
  deriving Inhabited, Repr

namespace Value

/-- Everything is true except `nil` and `false`. -/
def isTruthy : Value → Bool
  | nil | bool false => false
  | _ => true

def isNil : Value → Bool
  | nil => true
  | _ => false

def ofLiteral : Literal → Value
  | .nil => nil
  | .bool b => bool b
  | .int n => int n
  | .float x => float x
  | .str s => str s
  | .symbol s => symbol s

def int? : Value → Option Int64
  | int n => some n
  | _ => none

def number? : Value → Option Float
  | int n => some n.toFloat
  | float x => some x
  | _ => none

def str? : Value → Option String
  | str s => some s
  | _ => none

def name? : Value → Option String
  | str s | symbol s => some s
  | _ => none

def list? : Value → Option ListId
  | list id => some id
  | _ => none

def lambda? : Value → Option LambdaId
  | lambda id => some id
  | _ => none

def type? : Value → Option TypeId
  | type id => some id
  | _ => none

def object? : Value → Option ObjectId
  | object id => some id
  | _ => none

def isScalar : Value → Bool
  | list _ | lambda _ | type _ | object _ => false
  | _ => true

/-- Whether two scalars are equal; undecided unless both are scalars. Whole numbers and floats are
compared as floats. -/
def scalarEq? (a b : Value) : Option Bool :=
  match a, b with
  | nil, nil => some true
  | bool a, bool b => some (a == b)
  | int a, int b => some (a == b)
  | float a, float b => some (a == b)
  | int a, float b | float b, int a => some (a.toFloat == b)
  | str a, str b => some (a == b)
  | symbol a, symbol b => some (a == b)
  | a, b => if a.isScalar && b.isScalar then some false else none

/-- The same list, lambda, type or instance, or equal scalars. -/
def identical (a b : Value) : Bool :=
  match a, b with
  | list a, list b => a == b
  | lambda a, lambda b => a == b
  | type a, type b => a == b
  | object a, object b => a == b
  | a, b => (a.scalarEq? b).getD false

end Value

end Quill
