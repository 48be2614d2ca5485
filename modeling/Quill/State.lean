import Quill.Config
import Quill.Scope
import Quill.Types

/-!
# What an interpreter keeps

The contents of lists, lambdas and instances, the scopes and types, the calls in progress, and what
a program has used up and written so far. Contents are never given up, so a reference stays good.
-/

namespace Quill

/-- A call in progress as the code inside it sees it, for `yield` and `super`. -/
structure MethodFrame where
  name : String
  owner : TypeId
  classSide : Bool
  args : List Value
  block : Option Value
  deriving Inhabited, Repr

/-- Where code runs: its variables, the current object, the type or module around it, and the
method it belongs to. -/
structure Context where
  scope : ScopeId
  self : Value
  module : TypeId
  method : Option MethodFrame
  deriving Inhabited, Repr

structure Lambda where
  block : Block
  home : Context

namespace Lambda

/-- How many arguments it requires; `-n - 1` if there may be more than `n`. -/
def arity (l : Lambda) : Int :=
  let required : Int := l.block.params.required
  if l.block.params.isVariadic then -required - 1 else required

end Lambda

/-- What work that waits for other work goes on with: some values, and the place where code runs. -/
structure Held where
  values : List Value
  context : Option Context
  deriving Inhabited, Repr

structure Object where
  type : TypeId
  attrs : Bindings Value
  deriving Inhabited, Repr

/-- An entry of the call stack: what was called and from where. -/
structure CallFrame where
  label : String
  span : Span
  deriving DecidableEq, Inhabited, Repr

namespace CallFrame

def text (f : CallFrame) : String := f.label ++ " at " ++ f.span.text

end CallFrame

/-- A raised value on its way, with the place it was raised at and the calls that were in progress
there, the innermost last. -/
structure Raised where
  value : Value
  span : Span
  calls : Array CallFrame
  deriving Inhabited, Repr

namespace Raised

def backtrace (r : Raised) : List String := r.calls.toList.reverse.map CallFrame.text

end Raised

structure State where
  config : Config
  types : Types
  scopes : Scopes Value
  lists : Array (Array Value)
  lambdas : Array Lambda
  objects : Array Object
  /-- The calls in progress, the innermost last. -/
  frames : Array CallFrame
  /-- The values that `rescue` clauses are dealing with, the latest first. -/
  rescuing : List Raised
  /-- What the work in progress goes on with, that of the innermost first. -/
  held : List Held
  steps : Nat
  output : String
  deriving Inhabited

namespace State

/-- The scope of a program at top level, which is inside the root scope. -/
def mainScope : ScopeId := ⟨1⟩

def mainObject : ObjectId := ⟨0⟩

def initial (config : Config) : State where
  config := config
  types := .standard
  scopes := Scopes.initial.child Scopes.root
  lists := #[]
  lambdas := #[]
  objects := #[⟨CoreType.object.id, .empty⟩]
  frames := #[]
  rescuing := []
  held := []
  steps := 0
  output := ""

def topContext : Context := ⟨mainScope, .object mainObject, CoreType.object.id, none⟩

def items (s : State) (l : ListId) : Array Value := (s.lists[l.index]?).getD #[]

def object (s : State) (o : ObjectId) : Object :=
  match s.objects[o.index]? with
  | some obj => obj
  | none => ⟨CoreType.object.id, .empty⟩

def lambda? (s : State) (l : LambdaId) : Option Lambda := s.lambdas[l.index]?

def typeOf (s : State) : Value → TypeId
  | .nil => CoreType.nil.id
  | .bool _ => CoreType.bool.id
  | .int _ => CoreType.int.id
  | .float _ => CoreType.float.id
  | .str _ => CoreType.string.id
  | .symbol _ => CoreType.symbol.id
  | .list _ => CoreType.list.id
  | .lambda _ => CoreType.lambda.id
  | .type t => match s.types.sort t with
    | .type => CoreType.type.id
    | .module => CoreType.module.id
  | .object o => (s.object o).type

def typeName (s : State) (v : Value) : String := s.types.name (s.typeOf v)

def isInstance (s : State) (v : Value) (t : TypeId) : Bool := s.types.descendsFrom (s.typeOf v) t

/-- An attribute of an instance or type. What was not set, or cannot be, is `nil`. -/
def attr (s : State) (target : Value) (name : String) : Value :=
  match target with
  | .object o => ((s.object o).attrs.get? name).getD .nil
  | .type t => (((s.types.get? t).bind (·.attrs.get? name))).getD .nil
  | _ => .nil

def lambdaText (s : State) (l : LambdaId) : String :=
  match s.lambda? l with
  | some l => "#<Lambda " ++ l.block.params.text ++ ">"
  | none => "#<Lambda>"

/-- The text of scalars and types for readers of output, which calls no method. -/
def plainText? (s : State) : Value → Option String
  | .nil => some ""
  | .bool b => some (toString b)
  | .int n => some (toString n.toInt)
  | .float x => some (FloatNotation.spoken.write x)
  | .str t => some t
  | .symbol t => some t
  | .type t => some (s.types.name t)
  | _ => none

/-- The text of scalars, lambdas and types for readers of programs, which calls no method. -/
def inspectText? (s : State) : Value → Option String
  | .nil => some "nil"
  | .str t => some (Text.quote t)
  | .symbol t => some (":" ++ t)
  | .lambda l => some (s.lambdaText l)
  | v => s.plainText? v

/-- The text of a value that calls no method, if lists are nested `n` deep at most in it. -/
def rawTextWithin (s : State) (n : Nat) (v : Value) : Option String :=
  match n, v with
  | _, .nil => some "nil"
  | _, .bool b => some (toString b)
  | _, .int n => some (toString n.toInt)
  | _, .float x => some (FloatNotation.plain.write x)
  | _, .str t => some (Text.quote t)
  | _, .symbol t => some (":" ++ t)
  | _, .lambda l => some (s.lambdaText l)
  | _, .type t => some (s.types.name t)
  | _, .object o => some ("#<" ++ s.types.name (s.object o).type ++ ">")
  | 0, .list _ => none
  | n + 1, .list l =>
    ((s.items l).toList.mapM (rawTextWithin s n)).map fun texts =>
      "[" ++ ", ".intercalate texts ++ "]"

/-- The text of a value that calls no method. Lists that do not contain themselves are nested no
deeper than there are lists; a value that contains itself has no such text. -/
def rawText? (s : State) (v : Value) : Option String := s.rawTextWithin (s.lists.size + 1) v

/-- The raw text of a value that has one. -/
def rawText (s : State) (v : Value) : String := (s.rawText? v).getD ""

def newList (s : State) (items : Array Value) : Value × State :=
  (.list ⟨s.lists.size⟩, { s with lists := s.lists.push items })

def newObject (s : State) (t : TypeId) (attrs : Bindings Value) : Value × State :=
  (.object ⟨s.objects.size⟩, { s with objects := s.objects.push ⟨t, attrs⟩ })

def newLambda (s : State) (l : Lambda) : LambdaId × State :=
  (⟨s.lambdas.size⟩, { s with lambdas := s.lambdas.push l })

def newScope (s : State) (outer : ScopeId) : ScopeId × State :=
  (s.scopes.fresh, { s with scopes := s.scopes.child outer })

def modifyList (s : State) (l : ListId) (f : Array Value → Array Value) : State :=
  { s with lists := s.lists.modify l.index f }

def setObjectAttr (s : State) (o : ObjectId) (name : String) (v : Value) : State :=
  { s with objects := s.objects.modify o.index fun obj =>
      { obj with attrs := obj.attrs.set name v } }

def setTypeAttr (s : State) (t : TypeId) (name : String) (v : Value) : State :=
  { s with types := s.types.modify t fun i => { i with attrs := i.attrs.set name v } }

def define (s : State) (scope : ScopeId) (name : String) (v : Value) : State :=
  { s with scopes := s.scopes.define scope name v }

def assign (s : State) (scope : ScopeId) (name : String) (v : Value) : State :=
  { s with scopes := s.scopes.set scope name v }

def write (s : State) (text : String) : State := { s with output := s.output ++ text }

end State

end Quill
