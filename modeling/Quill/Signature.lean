import Quill.CoreType
import Quill.Expr

/-!
# Signatures of built-in methods

What a built-in method takes: the shape of its receiver, of its arguments, and whether it needs a
block. A call is checked against the signature before the method runs.
-/

namespace Quill

inductive Expect where
  | any | nil | bool | int | float | number | string | symbol | list | lambda
  /-- A type, no module. -/
  | type
  /-- A type or module. -/
  | module
  /-- An instance of a type that a program can make instances of. -/
  | object
  deriving DecidableEq, Inhabited, Repr

namespace Expect

def text : Expect → String
  | any => "any value" | nil => "Nil" | bool => "Bool" | int => "Int" | float => "Float"
  | number => "Number" | string => "String" | symbol => "Symbol" | list => "List"
  | lambda => "Lambda" | type => "Type" | module => "Module" | object => "an instance"

/-- Whether a value has the shape; `sortOf` tells types from modules. -/
def accepts (sortOf : TypeId → TypeSort) : Expect → Value → Bool
  | any, _ => true
  | nil, .nil => true
  | bool, .bool _ => true
  | int, .int _ => true
  | float, .float _ => true
  | number, .int _ | number, .float _ => true
  | string, .str _ => true
  | symbol, .symbol _ => true
  | list, .list _ => true
  | lambda, .lambda _ => true
  | type, .type t => sortOf t == .type
  | module, .type _ => true
  | object, .object _ => true
  | _, _ => false

end Expect

inductive BlockUse where
  | ignored | optional | required
  deriving DecidableEq, Inhabited, Repr

structure Signature where
  receiver : Expect
  params : List Expect
  rest : Option Expect
  block : BlockUse
  deriving DecidableEq, Inhabited, Repr

inductive Mismatch where
  | receiver (expected : Expect)
  /-- The number of arguments; `orMore` if it is the least one. -/
  | argumentCount (given expected : Nat) (orMore : Bool)
  /-- The argument with this position, counted from 1. -/
  | argument (position : Nat) (expected : Expect)
  | block
  deriving DecidableEq, Inhabited, Repr

namespace Mismatch

def text : Mismatch → String
  | receiver e => "receiver must be " ++ e.text
  | argumentCount given expected orMore =>
    "wrong number of arguments (given " ++ toString given ++ ", expected " ++
      (if orMore then "at least " else "") ++ toString expected ++ ")"
  | argument position e => "argument " ++ toString position ++ " must be " ++ e.text
  | block => "a block is required"

end Mismatch

namespace Signature

/-- The first of the arguments, counted from `position`, that has not the shape of its parameter. -/
def badArgument (sortOf : TypeId → TypeSort) (rest : Option Expect) :
    Nat → List Expect → List Value → Option Mismatch
  | _, _, [] => none
  | position, e :: params, v :: args =>
    if e.accepts sortOf v then badArgument sortOf rest (position + 1) params args
    else some (.argument position e)
  | position, [], v :: args =>
    match rest with
    | none => badArgument sortOf rest (position + 1) [] args
    | some e =>
      if e.accepts sortOf v then badArgument sortOf rest (position + 1) [] args
      else some (.argument position e)

def countFits (s : Signature) (given : Nat) : Bool :=
  match s.rest with
  | some _ => s.params.length ≤ given
  | none => given == s.params.length

/-- The first thing about a call that does not fit: the receiver, the number of arguments, one of
them, or the block. -/
def mismatch (sortOf : TypeId → TypeSort) (s : Signature) (receiver : Value) (args : List Value)
    (hasBlock : Bool) : Option Mismatch :=
  if !s.receiver.accepts sortOf receiver then some (.receiver s.receiver)
  else if !s.countFits args.length then
    some (.argumentCount args.length s.params.length s.rest.isSome)
  else match badArgument sortOf s.rest 1 s.params args with
    | some m => some m
    | none => if s.block == .required && !hasBlock then some .block else none

def texts (s : Signature) : List String :=
  s.receiver.text :: s.params.map Expect.text ++ s.rest.toList.map Expect.text

end Signature

end Quill
