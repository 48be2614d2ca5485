import Quill.Value

/-!
# The types that are always there

Every interpreter starts with the same types, numbered in a fixed order.
-/

namespace Quill

inductive CoreType where
  | object | nil | bool | number | int | float | string | symbol | list | lambda | module | type
  | error | methodMissing | noMatch | argumentTypeError | nameError | zeroDivisionError
  | runtimeError
  deriving DecidableEq, Inhabited, Repr

namespace CoreType

def all : List CoreType :=
  [object, nil, bool, number, int, float, string, symbol, list, lambda, module, type, error,
    methodMissing, noMatch, argumentTypeError, nameError, zeroDivisionError, runtimeError]

def name : CoreType → String
  | object => "Object" | nil => "Nil" | bool => "Bool" | number => "Number" | int => "Int"
  | float => "Float" | string => "String" | symbol => "Symbol" | list => "List"
  | lambda => "Lambda" | module => "Module" | type => "Type" | error => "Error"
  | methodMissing => "MethodMissing" | noMatch => "NoMatch"
  | argumentTypeError => "ArgumentTypeError" | nameError => "NameError"
  | zeroDivisionError => "ZeroDivisionError" | runtimeError => "RuntimeError"

def superclass : CoreType → Option CoreType
  | object => none
  | int | float => some number
  | type => some module
  | methodMissing | noMatch | argumentTypeError | nameError | zeroDivisionError | runtimeError =>
    some error
  | _ => some object

def id (t : CoreType) : TypeId := ⟨all.idxOf t⟩

/-- The types whose values are no instances, so that none can be made. -/
def primitive : List CoreType :=
  [nil, bool, number, int, float, string, symbol, list, lambda, module, type]

def isPrimitive (t : TypeId) : Bool := primitive.any fun c => c.id == t

end CoreType

end Quill
