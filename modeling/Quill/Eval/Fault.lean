import Quill.Eval.Step

/-!
# What goes wrong in programs

The errors that the language itself raises: for each its type and its message. A program can rescue
all of them.
-/

namespace Quill

/-- Why the language raises an error. Texts of values are as `inspect` shows them. -/
inductive Fault where
  | breakOutside
  | nextOutside
  | unknownAttrOwner (attr type : String)
  | unknownConstant (path : String)
  | superclassMismatch (name : String)
  /-- The name stands for something else than a type or module. -/
  | otherSort (name : String) (sort : TypeSort)
  | badSuperclass (found : String)
  | singletonOutside (name : String)
  | badInclude (found : String)
  | undefinedMethod (name receiver : String)
  | noClause (label : String) (args : List String)
  | noSuper (name : String)
  | badCall (label : String) (reason : Mismatch)
  | noSignature (label : String)
  | blockParams (params shown : String)
  | badItems (found : String)
  | noChoice (shown : String)
  | noMatch (shown pattern : String)
  | noType (path : String)
  | nothingRaised
  | badBlock (found : String)
  | superOutside
  | noBlock
  | badMethodName
  /-- A built-in method met something that its signature should have kept away. -/
  | unexpected (wanted : String)
  | overflow
  | divisionByZero
  | noWholeNumber (shown : String)
  | negativeRepeat
  | tooLarge
  | negativeSize
  | tooManyForList (given : Nat)
  | indexOutOfRange (index : Int64)
  | notInstantiable (name : String)
  deriving DecidableEq, Inhabited, Repr

namespace Fault

def type : Fault → CoreType
  | unknownConstant _ => .nameError
  | badSuperclass _ | badInclude _ | badCall .. | noSignature _ | badItems _ | noType _
  | badBlock _ | badMethodName | unexpected _ | negativeRepeat | negativeSize | tooManyForList _
  | indexOutOfRange _ => .argumentTypeError
  | undefinedMethod .. | noClause .. | noSuper _ => .methodMissing
  | blockParams .. | noChoice _ | noMatch .. => .noMatch
  | divisionByZero => .zeroDivisionError
  | _ => .runtimeError

def message : Fault → String
  | breakOutside => "break outside of a block or loop"
  | nextOutside => "next outside of a block or loop"
  | unknownAttrOwner attr type => "cannot set @" ++ attr ++ " on " ++ type
  | unknownConstant path => "uninitialized constant " ++ path
  | superclassMismatch name => "superclass mismatch for " ++ name
  | otherSort name sort => name ++ " is not a " ++ sort.text
  | badSuperclass found => "superclass must be a type, got " ++ found
  | singletonOutside name => "def self." ++ name ++ " outside a type or module"
  | badInclude found => "include expects a module, got " ++ found
  | undefinedMethod name receiver => "undefined method '" ++ name ++ "' for " ++ receiver
  | noClause label args => "no clause of " ++ label ++ " matches (" ++ ", ".intercalate args ++ ")"
  | noSuper name => "super: no superclass method '" ++ name ++ "'"
  | badCall label reason => label ++ ": " ++ reason.text
  | noSignature label => label ++ ": no matching signature"
  | blockParams params shown => "block parameters " ++ params ++ " do not match " ++ shown
  | badItems found => "for expects a List, got " ++ found
  | noChoice shown => "no when clause matches " ++ shown
  | noMatch shown pattern => shown ++ " does not match " ++ pattern
  | noType path => path ++ " is not a type or module"
  | nothingRaised => "unhandled exception"
  | badBlock found => "block argument must be a Lambda, got " ++ found
  | superOutside => "super called outside of a method"
  | noBlock => "no block given (yield)"
  | badMethodName => "send expects a method name"
  | unexpected wanted => "expected " ++ wanted
  | overflow => "integer overflow"
  | divisionByZero => "divided by 0"
  | noWholeNumber shown => "cannot convert " ++ shown ++ " to Int"
  | negativeRepeat => "negative repeat count"
  | tooLarge => "size too large"
  | negativeSize => "negative list size"
  | tooManyForList given =>
    "List.new: wrong number of arguments (given " ++ toString given ++ ", expected 0..2)"
  | indexOutOfRange i => "index " ++ toString i.toInt ++ " out of range"
  | notInstantiable name => "cannot instantiate " ++ name

end Fault

namespace Eval

variable {α : Type}

def raise (v : Value) (span : Span) : Eval α := do
  unwind (.raise ⟨v, span, ← read (·.frames)⟩)

def raiseError (t : CoreType) (message : String) (span : Span) : Eval α := do
  let error ← modifyGet (·.newObject t.id ⟨[("message", .str message)]⟩)
  raise error span

def fault (f : Fault) (span : Span) : Eval α := raiseError f.type f.message span

def missing (f : Fault) (receiver : Value) (name : String) (span : Span) : Eval α := do
  let error ← modifyGet (·.newObject f.type.id
    ⟨[("message", .str f.message), ("name", .symbol name), ("receiver", receiver)]⟩)
  raise error span

/-- The text that a method for texts gave, or the raw text of what it gave instead. -/
def resultText (v : Value) : Eval String := do
  match ← read (·.plainText? v) with
  | some text => return text
  | none => return (← perform (.rawText v)).str?.getD ""

def inspect (v : Value) : Eval String := do
  match ← read (·.inspectText? v) with
  | some text => return text
  | none => resultText (← holding [v] (send v "inspect" [] none .origin))

def display (v : Value) : Eval String := do
  match ← read (·.plainText? v) with
  | some text => return text
  | none => resultText (← holding [v] (send v "to_s" [] none .origin))

/-- The text of a value for an error message: its raw text if finding another one unwinds. -/
def describe (v : Value) : Eval Reply := do
  match ← attempt (inspect v) with
  | .ok text => return .value (.str text)
  | .error _ => return .task (.rawText v)

/-- Looks for the raw text of a value, for ever if there is none: it starts over at what it has
come back to. -/
def rawText (v : Value) : Eval Reply := do
  match ← read (·.rawText? v) with
  | some text => return .value (.str text)
  | none => return .task (.rawText v)

def inspectAnyway (v : Value) : Eval String := return (← perform (.describe v)).str?.getD ""

/-- Whether two values are equal, which only scalars are without a message being sent. -/
def valuesEqual (a b : Value) : Eval Bool := do
  match a.scalarEq? b with
  | some answer => return answer
  | none => return (← holding [a, b] (send a "==" [b] none .origin)).isTruthy

end Eval

end Quill
