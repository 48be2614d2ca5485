import Quill.Builtin.Number
import Quill.Dispatch

/-!
# What every object can do

Equality is identity, unless a type has its own. An instance shows its type and attributes, an
error has a message, and a lambda can be called.
-/

namespace Quill

open Eval

namespace Eval

def write (text : String) : Eval Unit := modify (·.write text)

/-- Writes the texts of the values, each followed by a newline unless it ends in one. -/
def putAll : List Value → Eval Unit
  | [] => return ()
  | v :: rest => do
    let text ← display v
    write (if text.toList.getLast? = some '\n' then text else text ++ "\n")
    putAll rest

def printAll : List Value → Eval Unit
  | [] => return ()
  | v :: rest => do
    write (← display v)
    printAll rest

def showAll : List Value → Eval Unit
  | [] => return ()
  | v :: rest => do
    write ((← Eval.inspect v) ++ "\n")
    showAll rest

def inspectAttrs (done : List String) : List (String × Value) → Eval (List String)
  | [] => return done.reverse
  | (name, v) :: rest => do
    inspectAttrs (("@" ++ name ++ "=" ++ (← Eval.inspect v)) :: done) rest

end Eval

namespace ObjectRoutine

/-- The text of a value that has no text of its own: its type, and its attributes if it is an
instance. -/
def inspectObject (v : Value) : Eval Value := do
  match ← read (·.inspectText? v) with
  | some text => return .str text
  | none =>
    let type ← read (·.typeName v)
    let attrs ← read fun s => match v with
      | .object o => (s.object o).attrs.entries
      | _ => []
    match ← holding (attrs.map (·.2)) (inspectAttrs [] attrs) with
    | [] => return .str ("#<" ++ type ++ ">")
    | texts => return .str ("#<" ++ type ++ " " ++ ", ".intercalate texts ++ ">")

def run (r : ObjectRoutine) (c : Call) : Eval Value :=
  match r with
  | nothing => return .nil
  | identical => return .bool (c.receiver.identical (c.arg 0))
  | notEqual => do
    -- Sending `==` gives types with an equality of their own the inequality that goes with it.
    let equal ← holding c.block.toList (Eval.send c.receiver "==" c.args none c.span)
    return .bool (!equal.isTruthy)
  | class_ => return .type (← read (·.typeOf c.receiver))
  | isA => match c.arg 0 with
    | .type t => return .bool (← read (·.isInstance c.receiver t))
    | _ => fault (.unexpected "a type or module") c.span
  | respondTo => match (c.arg 0).name? with
    | some name => return .bool (← read (·.respondsTo c.receiver name))
    | none => fault (.unexpected "a symbol or string") c.span
  | isNil => return .bool c.receiver.isNil
  | toText => do
    let own ← read (·.plainText? c.receiver)
    return .str (own.getD ("#<" ++ (← read (·.typeName c.receiver)) ++ ">"))
  | inspect => holding c.values (inspectObject c.receiver)
  | send => match c.args with
    | [] => fault .badMethodName c.span
    | name :: rest => match name.name? with
      | some name => Eval.send c.receiver name rest c.block c.span
      | none => fault .badMethodName c.span
  | print => do
    holding c.values (printAll c.args)
    return .nil
  | puts => do
    if c.args.isEmpty then write "\n"
    holding c.values (putAll c.args)
    return .nil
  | p => do
    holding c.values (showAll c.args)
    match c.args with
    | [] => return .nil
    | [v] => return v
    | vs => newList vs
  | lambda => match c.block with
    | some block => return block
    | none => fault (.unexpected "a block") c.span

end ObjectRoutine

namespace ErrorRoutine

def run (r : ErrorRoutine) (c : Call) : Eval Value :=
  match r with
  | init => match c.receiver with
    | .object o => do
      modify (·.setObjectAttr o "message" (c.arg 0))
      return .nil
    | _ => return .nil
  | message => read (·.attr c.receiver "message")

end ErrorRoutine

namespace LambdaRoutine

def run (r : LambdaRoutine) (c : Call) : Eval Value :=
  match r, c.receiver with
  | call, .lambda l => holding [c.receiver] (perform (.callLambda l c.args c.block c.span))
  | arity, .lambda l => do
    match ← read (·.lambda? l) with
    | some l => return .int (Int64.ofInt l.arity)
    | none => return .nil
  | _, _ => fault (.unexpected "a lambda") c.span

end LambdaRoutine

end Quill
