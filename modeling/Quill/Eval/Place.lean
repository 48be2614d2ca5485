import Quill.Eval.Body

/-!
# Assignment

What stands left of an assignment is evaluated to a place before the right side is, and only once
even if the place is both read and written.
-/

namespace Quill

inductive Place where
  | variable_ (name : String)
  | attr (name : String)
  | constant (name : String)
  | index (receiver : Value) (args : List Value)
  | member (receiver : Value) (name : String)
  deriving Inhabited, Repr

namespace Place

def values : Place → List Value
  | index receiver args => receiver :: args
  | member receiver _ => [receiver]
  | _ => []

end Place

namespace Eval

def setAttr (target : Value) (name : String) (v : Value) (span : Span) : Eval Unit :=
  match target with
  | .object o => modify (·.setObjectAttr o name v)
  | .type t => modify (·.setTypeAttr t name v)
  | _ => do fault (.unknownAttrOwner name (← read (·.typeName target))) span

def place (t : Target) (ctx : Context) : Eval Place :=
  match t with
  | .local_ name => return .variable_ name.name
  | .attr name => return .attr name.name
  | .constant name => return .constant name.name
  | .index receiver args => do
    let receiver ← eval receiver ctx
    return .index receiver (← holding [receiver] (values args ctx))
  | .member receiver name => return .member (← eval receiver ctx) name.name

def readPlace (p : Place) (ctx : Context) (span : Span) : Eval Value :=
  match p with
  | .variable_ name => return (← read (·.scopes.get? ctx.scope name)).getD .nil
  | .attr name => read (·.attr ctx.self name)
  | .constant name => return (← constant? ctx name).getD .nil
  | .index receiver args => send receiver "[]" args none span
  | .member receiver name => send receiver name [] none span

def writePlace (p : Place) (v : Value) (ctx : Context) (span : Span) : Eval Unit :=
  match p with
  | .variable_ name => assign ctx.scope name v
  | .attr name => setAttr ctx.self name v span
  | .constant name => modify fun s => { s with types := s.types.setConstant ctx.module name v }
  | .index receiver args => do let _ ← send receiver "[]=" (args ++ [v]) none span
  | .member receiver name => do let _ ← send receiver (name ++ "=") [v] none span

def assignment (t : Target) (value : Expr) (ctx : Context) (span : Span) : Eval Value := do
  let p ← place t ctx
  let v ← holding p.values (eval value ctx)
  holding [v] (writePlace p v ctx span)
  return v

def decides (op : Connective) (left : Value) : Bool :=
  match op with
  | .and => !left.isTruthy
  | .or => left.isTruthy

/-- Assigns what the operator makes of the old value and that of an expression. A connective that
the old value decides assigns nothing. -/
def compoundAssignment (op : Compound) (t : Target) (value : Expr) (ctx : Context) (span : Span) :
    Eval Value := do
  let p ← place t ctx
  let old ← holding p.values (readPlace p ctx span)
  match op with
  | .arith op =>
    let right ← holding (old :: p.values) (eval value ctx)
    let new ← holding p.values (send old op.method [right] none span)
    holding [new] (writePlace p new ctx span)
    return new
  | .logic op =>
    if decides op old then return old
    else
      let new ← holding (old :: p.values) (eval value ctx)
      holding [new, old] (writePlace p new ctx span)
      return new

end Eval

end Quill
