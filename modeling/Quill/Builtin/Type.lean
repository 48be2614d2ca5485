import Quill.Builtin.Object

namespace Quill

namespace Types

/-- The first documentation among the clauses of a method: of the instances first, along the
ancestors, then of the type itself. -/
def methodDoc (ts : Types) (t : TypeId) (name : String) : Option String :=
  let inherited := (ts.ancestors t).flatMap fun a => (ts.method? a name).getD []
  (inherited ++ (ts.classMethod? t name).getD []).findSome? Clause.doc

def includesModule (ts : Types) (t m : TypeId) : Bool :=
  ts.sort m == .module && t != m && ts.descendsFrom t m

end Types

namespace TypeRoutine

open Eval

def symbols (names : List String) : Eval Value := newList (names.map .symbol)

def about {α : Type} (t : TypeId) (default : α) (f : TypeInfo → α) : Eval α :=
  read fun s => ((s.types.get? t).map f).getD default

def instantiate (t : TypeId) (c : Call) : Eval Value := do
  if CoreType.isPrimitive t then
    fault (.notInstantiable (← read (·.types.name t))) c.span
  else
    let made ← newObject t
    let _ ← holding [made, c.receiver] (send made "initialize" c.args c.block c.span)
    return made

def runOn (r : TypeRoutine) (t : TypeId) (c : Call) : Eval Value :=
  match r with
  | name => return .str (← read (·.types.name t))
  | ancestors => do newList ((← read (·.types.ancestors t)).map .type)
  | instanceMethods => do symbols (← about t [] (·.methods.names))
  | classMethods => do symbols (← about t [] (·.classMethods.names))
  | constants => do symbols (← about t [] (·.constants.names))
  | doc => return ((← about t none (·.doc)).map .str).getD .nil
  | methodDoc => match (c.arg 0).name? with
    | some method => return ((← read (·.types.methodDoc t method)).map .str).getD .nil
    | none => fault (.unexpected "a symbol or string") c.span
  | includes => match c.arg 0 with
    | .type m => return .bool (← read (·.types.includesModule t m))
    | _ => fault (.unexpected "a module") c.span
  | superclass => return ((← read (·.types.superclass t)).map .type).getD .nil
  | new => instantiate t c

def run (r : TypeRoutine) (c : Call) : Eval Value :=
  match c.receiver with
  | .type t => r.runOn t c
  | _ => fault (.unexpected "a type or module") c.span

end TypeRoutine

end Quill
