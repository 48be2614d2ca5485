import Quill.Eval.Body

/-!
# Definitions

A type or module that is there already is opened again. A method gets a further clause, or a new one
in the place of a clause that takes the same arguments.
-/

namespace Quill

namespace Types

def nameWithin (ts : Types) (container : TypeId) (name : String) : String :=
  if container = CoreType.object.id then name else ts.name container ++ "." ++ name

def declare (ts : Types) (container : TypeId) (sort : TypeSort) (name : String)
    (superclass : Option TypeId) : TypeId × Types :=
  let parent := if container = CoreType.object.id then none else some container
  let superclass := match sort with
    | .type => superclass.or (some CoreType.object.id)
    | .module => none
  let made := TypeInfo.new (ts.nameWithin container name) sort superclass parent
  (ts.fresh, (ts.add made).setConstant container name (.type ts.fresh))

end Types

namespace Eval

def superclass (e : Expr) (ctx : Context) : Eval TypeId := do
  let v ← eval e ctx
  match ← read fun s => v.type?.filter s.types.isType with
  | some t => return t
  | none => fault (.badSuperclass (← inspectAnyway v)) e.span

def superclass? (e : Option Expr) (ctx : Context) : Eval (Option TypeId) := do
  match e with
  | some e => return some (← superclass e ctx)
  | none => return none

def openAgain (d : TypeDef) (superclass : Option TypeId) : Value → Eval TypeId
  | .type t => do
    let (sort, current) ← read fun s => (s.types.sort t, s.types.superclass t)
    if sort != d.sort then fault (.otherSort d.name.name d.sort) d.name.span
    -- A type that is opened again may repeat its supertype but not change it.
    else if superclass.isSome && superclass != current then
      fault (.superclassMismatch (← read (·.types.name t))) d.name.span
    else return t
  | _ => fault (.otherSort d.name.name d.sort) d.name.span

def openType (d : TypeDef) (superclass : Option TypeId) (container : TypeId) : Eval TypeId := do
  match ← read (·.types.constant? container d.name.name) with
  | none => modifyGet fun s =>
    let (t, types) := s.types.declare container d.sort d.name.name superclass
    (t, { s with types })
  | some v => openAgain d superclass v

/-- Defines or opens a type or module and runs its body, in which it is the current object. -/
def defineType (d : TypeDef) (ctx : Context) : Eval Value := do
  let superclass ← superclass? d.superclass ctx
  let t ← openType d superclass ctx.module
  modify fun s => { s with types := s.types.document t d.doc }
  -- The body sees no variables of the place it is written at.
  let scope ← newScope Scopes.root
  let inner : Context := ⟨scope, .type t, t, none⟩
  let _ ← within inner [] (statements inner d.body)
  return .type t

/-- Adds a clause to the type or module around, or to the current object itself, which has to be
one. -/
def defineMethod (d : MethodDef) (ctx : Context) : Eval Value := do
  let name := d.name.name
  if d.singleton then
    match ctx.self with
    | .type t => modify fun s => { s with types := s.types.addClassMethod t name (.user d) }
    | _ => fault (.singletonOutside name) d.name.span
  else modify fun s => { s with types := s.types.addMethod ctx.module name (.user d) }
  return .symbol name

def includeInto (e : Expr) (ctx : Context) : Eval Value := do
  let v ← eval e ctx
  match ← read fun s => v.type?.filter (s.types.sort · == .module) with
  | some m =>
    modify fun s => { s with types := s.types.includeModule ctx.module m }
    return v
  | none => fault (.badInclude (← inspectAnyway v)) e.span

end Eval

end Quill
