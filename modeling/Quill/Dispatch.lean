import Quill.State

/-!
# Where methods are found

A message is looked up among the ancestors of the receiver's type. Types and modules are asked
themselves first, along their supertypes.
-/

namespace Quill

structure Method where
  name : String
  owner : TypeId
  classSide : Bool
  clauses : List Clause

namespace Method

def frame (m : Method) (args : List Value) (block : Option Value) : MethodFrame :=
  ⟨m.name, m.owner, m.classSide, args, block⟩

end Method

inductive Answer where
  | method (m : Method)
  | constant (v : Value)
  | nothing

namespace State

def methodAmong (s : State) (name : String) (ts : List TypeId) : Option Method :=
  (s.types.firstWith name ts).map fun (owner, clauses) => ⟨name, owner, false, clauses⟩

def instanceMethod? (s : State) (receiver : Value) (name : String) : Option Method :=
  s.methodAmong name (s.types.ancestors (s.typeOf receiver))

def classMethod? (s : State) (t : TypeId) (name : String) : Option Method :=
  (s.types.classSide? t name).map fun (owner, clauses) => ⟨name, owner, true, clauses⟩

def ownMethod? (s : State) (receiver : Value) (name : String) : Option Method :=
  receiver.type?.bind (s.classMethod? · name)

def respondsTo (s : State) (receiver : Value) (name : String) : Bool :=
  (s.ownMethod? receiver name).isSome || (s.instanceMethod? receiver name).isSome

/-- What comes after the running method when the receiver's method of that name is looked up. -/
def superMethod? (s : State) (frame : MethodFrame) (receiver : Value) : Option Method :=
  if frame.classSide then
    ((s.types.superclass frame.owner).bind (s.classMethod? · frame.name)).or
      (s.instanceMethod? receiver frame.name)
  else
    -- Only what lies behind the owner of the running method is left to look at.
    s.methodAmong frame.name
      (((s.types.ancestors (s.typeOf receiver)).dropWhile (· != frame.owner)).drop 1)

/-- Names of constants start with a capital letter. -/
def isConstantName (name : String) : Bool :=
  match name.toList with
  | c :: _ => 'A' ≤ c && c ≤ 'Z'
  | [] => false

def namedConstant? (s : State) (receiver : Value) (name : String) : Option Value :=
  if isConstantName name then receiver.type?.bind (s.types.constant? · name) else none

/-- What a message finds. It is bare if it comes with neither arguments nor a block; then it may
name a constant of a type. -/
def answer (s : State) (receiver : Value) (name : String) (bare : Bool) : Answer :=
  match s.ownMethod? receiver name with
  | some m => .method m
  | none => match if bare then s.namedConstant? receiver name else none with
    | some v => .constant v
    | none => match s.instanceMethod? receiver name with
      | some m => .method m
      | none => .nothing

def methodLabel (s : State) (m : Method) : String :=
  s.types.name m.owner ++ (if m.classSide then "." else "#") ++ m.name

def describe (s : State) (v : Value) : String :=
  match v with
  | .object o => "an instance of " ++ s.types.name (s.object o).type
  | .list _ => "a List"
  | v => (s.inspectText? v).getD (s.rawText v)

end State

end Quill
