import Quill.Bindings
import Quill.Routine

/-!
# Types and modules

Types and modules are kept in one table under their numbers. A type has one supertype at most and
any number of included modules; `Types.ancestors` puts all of them in the order in which methods are
looked up. A method consists of clauses that are tried one after the other.
-/

namespace Quill

structure NativeMethod where
  /-- The type and the name, for messages. -/
  label : String
  signature : Signature
  routine : Routine
  deriving Inhabited, Repr

inductive Clause where
  | user (definition : MethodDef)
  | native (method : NativeMethod)

namespace Clause

def isNative : Clause → Bool
  | native _ => true
  | user _ => false

def arity : Clause → Nat
  | user d => d.params.required
  | native m => m.signature.params.length

def isVariadic : Clause → Bool
  | user d => d.params.isVariadic
  | native m => m.signature.rest.isSome

def doc : Clause → Option String
  | user d => d.doc
  | native _ => none

def takesAny : Pattern → Bool
  | .bind _ none | .wildcard _ | .splat .. => true
  | _ => false

def isCatchAll : Clause → Bool
  | user d => d.guard.isNone && d.params.items.all takesAny
  | native _ => true

/-- Whether defining `new` does away with `old`: both take the same arguments and have no guard. -/
def replaces (new old : Clause) : Bool :=
  match new, old with
  | user n, user o => n.guard.isNone && o.guard.isNone && n.params.sameShape o.params
  | _, _ => new.isCatchAll && old.isCatchAll && new.arity == old.arity &&
      new.isVariadic == old.isVariadic

/-- The clauses with `new` in the place of the first that it replaces, or else at the end. -/
def insert (new : Clause) : List Clause → List Clause
  | [] => [new]
  | old :: rest => if new.replaces old then new :: rest else old :: insert new rest

end Clause

/-- Methods by name, in the order they were first defined. -/
abbrev MethodTable := Bindings (List Clause)

namespace MethodTable

def insert (t : MethodTable) (name : String) (c : Clause) : MethodTable :=
  t.set name (c.insert ((t.get? name).getD []))

end MethodTable

structure TypeInfo where
  /-- With the names of the modules and types around it. -/
  name : String
  sort : TypeSort
  superclass : Option TypeId
  /-- The module or type it was defined in, as long as that is there. -/
  parent : Option TypeId
  /-- In the order of inclusion. -/
  includes : List TypeId
  methods : MethodTable
  classMethods : MethodTable
  constants : Bindings Value
  attrs : Bindings Value
  doc : Option String
  deriving Inhabited

namespace TypeInfo

def new (name : String) (sort : TypeSort) (superclass parent : Option TypeId) : TypeInfo :=
  ⟨name, sort, superclass, parent, [], .empty, .empty, .empty, .empty, none⟩

def shortName (t : TypeInfo) : String :=
  String.ofList (t.name.toList.reverse.takeWhile (· != '.')).reverse

def text (t : TypeInfo) : String := t.sort.text ++ " " ++ t.name

end TypeInfo

structure Types where
  all : Array TypeInfo
  deriving Inhabited

namespace Types

def empty : Types := ⟨#[]⟩

def fresh (ts : Types) : TypeId := ⟨ts.all.size⟩

def add (ts : Types) (t : TypeInfo) : Types := ⟨ts.all.push t⟩

def get? (ts : Types) (id : TypeId) : Option TypeInfo := ts.all[id.index]?

def modify (ts : Types) (id : TypeId) (f : TypeInfo → TypeInfo) : Types :=
  ⟨ts.all.modify id.index f⟩

def name (ts : Types) (id : TypeId) : String :=
  match ts.get? id with
  | some t => t.name
  | none => ""

def sort (ts : Types) (id : TypeId) : TypeSort :=
  match ts.get? id with
  | some t => t.sort
  | none => .type

def isType (ts : Types) (id : TypeId) : Bool := (ts.get? id).any (·.sort == .type)

def superclass (ts : Types) (id : TypeId) : Option TypeId := (ts.get? id).bind (·.superclass)

def parent (ts : Types) (id : TypeId) : Option TypeId := (ts.get? id).bind (·.parent)

def includes (ts : Types) (id : TypeId) : List TypeId :=
  match ts.get? id with
  | some t => t.includes
  | none => []

def constant? (ts : Types) (id : TypeId) (name : String) : Option Value :=
  (ts.get? id).bind (·.constants.get? name)

def setConstant (ts : Types) (id : TypeId) (name : String) (v : Value) : Types :=
  ts.modify id fun t => { t with constants := t.constants.set name v }

def method? (ts : Types) (id : TypeId) (name : String) : Option (List Clause) :=
  (ts.get? id).bind (·.methods.get? name)

def classMethod? (ts : Types) (id : TypeId) (name : String) : Option (List Clause) :=
  (ts.get? id).bind (·.classMethods.get? name)

def addMethod (ts : Types) (id : TypeId) (name : String) (c : Clause) : Types :=
  ts.modify id fun t => { t with methods := MethodTable.insert t.methods name c }

def addClassMethod (ts : Types) (id : TypeId) (name : String) (c : Clause) : Types :=
  ts.modify id fun t => { t with classMethods := MethodTable.insert t.classMethods name c }

def document (ts : Types) (id : TypeId) (doc : Option String) : Types :=
  match doc with
  | some d => ts.modify id fun t => { t with doc := some d }
  | none => ts

def canInclude (ts : Types) (id module : TypeId) : Bool := !(ts.includes id).contains module

def includeModule (ts : Types) (id module : TypeId) : Types :=
  if ts.canInclude id module then
    ts.modify id fun t => { t with includes := t.includes ++ [module] }
  else ts

/-- Adds `id` and what it inherits from to `out`, passing over what is there already: first `id`
itself, then its modules, the latest first and each with what it includes, then its supertype. No
path goes through more than `n` types. -/
def linearize (ts : Types) : Nat → Array TypeId → TypeId → Array TypeId
  | 0, out, _ => out
  | n + 1, out, id =>
    if out.contains id then out
    else
      -- `id` is there before its modules are visited, so a cycle of modules ends at it.
      let out := (ts.includes id).reverse.foldl (linearize ts n) (out.push id)
      match ts.superclass id with
      | some s => linearize ts n out s
      | none => out

/-- A type and all that it inherits from, in the order in which methods are looked up. A path that
does not meet itself is no longer than there are types. -/
def ancestors (ts : Types) (id : TypeId) : List TypeId :=
  (ts.linearize (ts.all.size + 1) #[] id).toList

def descendsFrom (ts : Types) (id ancestor : TypeId) : Bool := (ts.ancestors id).contains ancestor

/-- The first of `n` types, from `id` along the supertypes, that has a method `name` of its own. -/
def classSideWithin (ts : Types) (name : String) : Nat → TypeId → Option (TypeId × List Clause)
  | 0, _ => none
  | n + 1, id =>
    match ts.classMethod? id name with
    | some clauses => some (id, clauses)
    | none => match ts.superclass id with
      | some s => classSideWithin ts name n s
      | none => none

def classSide? (ts : Types) (id : TypeId) (name : String) : Option (TypeId × List Clause) :=
  ts.classSideWithin name (ts.all.size + 1) id

def firstWith (ts : Types) (name : String) : List TypeId → Option (TypeId × List Clause)
  | [] => none
  | t :: rest =>
    match ts.method? t name with
    | some clauses => some (t, clauses)
    | none => firstWith ts name rest

def follow (ts : Types) : TypeId → List String → Option TypeId
  | id, [] => some id
  | id, name :: rest =>
    match ts.constant? id name with
    | some (.type t) => follow ts t rest
    | _ => none

/-- The core types, each a constant of the first one. -/
def core : Types :=
  let all := CoreType.all.foldl
    (fun ts c => ts.add (.new c.name .type (c.superclass.map CoreType.id) none)) empty
  CoreType.all.foldl (fun ts c => ts.setConstant CoreType.object.id c.name (.type c.id)) all

def addNative (ts : Types) (id : TypeId) (classSide : Bool) (name : String)
    (signature : Signature) (routine : Routine) : Types :=
  if classSide then
    ts.addClassMethod id name (.native ⟨ts.name id ++ "." ++ name, signature, routine⟩)
  else ts.addMethod id name (.native ⟨ts.name id ++ "#" ++ name, signature, routine⟩)

def standard : Types :=
  Routine.catalogue.foldl
    (fun ts e => ts.addNative e.owner.id e.classSide e.name e.signature e.routine) core

end Types

end Quill
