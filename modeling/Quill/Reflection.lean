import Quill.Retention

/-!
# What can be told about a type

A description of a type or module as it is at the moment, with those defined inside it: its
ancestors, methods with the arguments they take, constants and documentation, in the order they were
defined.
-/

namespace Quill

structure ClauseSummary where
  arity : Nat
  variadic : Bool
  native : Bool
  doc : Option String
  deriving DecidableEq, Inhabited, Repr

namespace Clause

def summary (c : Clause) : ClauseSummary := ⟨c.arity, c.isVariadic, c.isNative, c.doc⟩

end Clause

structure MethodSummary where
  name : String
  clauses : List ClauseSummary
  deriving DecidableEq, Inhabited, Repr

namespace MethodTable

def summary (t : MethodTable) : List MethodSummary :=
  t.entries.map fun (name, clauses) => ⟨name, clauses.map Clause.summary⟩

end MethodTable

structure ConstantSummary where
  name : String
  text : Option String
  deriving DecidableEq, Inhabited, Repr

structure TypeSummary where
  name : String
  sort : TypeSort
  doc : Option String
  ancestors : List String
  superclass : Option String
  instanceMethods : List MethodSummary
  classMethods : List MethodSummary
  /-- Those that are no types or modules defined here. -/
  constants : List ConstantSummary
  nested : List TypeSummary
  deriving Inhabited, Repr

namespace State

/-- The types and modules among the constants that were defined in `t` itself. -/
def nestedTypes (s : State) (t : TypeId) (constants : List (String × Value)) : List TypeId :=
  (constants.filterMap (·.2.type?)).filter (s.types.parent · == some t)

def constantSummary? (s : State) (t : TypeId) : String × Value → Option ConstantSummary
  | (name, v) =>
    if v.type?.any (s.types.parent · == some t) then none else some ⟨name, s.inspectText? v⟩

def typeSummaryWithin (s : State) : Nat → TypeId → TypeSummary
  | n, t =>
    let info := (s.types.get? t).getD default
    let constants := info.constants.entries
    { name := info.name
      sort := info.sort
      doc := info.doc
      ancestors := (s.types.ancestors t).map s.types.name
      superclass := info.superclass.map s.types.name
      instanceMethods := info.methods.summary
      classMethods := info.classMethods.summary
      constants := constants.filterMap (s.constantSummary? t)
      nested := match n with
        | 0 => []
        | n + 1 => (s.nestedTypes t constants).map (typeSummaryWithin s n) }

/-- The description of a type. What is nested was made after what it is nested in, so there are no
more levels than types. -/
def typeSummary (s : State) (t : TypeId) : TypeSummary := s.typeSummaryWithin s.types.all.size t

/-- The descriptions of all types and modules that are constants at top level and not defined inside
another one that is still there. -/
def typeSummaries (s : State) : List TypeSummary :=
  let constants := ((s.types.get? CoreType.object.id).getD default).constants.entries
  let types := constants.filterMap (·.2.type?)
  (types.filter fun t => !(s.types.parent t).any s.isRetained).map s.typeSummary

end State

end Quill
