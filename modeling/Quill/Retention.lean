import Quill.State
import Std.Data.HashSet

/-!
# What is still referred to

A type remembers the module it was defined in, but that does not keep the module: once nothing else
refers to it, the module is gone, and what was defined in it stands on its own. This shows when a
constant that named a module gets another value.

What nothing refers to is gone, and then so is what only that referred to, over and over. Things
that refer to each other in a circle stay. `State.counts` says how often each thing is referred to
in the end; what can be reached from outside is found faster, and is always still there.
-/

namespace Quill

inductive Referent where
  | type (id : TypeId)
  | list (id : ListId)
  | object (id : ObjectId)
  | lambda (id : LambdaId)
  | scope (id : ScopeId)
  deriving DecidableEq, Inhabited, Repr

namespace Referent

def code : Referent → Nat
  | type t => 5 * t.index
  | list l => 5 * l.index + 1
  | object o => 5 * o.index + 2
  | lambda l => 5 * l.index + 3
  | scope c => 5 * c.index + 4

def ofValue? : Value → Option Referent
  | .list l => some (list l)
  | .lambda l => some (lambda l)
  | .type t => some (type t)
  | .object o => some (object o)
  | _ => none

def ofValues (vs : List Value) : List Referent := vs.filterMap ofValue?

def ofBindings (b : Bindings Value) : List Referent := b.entries.filterMap fun e => ofValue? e.2

def ofFrame (f : MethodFrame) : List Referent :=
  type f.owner :: (ofValues f.args ++ ofValues f.block.toList)

def ofContext (c : Context) : List Referent :=
  scope c.scope :: type c.module :: ((ofValue? c.self).toList ++ c.method.toList.flatMap ofFrame)

def ofHeld (h : Held) : List Referent := ofValues h.values ++ h.context.toList.flatMap ofContext

end Referent

namespace State

open Referent

def referents (s : State) : List Referent :=
  (List.range s.types.all.size).map (.type ⟨·⟩) ++ (List.range s.lists.size).map (.list ⟨·⟩) ++
    (List.range s.objects.size).map (.object ⟨·⟩) ++
    (List.range s.lambdas.size).map (.lambda ⟨·⟩) ++
    (List.range s.scopes.all.size).map (.scope ⟨·⟩)

def referentCount (s : State) : Nat :=
  s.types.all.size + s.lists.size + s.objects.size + s.lambdas.size + s.scopes.all.size

def references (s : State) : Referent → List Referent
  | .type t => match s.types.get? t with
    | some i => (i.superclass.toList ++ i.includes).map .type ++ ofBindings i.constants ++
        ofBindings i.attrs
    | none => []
  | .list l => ofValues (s.items l).toList
  | .object o => .type (s.object o).type :: ofBindings (s.object o).attrs
  | .lambda l => (s.lambda? l).toList.flatMap fun l => ofContext l.home
  | .scope c => (s.scopes.parent c).toList.map .scope ++ ofBindings (s.scopes.bindings c)

def coreTypes : List Referent := CoreType.all.map fun t => .type t.id

/-- What is referred to from outside of all things: what is there for good, and what the work in
progress goes on with. -/
def roots (s : State) : List Referent :=
  coreTypes ++ ofContext topContext ++ ofValues (s.rescuing.map (·.value)) ++ s.held.flatMap ofHeld

def countUp (counts : Array Nat) (rs : List Referent) : Array Nat :=
  rs.foldl (fun counts r => counts.modify r.code (· + 1)) counts

/-- One less for each of the things. Those that nothing refers to any more are added to `gone`. -/
def countDown (counts : Array Nat) (gone : List Referent) :
    List Referent → Array Nat × List Referent
  | [] => (counts, gone)
  | r :: rest =>
    let left := counts.getD r.code 0 - 1
    countDown (counts.setIfInBounds r.code left) (if left = 0 then r :: gone else gone) rest

/-- Lets go of what the things in `gone` refer to, and of at most `n` things altogether. -/
def letGoOf (s : State) : Nat → Array Nat → List Referent → Array Nat
  | n + 1, counts, r :: gone =>
    let (counts, gone) := countDown counts gone (s.references r)
    letGoOf s n counts gone
  | _, counts, _ => counts

/-- How often each thing is referred to, from outside or by things that are still there. -/
def counts (s : State) : Array Nat :=
  let all := s.referents
  let size := all.foldl (fun m r => max m (r.code + 1)) 0
  let before := all.foldl (fun counts r => countUp counts (s.references r))
    (countUp (Array.replicate size 0) s.roots)
  -- Things that refer to each other in a cycle keep each other, and are never let go of.
  s.letGoOf s.referentCount before (all.filter fun r => before.getD r.code 0 == 0)

def unseen (seen : Std.HashSet Nat) (new : List Referent) :
    List Referent → List Referent × Std.HashSet Nat
  | [] => (new, seen)
  | r :: rest =>
    if seen.contains r.code then unseen seen new rest
    else unseen (seen.insert r.code) (r :: new) rest

/-- Whether references lead from the things in `new` to `target`, in `n` steps at most and not
through what was seen before. -/
def leadsTo (s : State) (target : Referent) : Nat → Std.HashSet Nat → List Referent → Bool
  | 0, _, _ | _, _, [] => false
  | n + 1, seen, new =>
    if new.contains target then true
    else
      -- One step further from everything that was new.
      let (new, seen) :=
        new.foldl (fun (new, seen) r => unseen seen new (s.references r)) ([], seen)
      leadsTo s target n seen new

def reaches (s : State) (given : List Referent) (target : Referent) : Bool :=
  s.leadsTo target (s.referentCount + 1) ∅ given

/-- Whether the constants from the top level on lead to a type by its own name. -/
def isFoundByName (s : State) (t : TypeId) : Bool :=
  s.types.follow CoreType.object.id ((s.types.name t).splitOn ".") == some t

def isRetained (s : State) (t : TypeId) : Bool :=
  s.isFoundByName t || s.reaches coreTypes (.type t) || s.reaches s.roots (.type t) ||
    s.counts.getD (Referent.type t).code 0 != 0

/-- Forgets which module or type `t` was defined in if that is gone, and so on outward up to the
constant `name`, over at most `n` types. -/
def letGoWithin (name : String) : Nat → TypeId → State → State
  | 0, _, s => s
  | n + 1, t, s =>
    -- A lookup of the constant goes no further outward than here.
    if (s.types.constant? t name).isSome then s
    else match s.types.parent t with
      | none => s
      | some outer =>
        if s.isRetained outer then letGoWithin name n outer s
        else { s with types := s.types.modify t fun i => { i with parent := none } }

def letGoAround (s : State) (name : String) (t : TypeId) : State :=
  letGoWithin name (s.types.all.size + 1) t s

/-- The first of `n` types, from `t` outward, that has the constant `name`. -/
def outwardWithin (s : State) (name : String) : Nat → TypeId → Option Value
  | 0, _ => none
  | n + 1, t =>
    match s.types.constant? t name with
    | some v => some v
    | none => match s.types.parent t with
      | some outer => outwardWithin s name n outer
      | none => none

/-- A constant as seen from code inside `t`: from there outward, then from the ancestors of `t`, and
last from the top level. -/
def findConstant (s : State) (t : TypeId) (name : String) : Option Value :=
  match s.outwardWithin name (s.types.all.size + 1) t with
  | some v => some v
  | none => match (s.types.ancestors t).findSome? (s.types.constant? · name) with
    | some v => some v
    | none => s.types.constant? CoreType.object.id name

end State

end Quill
