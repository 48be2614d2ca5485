import Quill.State

/-!
# Values as finite trees

A snapshot shows what a value is made of at one moment, without identities. Where a list or instance
comes up inside itself it is not shown again.
-/

namespace Quill

inductive Snapshot where
  | nil
  | bool (value : Bool)
  | int (value : Int64)
  | float (value : Float)
  | str (value : String)
  | symbol (name : String)
  | list (items : List Snapshot)
  | lambda (params : String) (arity : Int)
  | type (sort : TypeSort) (name : String)
  | object (type : String) (attrs : List (String × Snapshot))
  /-- The list or instance around this one that many levels out, 1 being the nearest. -/
  | again (levels : Nat)
  deriving Inhabited

namespace Snapshot

def isCyclic : Snapshot → Bool
  | again _ => true
  | list items => any items
  | object _ attrs => anyAttr attrs
  | _ => false
where
  any : List Snapshot → Bool
    | [] => false
    | v :: vs => isCyclic v || any vs
  anyAttr : List (String × Snapshot) → Bool
    | [] => false
    | (_, v) :: rest => isCyclic v || anyAttr rest

end Snapshot

namespace State

/-- How many levels out `v` is among the values around, the nearest first. -/
def levelOf? (v : Value) (around : List Value) : Option Nat :=
  (around.findIdx? v.identical).map (· + 1)

def snapshotWithin (s : State) : Nat → List Value → Value → Snapshot
  | _, _, .nil => .nil
  | _, _, .bool b => .bool b
  | _, _, .int n => .int n
  | _, _, .float x => .float x
  | _, _, .str t => .str t
  | _, _, .symbol t => .symbol t
  | _, _, .lambda l => match s.lambda? l with
    | some l => .lambda l.block.params.text l.arity
    | none => .nil
  | _, _, .type t => .type (s.types.sort t) (s.types.name t)
  -- Not met from `snapshot`, whose bound no chain of distinct lists and instances exceeds.
  | 0, _, _ => .nil
  | n + 1, around, .list l =>
    let v := .list l
    match levelOf? v around with
    | some k => .again k
    | none => .list ((s.items l).toList.map (snapshotWithin s n (v :: around)))
  | n + 1, around, .object o =>
    let v := .object o
    match levelOf? v around with
    | some k => .again k
    | none =>
      let object := s.object o
      .object (s.types.name object.type)
        (object.attrs.entries.map fun (name, a) => (name, snapshotWithin s n (v :: around) a))

/-- The tree of a value. It has no more levels than there are lists and instances, and one for what
is in the innermost of them. -/
def snapshot (s : State) (v : Value) : Snapshot :=
  s.snapshotWithin (s.lists.size + s.objects.size + 1) [] v

end State

end Quill
