import Quill.Bindings

/-!
# Scopes

Variables live in scopes, and every scope but the root has an enclosing one. A variable is looked up
from the inside outward. Scopes are numbered in the order they were made, so an enclosing scope has
a smaller number than those inside it.
-/

namespace Quill

structure ScopeId where
  index : Nat
  deriving DecidableEq, Inhabited, Repr

structure Scope (α : Type) where
  bindings : Bindings α
  parent : Option ScopeId
  deriving Inhabited, Repr

structure Scopes (α : Type) where
  all : Array (Scope α)
  deriving Inhabited, Repr

namespace Scopes

variable {α : Type}

def initial : Scopes α := ⟨#[⟨.empty, none⟩]⟩

def root : ScopeId := ⟨0⟩

def fresh (s : Scopes α) : ScopeId := ⟨s.all.size⟩

/-- Makes a scope inside `outer`; its number is `s.fresh`. -/
def child (s : Scopes α) (outer : ScopeId) : Scopes α := ⟨s.all.push ⟨.empty, some outer⟩⟩

def bindings (s : Scopes α) (id : ScopeId) : Bindings α :=
  match s.all[id.index]? with
  | some scope => scope.bindings
  | none => .empty

def parent (s : Scopes α) (id : ScopeId) : Option ScopeId :=
  match s.all[id.index]? with
  | some scope => scope.parent
  | none => none

/-- Binds a variable in the scope `id` itself, hiding one outside of it. -/
def define (s : Scopes α) (id : ScopeId) (name : String) (value : α) : Scopes α :=
  ⟨s.all.modify id.index fun scope => { scope with bindings := scope.bindings.set name value }⟩

/-- The innermost of `n` scopes, from `id` outward, that binds `name`. -/
def ownerWithin (s : Scopes α) (name : String) : Nat → ScopeId → Option ScopeId
  | 0, _ => none
  | n + 1, id =>
    match (s.bindings id).get? name with
    | some _ => some id
    | none => match s.parent id with
      | some outer => ownerWithin s name n outer
      | none => none

def owner (s : Scopes α) (id : ScopeId) (name : String) : Option ScopeId :=
  s.ownerWithin name (id.index + 1) id

def get? (s : Scopes α) (id : ScopeId) (name : String) : Option α :=
  match s.owner id name with
  | some there => (s.bindings there).get? name
  | none => none

/-- Gives a variable a new value where it is bound, or binds it in the scope `id`. -/
def set (s : Scopes α) (id : ScopeId) (name : String) (value : α) : Scopes α :=
  s.define ((s.owner id name).getD id) name value

def contains (s : Scopes α) (id : ScopeId) (name : String) : Bool := (s.get? id name).isSome

def names (s : Scopes α) (id : ScopeId) : List String := (s.bindings id).names

end Scopes

end Quill
