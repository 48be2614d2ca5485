/-!
# Bindings in the order they were made

Names with values. Setting a name that is bound already keeps its place; a new name goes to the
end. Main statement: `get?_set`.
-/

namespace Quill

/-- Names with their values, oldest first. -/
structure Bindings (α : Type) where
  entries : List (String × α)
  deriving Inhabited, Repr

namespace Bindings

variable {α : Type}

def empty : Bindings α := ⟨[]⟩

def lookup (name : String) : List (String × α) → Option α
  | [] => none
  | (k, v) :: rest => if k = name then some v else lookup name rest

def update (name : String) (value : α) : List (String × α) → List (String × α)
  | [] => [(name, value)]
  | (k, v) :: rest =>
    if k = name then (k, value) :: rest else (k, v) :: update name value rest

def get? (b : Bindings α) (name : String) : Option α := lookup name b.entries

def set (b : Bindings α) (name : String) (value : α) : Bindings α :=
  ⟨update name value b.entries⟩

def names (b : Bindings α) : List String := b.entries.map (·.1)

theorem lookup_update (name other : String) (value : α) (l : List (String × α)) :
    lookup other (update name value l) = if name = other then some value else lookup other l := by
  induction l with
  | nil => simp [update, lookup]
  | cons p rest ih =>
    obtain ⟨k, v⟩ := p
    by_cases h : k = name <;> by_cases h' : k = other <;> simp_all [update, lookup]
    rintro rfl; contradiction

theorem get?_set (b : Bindings α) (name other : String) (value : α) :
    (b.set name value).get? other = if name = other then some value else b.get? other :=
  lookup_update name other value b.entries

theorem get?_set_self (b : Bindings α) (name : String) (value : α) :
    (b.set name value).get? name = some value := by
  rw [get?_set, if_pos rfl]

end Bindings

end Quill
