import Quill.Expr

/-!
# The definitions of a program

The types, modules and methods of a program with their documentation and nesting, as a reader of
the documentation sees them. Nothing is evaluated; definitions inside other expressions are left
out.
-/

namespace Quill

/-- What a definition defines. A method may belong to the type itself. -/
inductive DefinitionSort where
  | type | module | method | classMethod
  deriving DecidableEq, Inhabited, Repr

inductive Definition where
  | mk (sort : DefinitionSort) (name : String) (doc signature : Option String)
      (children : List Definition) (span : Span)
  deriving Inhabited, Repr

namespace TypeSort

def definition : TypeSort → DefinitionSort
  | type => .type
  | module => .module

end TypeSort

namespace Expr

mutual

def definition? : Expr → Option Definition
  | ⟨.type ⟨sort, name, _, body, doc, span⟩, _⟩ =>
    some (.mk sort.definition name.name doc none (definitions body) span)
  | ⟨.method d, _⟩ =>
    some (.mk (if d.singleton then .classMethod else .method) d.name.name d.doc
      (some d.params.text) [] d.span)
  | _ => none

def definitions : List Expr → List Definition
  | [] => []
  | e :: rest =>
    match definition? e with
    | some d => d :: definitions rest
    | none => definitions rest

end

end Expr

namespace Program

def outline (p : Program) : List Definition := Expr.definitions p.body

end Program

end Quill
