import Quill.Outline
import Quill.Proofs.Grammar.Parts

/-!
# Definitions and their places

Where a definition stands in a program, by the names of the types around it, and the same for its
entry in the outline. The two go together: the outline has the definitions of the program, each at
its place.
-/

namespace Quill

/-- The expression stands among `es`, inside the types named `outer`, the outermost one first. -/
inductive Expr.Defines : List Expr → List String → Expr → Prop
  | here {es : List Expr} {e : Expr} : e ∈ es → Defines es [] e
  | inside {es : List Expr} {d : TypeDef} {s : Span} {outer : List String} {e : Expr} :
    ⟨.type d, s⟩ ∈ es → Defines d.body outer e → Defines es (d.name.name :: outer) e

namespace Definition

def sort : Definition → DefinitionSort
  | mk sort .. => sort

def name : Definition → String
  | mk _ name .. => name

def doc : Definition → Option String
  | mk _ _ doc .. => doc

def signature : Definition → Option String
  | mk _ _ _ signature .. => signature

def children : Definition → List Definition
  | mk _ _ _ _ children _ => children

/-- The entry stands in an outline, inside those named `outer`. -/
inductive Listed : List Definition → List String → Definition → Prop
  | here {os : List Definition} {o : Definition} : o ∈ os → Listed os [] o
  | inside {os : List Definition} {o o' : Definition} {outer : List String} : o' ∈ os →
    Listed o'.children outer o → Listed os (o'.name :: outer) o

end Definition

open Expr (definitions definition?)

theorem Expr.definitions_eq_filterMap (es : List Expr) :
    definitions es = es.filterMap definition? := by
  induction es with
  | nil => rw [definitions, List.filterMap_nil]
  | cons e es ih =>
    rw [definitions, List.filterMap_cons, ih]
    cases definition? e <;> rfl

def TypeDef.definition (d : TypeDef) : Definition :=
  .mk d.sort.definition d.name.name d.doc none (definitions d.body) d.span

def MethodDef.definition (d : MethodDef) : Definition :=
  .mk (if d.singleton then .classMethod else .method) d.name.name d.doc (some d.params.text) []
    d.span

theorem Expr.definition?_type (d : TypeDef) (s : Span) :
    definition? ⟨.type d, s⟩ = some d.definition := by
  obtain ⟨sort, name, superclass, body, doc, span⟩ := d
  rw [definition?]
  rfl

theorem Expr.definition?_method (d : MethodDef) (s : Span) :
    definition? ⟨.method d, s⟩ = some d.definition := by
  rw [definition?]
  rfl

namespace Expr.Defines

variable {es : List Expr} {outer : List String} {e : Expr}

theorem declares {K : Token.Kind → Prop} (h : Defines es outer e) (hes : AllDeclare K es) :
    e.Declares K := by
  induction h with
  | here he => exact allDeclare_iff.mp hes _ he
  | @inside es d s outer e hd _ ih =>
    have h := allDeclare_iff.mp hes _ hd
    obtain ⟨sort, name, superclass, body, doc, span⟩ := d
    exact ih h.2

theorem listed {o : Definition} (h : Defines es outer e) (ho : definition? e = some o) :
    Definition.Listed (definitions es) outer o := by
  induction h with
  | here he =>
    rw [definitions_eq_filterMap]
    exact .here (List.mem_filterMap.mpr ⟨_, he, ho⟩)
  | @inside es d s outer e hd _ ih =>
    rw [definitions_eq_filterMap]
    have hentry : Definition.Listed (es.filterMap definition?) (d.definition.name :: outer) o :=
      .inside (List.mem_filterMap.mpr ⟨_, hd, definition?_type d s⟩) (ih ho)
    exact hentry

end Expr.Defines

theorem Definition.Listed.defines {es : List Expr} {outer : List String} {o : Definition}
    (h : Listed (definitions es) outer o) :
    ∃ e, Expr.Defines es outer e ∧ definition? e = some o := by
  generalize hos : definitions es = os at h
  induction h generalizing es with
  | here ho =>
    subst hos
    rw [Expr.definitions_eq_filterMap] at ho
    obtain ⟨e, he, hd⟩ := List.mem_filterMap.mp ho
    exact ⟨e, .here he, hd⟩
  | inside ho hlisted ih =>
    subst hos
    rw [Expr.definitions_eq_filterMap] at ho
    obtain ⟨⟨k, s⟩, he, hd⟩ := List.mem_filterMap.mp ho
    cases k with
    | type d =>
      rw [Expr.definition?_type] at hd
      cases hd
      obtain ⟨e, hin, hd⟩ := ih rfl
      exact ⟨e, .inside he hin, hd⟩
    | method d =>
      rw [Expr.definition?_method] at hd
      cases hd
      cases hlisted with
      | here h => cases h
      | inside h => cases h
    | _ => exact absurd hd (by simp [definition?])

end Quill
