import Quill.Proofs.Evolution

/-!
# What holds of every type and module

A property that new types and modules have, and that they keep whatever they get, holds of all of
them at all times. Main statement: `Types.every_enduring`.
-/

namespace Quill

/-- New types and modules are as `P` says, and stay so with more constants, attributes, modules and
documentation, and when what they were defined in is gone. -/
structure TypeInfo.Lasting (P : TypeInfo → Prop) : Prop where
  new (name : String) (sort : TypeSort) (superclass parent : Option TypeId) :
    P (.new name sort superclass parent)
  constant {t : TypeInfo} (name : String) (v : Value) : P t →
    P { t with constants := t.constants.set name v }
  attr {t : TypeInfo} (name : String) (v : Value) : P t → P { t with attrs := t.attrs.set name v }
  includes {t : TypeInfo} (includes : List TypeId) : P t → P { t with includes }
  doc {t : TypeInfo} (doc : Option String) : P t → P { t with doc }
  orphan {t : TypeInfo} : P t → P { t with parent := none }

namespace Types

variable {ts : Types} {id : TypeId} {P : TypeInfo → Prop}

def Every (ts : Types) (P : TypeInfo → Prop) : Prop := ∀ id t, ts.get? id = some t → P t

theorem every_empty (P : TypeInfo → Prop) : empty.Every P := fun _ _ h ↦ by simp [get?, empty] at h

namespace Every

theorem modify (h : ts.Every P) {f : TypeInfo → TypeInfo} (hf : ∀ t, P t → P (f t)) :
    (ts.modify id f).Every P := by
  intro other t ht
  simp only [get?, Types.modify, Array.getElem?_modify] at ht
  split at ht
  · obtain ⟨old, hold, rfl⟩ := Option.map_eq_some_iff.mp ht
    exact hf old (h other old hold)
  · exact h other t ht

theorem add (h : ts.Every P) {t : TypeInfo} (ht : P t) : (ts.add t).Every P := by
  intro other t' ht'
  simp only [get?, Types.add, Array.getElem?_push] at ht'
  split at ht'
  · cases ht'
    exact ht
  · exact h other t' ht'

theorem foldl {α : Type} {xs : List α} {f : Types → α → Types} (h : ts.Every P)
    (hf : ∀ ts : Types, ts.Every P → ∀ x ∈ xs, (f ts x).Every P) : (xs.foldl f ts).Every P :=
  List.foldlRecOn (motive := (·.Every P)) xs f h hf

section

variable (hP : TypeInfo.Lasting P)
include hP

theorem setConstant (h : ts.Every P) (name : String) (v : Value) :
    (ts.setConstant id name v).Every P := h.modify fun _ ↦ hP.constant name v

theorem includeModule (h : ts.Every P) (module : TypeId) :
    (ts.includeModule id module).Every P := by
  unfold Types.includeModule
  split
  · exact h.modify fun _ ↦ hP.includes _
  · exact h

theorem mixIn (h : ts.Every P) (module : TypeId) : (ts.mixIn id module).Every P := by
  unfold Types.mixIn
  split
  · exact h.includeModule hP module
  · exact h

theorem document (h : ts.Every P) (doc : Option String) : (ts.document id doc).Every P := by
  cases doc with
  | none => exact h
  | some doc => exact h.modify fun _ ↦ hP.doc _

theorem declare (h : ts.Every P) (container : TypeId) (sort : TypeSort) (name : String)
    (superclass : Option TypeId) : (ts.declare container sort name superclass).2.Every P :=
  (h.add (hP.new _ _ _ _)).setConstant hP name _

theorem letGoAround {s : State} (h : s.types.Every P) (name : String) (t : TypeId) :
    (s.letGoAround name t).types.Every P := by
  obtain hsame | ⟨u, hless⟩ := s.letGoAround_cases name t
  · rwa [hsame]
  · rw [hless]
    exact h.modify fun _ ↦ hP.orphan

end

theorem addNative (h : ts.Every P) (classSide : Bool) {name : String} {signature : Signature}
    {routine : Routine}
    (hmethod : ∀ t n, P t → n.routine = routine →
      P { t with methods := MethodTable.insert t.methods name (.native n) })
    (hclass : ∀ t n, P t → n.routine = routine →
      P { t with classMethods := MethodTable.insert t.classMethods name (.native n) }) :
    (ts.addNative id classSide name signature routine).Every P := by
  unfold Types.addNative
  split
  · exact h.modify fun t ht ↦ hclass t _ ht rfl
  · exact h.modify fun t ht ↦ hmethod t _ ht rfl

end Every

theorem every_core (hP : TypeInfo.Lasting P) : core.Every P := by
  unfold core
  exact ((every_empty P).foldl fun _ h c _ ↦ h.add (hP.new _ _ _ _)).foldl
    fun _ h c _ ↦ h.setConstant hP c.name _

theorem every_enduring (hP : TypeInfo.Lasting P)
    (hmethod : ∀ {t : TypeInfo} (name : String) (d : MethodDef), P t →
      P { t with methods := MethodTable.insert t.methods name (.user d) })
    (hclass : ∀ {t : TypeInfo} (name : String) (d : MethodDef), P t →
      P { t with classMethods := MethodTable.insert t.classMethods name (.user d) }) :
    State.Enduring fun s s' ↦ s.types.Every P → s'.types.Every P where
  refl _ := id
  trans h h' := h' ∘ h
  change hf s h := by
    cases hf with
    | setTypeAttr t name v => exact h.modify fun _ ↦ hP.attr name v
    | setConstant t name v => exact h.setConstant hP name v
    | addMethod t name d => exact h.modify fun _ ↦ hmethod name d
    | addClassMethod t name d => exact h.modify fun _ ↦ hclass name d
    | includeModule t module => exact h.mixIn hP module
    | derive container sort name superclass => exact h.declare hP container sort name _
    | document t doc => exact h.document hP doc
    | letGo name t => exact h.letGoAround hP name t
    | _ => exact h
  held _ _ := id
  counted _ := id
  framed _ _ := id
  rescued _ _ := id

end Types

end Quill
