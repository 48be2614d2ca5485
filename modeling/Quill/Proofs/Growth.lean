import Quill.Proofs.Evolution
import Quill.Proofs.ScopeForest

/-!
# What only grows

No work takes anything away from a type or module: it stays what it is and has all that it had in
the same order, what is new coming after it. So what a value once was an instance of, it stays an
instance of. Main statement: `model_only_grows`.
-/

namespace Quill

theorem Bindings.names_prefix_set {α : Type} (b : Bindings α) (name : String) (value : α) :
    b.names <+: (b.set name value).names := by
  rw [names_set, addNew_cons]
  split
  · exact List.prefix_rfl
  · exact List.prefix_append b.names [name]

/-- The same type or module, which may have got more. -/
structure TypeInfo.Extends (t t' : TypeInfo) : Prop where
  name : t'.name = t.name
  sort : t'.sort = t.sort
  superclass : t'.superclass = t.superclass
  includes : t.includes <+: t'.includes
  constants : t.constants.names <+: t'.constants.names
  methods : t.methods.names <+: t'.methods.names
  classMethods : t.classMethods.names <+: t'.classMethods.names

namespace TypeInfo

variable {t t' t'' : TypeInfo}

theorem Extends.refl (t : TypeInfo) : t.Extends t :=
  ⟨rfl, rfl, rfl, List.prefix_rfl, List.prefix_rfl, List.prefix_rfl, List.prefix_rfl⟩

theorem Extends.trans (h : t.Extends t') (h' : t'.Extends t'') : t.Extends t'' where
  name := h'.name.trans h.name
  sort := h'.sort.trans h.sort
  superclass := h'.superclass.trans h.superclass
  includes := h.includes.trans h'.includes
  constants := h.constants.trans h'.constants
  methods := h.methods.trans h'.methods
  classMethods := h.classMethods.trans h'.classMethods

end TypeInfo

namespace Types

variable {ts ts' ts'' : Types} {id t u : TypeId}

/-- All that is there in `ts` is still there in `ts'`. -/
def Extends (ts ts' : Types) : Prop :=
  ∀ (id : TypeId) (t : TypeInfo), ts.get? id = some t →
    ∃ t', ts'.get? id = some t' ∧ t.Extends t'

theorem Extends.refl (ts : Types) : ts.Extends ts := fun _ t h ↦ ⟨t, h, .refl t⟩

theorem Extends.trans (h : ts.Extends ts') (h' : ts'.Extends ts'') : ts.Extends ts'' := by
  intro id t ht
  obtain ⟨t', ht', hext⟩ := h id t ht
  obtain ⟨t'', ht'', hext'⟩ := h' id t' ht'
  exact ⟨t'', ht'', hext.trans hext'⟩

theorem extends_modify {f : TypeInfo → TypeInfo} (hf : ∀ t : TypeInfo, t.Extends (f t)) :
    ts.Extends (ts.modify id f) := by
  intro other t ht
  by_cases h : id.index = other.index
  · refine ⟨f t, ?_, hf t⟩
    rw [get?] at ht
    simp [get?, Types.modify, Array.getElem?_modify, h, ht]
  · refine ⟨t, ?_, .refl t⟩
    rw [get?] at ht
    simp [get?, Types.modify, Array.getElem?_modify, h, ht]

theorem extends_add (ts : Types) (made : TypeInfo) : ts.Extends (ts.add made) := by
  intro id t ht
  refine ⟨t, ?_, .refl t⟩
  have hlt : id.index < ts.all.size := (Array.getElem?_eq_some_iff.mp ht).1
  rw [get?] at ht
  simp [get?, Types.add, Array.getElem?_push, Nat.ne_of_lt hlt, ht]

theorem extends_setConstant (name : String) (v : Value) :
    ts.Extends (ts.setConstant id name v) :=
  extends_modify fun t ↦ { TypeInfo.Extends.refl t with
    constants := t.constants.names_prefix_set name v }

theorem extends_addMethod (name : String) (c : Clause) : ts.Extends (ts.addMethod id name c) :=
  extends_modify fun t ↦ { TypeInfo.Extends.refl t with
    methods := Bindings.names_prefix_set t.methods name _ }

theorem extends_addClassMethod (name : String) (c : Clause) :
    ts.Extends (ts.addClassMethod id name c) :=
  extends_modify fun t ↦ { TypeInfo.Extends.refl t with
    classMethods := Bindings.names_prefix_set t.classMethods name _ }

theorem extends_includeModule (module : TypeId) : ts.Extends (ts.includeModule id module) := by
  unfold includeModule
  split
  · exact extends_modify fun t ↦ { TypeInfo.Extends.refl t with
      includes := List.prefix_append _ _ }
  · exact .refl ts

theorem extends_mixIn (module : TypeId) : ts.Extends (ts.mixIn id module) := by
  unfold mixIn
  split
  · exact ts.extends_includeModule module
  · exact .refl ts

theorem extends_declare (container : TypeId) (sort : TypeSort) (name : String)
    (superclass : Option TypeId) : ts.Extends (ts.declare container sort name superclass).2 :=
  (ts.extends_add _).trans (extends_setConstant name _)

theorem extends_document (doc : Option String) : ts.Extends (ts.document id doc) := by
  cases doc with
  | some d => exact extends_modify fun t ↦ { TypeInfo.Extends.refl t with }
  | none => exact .refl ts

theorem Extends.sort (h : ts.Extends ts') {info : TypeInfo} (ht : ts.get? t = some info) :
    ts'.sort t = ts.sort t := by
  obtain ⟨info', ht', hext⟩ := h t info ht
  simp only [Types.sort, ht, ht', hext.sort]

theorem Extends.inherits (h : ts.Extends ts') (hi : ts.Inherits t u) : ts'.Inherits t u := by
  cases hget : ts.get? t with
  | none => simp [Inherits, Types.includes, Types.superclass, hget] at hi
  | some info =>
    obtain ⟨info', hget', hext⟩ := h t info hget
    simp only [Inherits, Types.includes, Types.superclass, hget, hget'] at hi ⊢
    refine hi.imp (hext.includes.subset ·) fun hs ↦ ?_
    exact hext.superclass.trans hs

theorem Extends.ancestors (h : ts.Extends ts') (t : TypeId) :
    ts.ancestors t ⊆ ts'.ancestors t := by
  intro u hu
  rw [mem_ancestors] at hu ⊢
  exact Relation.ReflTransGen.mono (fun _ _ ↦ h.inherits) _ _ hu

theorem Extends.descendsFrom (h : ts.Extends ts') (ht : ts.descendsFrom t u = true) :
    ts'.descendsFrom t u = true := by
  simp only [Types.descendsFrom, List.contains_iff_mem] at ht ⊢
  exact h.ancestors t ht

end Types

namespace State

variable {s s' s'' : State}

/-- Nothing of the object model is lost, and neither steps nor output are taken back. -/
structure Extends (s s' : State) : Prop where
  types : s.types.Extends s'.types
  objects : ∀ (i : Nat) (o : Object), s.objects[i]? = some o →
    ∃ o', s'.objects[i]? = some o' ∧ o'.type = o.type
  steps : s.steps ≤ s'.steps
  output : ∃ text, s'.output = s.output ++ text

theorem Extends.refl (s : State) : s.Extends s :=
  ⟨.refl _, fun _ o h ↦ ⟨o, h, rfl⟩, Nat.le_refl _, "", (String.append_empty).symm⟩

theorem Extends.trans (h : s.Extends s') (h' : s'.Extends s'') : s.Extends s'' where
  types := h.types.trans h'.types
  objects i o ho := by
    obtain ⟨o', ho', heq⟩ := h.objects i o ho
    obtain ⟨o'', ho'', heq'⟩ := h'.objects i o' ho'
    exact ⟨o'', ho'', heq'.trans heq⟩
  steps := Nat.le_trans h.steps h'.steps
  output := by
    obtain ⟨text, ht⟩ := h.output
    obtain ⟨text', ht'⟩ := h'.output
    exact ⟨text ++ text', by rw [ht', ht, String.append_assoc]⟩

theorem extends_of_types {types : Types} (h : s.types.Extends types) :
    s.Extends { s with types } := { Extends.refl s with types := h }

theorem extends_newObject (s : State) (t : TypeId) (attrs : Bindings Value) :
    s.Extends (s.newObject t attrs).2 := by
  refine { Extends.refl s with objects := fun i o ho ↦ ⟨o, ?_, rfl⟩ }
  have hlt : i < s.objects.size := (Array.getElem?_eq_some_iff.mp ho).1
  simp [newObject, Array.getElem?_push, Nat.ne_of_lt hlt, ho]

theorem extends_setObjectAttr (s : State) (target : ObjectId) (name : String) (v : Value) :
    s.Extends (s.setObjectAttr target name v) := by
  refine { Extends.refl s with objects := fun i o ho ↦ ?_ }
  by_cases h : target.index = i
  · simp [setObjectAttr, Array.getElem?_modify, h, ho]
  · simp [setObjectAttr, Array.getElem?_modify, h, ho]

theorem Change.extends {α : Type} {f : State → α × State} (h : Change f) (s : State) :
    s.Extends (f s).2 := by
  cases h with
  | newObject t attrs => exact extends_newObject s t attrs
  | setObjectAttr o name v => exact extends_setObjectAttr s o name v
  | setTypeAttr t name v =>
    exact extends_of_types (Types.extends_modify fun t ↦ { TypeInfo.Extends.refl t with })
  | setConstant t name v => exact extends_of_types (Types.extends_setConstant name v)
  | addMethod t name d => exact extends_of_types (Types.extends_addMethod name _)
  | addClassMethod t name d => exact extends_of_types (Types.extends_addClassMethod name _)
  | includeModule t module => exact extends_of_types (Types.extends_mixIn module)
  | derive container sort name superclass =>
    exact extends_of_types (Types.extends_declare container sort name _)
  | document t doc => exact extends_of_types (Types.extends_document doc)
  | letGo name t =>
    dsimp only
    obtain h | ⟨u, h⟩ := s.letGoAround_cases name t
    · rw [h]
      exact .refl s
    · rw [h]
      exact extends_of_types (Types.extends_modify fun t ↦ { TypeInfo.Extends.refl t with })
  | write text => exact { Extends.refl s with output := ⟨text, rfl⟩ }
  | _ => exact { Extends.refl s with }

theorem extends_enduring : Enduring Extends where
  refl := .refl
  trans := .trans
  change := Change.extends
  held s _ := { Extends.refl s with }
  counted s := { Extends.refl s with steps := Nat.le_succ _ }
  framed s _ := { Extends.refl s with }
  rescued s _ := { Extends.refl s with }

def Has (s : State) : Value → Prop
  | .type t => t.index < s.types.all.size
  | .object o => o.index < s.objects.size
  | _ => True

theorem Extends.typeOf (h : s.Extends s') {v : Value} (hv : s.Has v) :
    s'.typeOf v = s.typeOf v := by
  cases v with
  | type t =>
    have hget : s.types.get? t = some s.types.all[t.index] := Array.getElem?_eq_getElem hv
    simp only [State.typeOf, h.types.sort hget]
  | object o =>
    have hget : s.objects[o.index]? = some s.objects[o.index] := Array.getElem?_eq_getElem hv
    obtain ⟨obj, hget', htype⟩ := h.objects o.index _ hget
    simp only [State.typeOf, State.object, hget, hget', htype]
  | _ => rfl

theorem Extends.has (h : s.Extends s') {v : Value} (hv : s.Has v) : s'.Has v := by
  cases v with
  | type t =>
    obtain ⟨info, hget, -⟩ := h.types t _ (Array.getElem?_eq_getElem hv)
    exact (Array.getElem?_eq_some_iff.mp hget).1
  | object o =>
    obtain ⟨obj, hget, -⟩ := h.objects o.index _ (Array.getElem?_eq_getElem hv)
    exact (Array.getElem?_eq_some_iff.mp hget).1
  | _ => trivial

theorem Extends.isInstance (h : s.Extends s') {v : Value} {t : TypeId} (hv : s.Has v)
    (ht : s.isInstance v t = true) : s'.isInstance v t = true := by
  unfold State.isInstance at ht ⊢
  rw [h.typeOf hv]
  exact h.types.descendsFrom ht

theorem Extends.isA (h : s.Extends s') {c : Call} (hc : s.Has c.receiver)
    (ht : ObjectRoutine.isA.run c s = .done (.ok (.bool true)) s) :
    ObjectRoutine.isA.run c s' = .done (.ok (.bool true)) s' := by
  have answer (s : State) (t : TypeId) (harg : c.arg 0 = .type t) :
      ObjectRoutine.isA.run c s = .done (.ok (.bool (s.isInstance c.receiver t))) s := by
    simp only [ObjectRoutine.run, harg]
    rfl
  cases harg : c.arg 0 with
  | type t =>
    rw [answer s t harg] at ht
    have hinst : s.isInstance c.receiver t = true := by simpa using ht
    rw [answer s' t harg, h.isInstance hc hinst]
  | _ =>
    simp only [ObjectRoutine.run, harg] at ht
    cases ht

end State

theorem Interpreter.run_extends {i i' : Interpreter} {p : Program} {fuel : Nat} {r : Result}
    (h : i.run p fuel = some (r, i')) : i.rested.state.Extends i'.state :=
  run_spans State.extends_enduring h

/-- From any moment of any work to any later one, and to its end however it ends, no type or module
and no instance loses anything; so no type loses an ancestor, and what a value is an instance of it
stays an instance of. -/
theorem model_only_grows :
    (∀ t s m m', (Machine.start t s).Reaches m → m.Reaches m' →
      s.Extends m.work.state ∧ m.work.state.Extends m'.work.state) ∧
    (∀ t s n o s', (Machine.start t s).run n = some (o, s') → s.Extends s') ∧
    (∀ i p n r i', Interpreter.run i p n = some (r, i') → i.rested.state.Extends i'.state) ∧
    ∀ s s' : State, s.Extends s' →
      (∀ t, s.types.ancestors t ⊆ s'.types.ancestors t) ∧
      (∀ v, s.Has v → s'.Has v ∧ ∀ t, s.isInstance v t = true → s'.isInstance v t = true) ∧
      ∀ c, s.Has c.receiver → ObjectRoutine.isA.run c s = .done (.ok (.bool true)) s →
        ObjectRoutine.isA.run c s' = .done (.ok (.bool true)) s' := by
  refine ⟨fun t s m m' hm hm' ↦ ?_, fun t s n o s' h ↦ ?_, fun i p n r i' h ↦ ?_,
    fun s s' h ↦ ⟨h.types.ancestors, fun v hv ↦ ⟨h.has hv, fun t ↦ h.isInstance hv⟩,
      fun c ↦ h.isA⟩⟩
  · exact ⟨hm.evolves_start State.extends_enduring, hm.evolves State.extends_enduring hm'⟩
  · exact State.extends_enduring.spans t s n o s' h
  · exact Interpreter.run_extends h

/-- `type T end`. -/
def definesType : Program :=
  ⟨[⟨.type ⟨.type, ⟨"T", .origin⟩, none, [], none, .origin⟩, .origin⟩], .origin⟩

theorem model_only_grows_of_definition :
    let i : Interpreter := ⟨.initial ⟨none, 8, false⟩⟩
    let c : Call := ⟨.int 1, [.type CoreType.object.id], none, .origin⟩
    ∃ r i', i.run definesType 20 = some (r, i') ∧ i.rested.state.Extends i'.state ∧
      i.rested.state.types.all.size < i'.state.types.all.size ∧
      i'.state.isInstance (.int 1) CoreType.object.id = true ∧
      ObjectRoutine.isA.run c i'.state = .done (.ok (.bool true)) i'.state := by
  intro i c
  obtain ⟨-, -, hruns, hextends⟩ := model_only_grows
  have hdefines : (i.run definesType 20).map (fun x ↦ decide
      (i.rested.state.types.all.size < x.2.state.types.all.size)) = some true := by decide +kernel
  obtain ⟨⟨r, i'⟩, hrun, hmore⟩ := Option.map_eq_some_iff.mp hdefines
  have hgrown := hruns i definesType 20 r i' hrun
  obtain ⟨-, hvalues, hasked⟩ := hextends _ _ hgrown
  have hbefore : i.rested.state.isInstance (.int 1) CoreType.object.id = true := by decide +kernel
  refine ⟨r, i', hrun, hgrown, of_decide_eq_true hmore, (hvalues (.int 1) trivial).2 _ hbefore,
    hasked c trivial ?_⟩
  exact congrArg (fun b ↦ Step.done (.ok (Value.bool b)) i.rested.state) hbefore

end Quill
