import Mathlib.Data.List.Forall2
import Quill.Proofs.Fresh
import Quill.Proofs.Growth
import Quill.Proofs.Paths
import Quill.Proofs.Printing.Kinds
import Quill.Proofs.Reflected
import Quill.Proofs.StepLimit

namespace Quill

namespace Definition

def IsType (o : Definition) : Prop := o.sort = .type ∨ o.sort = .module

instance (o : Definition) : Decidable o.IsType := inferInstanceAs (Decidable (_ ∨ _))

end Definition

theorem TypeDef.definition_isType (d : TypeDef) : d.definition.IsType := by
  cases h : d.sort with
  | type => exact .inl (congrArg TypeSort.definition h)
  | module => exact .inr (congrArg TypeSort.definition h)

theorem MethodDef.definition_not_isType (d : MethodDef) : ¬ d.definition.IsType := by
  cases hside : d.singleton <;> simp [Definition.IsType, Definition.sort, definition, hside]

namespace Expr

theorem definition?_cases (e : Expr) : (∃ d s, e = ⟨.type d, s⟩) ∨ (∃ d s, e = ⟨.method d, s⟩) ∨
    (definition? e = none ∧ type? e = none ∧ ∀ singleton, method? singleton e = none) := by
  obtain ⟨k, s⟩ := e
  cases k with
  | type d => exact .inl ⟨d, s, rfl⟩
  | method d => exact .inr (.inl ⟨d, s, rfl⟩)
  | _ => exact .inr (.inr ⟨by rw [definition?] <;> simp, rfl, fun _ ↦ rfl⟩)

theorem filter_definitions {α : Type} {p : Definition → Bool} {f : α → Definition}
    {found : Expr → Option α} (h : ∀ e, (definition? e).filter p = (found e).map f)
    (es : List Expr) : (definitions es).filter p = (es.filterMap found).map f := by
  rw [definitions_eq_filterMap, List.filter_filterMap, List.map_filterMap]
  exact congrArg (List.filterMap · es) (funext h)

theorem filter_isType (es : List Expr) :
    (definitions es).filter (·.IsType) = (types es).map TypeDef.definition := by
  refine filter_definitions (fun e ↦ ?_) es
  obtain ⟨d, s, rfl⟩ | ⟨d, s, rfl⟩ | ⟨hnone, htype, -⟩ := definition?_cases e
  · simp [definition?_type, type?, d.definition_isType]
  · simp [definition?_method, type?, d.definition_not_isType]
  · rw [hnone, htype]
    rfl

theorem filter_methods (singleton : Bool) (es : List Expr) :
    (definitions es).filter (·.sort = if singleton then .classMethod else .method) =
      (methods singleton es).map MethodDef.definition := by
  refine filter_definitions (fun e ↦ ?_) es
  obtain ⟨d, s, rfl⟩ | ⟨d, s, rfl⟩ | ⟨hnone, -, hmethod⟩ := definition?_cases e
  · have hsort : d.definition.sort ≠ if singleton then .classMethod else .method := by
      have htype := d.definition_isType
      intro h
      cases singleton <;> simp [Definition.IsType, h] at htype
    simp [definition?_type, method?, hsort]
  · rw [definition?_method, method?]
    cases hside : d.singleton <;> cases singleton <;>
      simp [MethodDef.definition, Definition.sort, hside]
  · rw [hnone, hmethod]
    rfl

end Expr

theorem Token.dot_not_mem {name : String} (h : isName Char.isUpper false name = true) :
    '.' ∉ name.toList := by
  unfold isName at h
  split at h
  · cases h
  · rename_i c rest hname
    obtain ⟨hc, hrest⟩ := Bool.and_eq_true_iff.mp h
    rw [hname, List.mem_cons, not_or]
    refine ⟨?_, fun hdot ↦ ?_⟩
    · rintro rfl
      exact absurd hc (by decide)
    · exact absurd (all_of_continuation hrest _ hdot) (by decide)

namespace Expr.Defines

variable {es : List Expr} {outer : List String} {e : Expr} {d : TypeDef} {s : Span}

theorem within (h : Defines es outer ⟨.type d, s⟩) (he : e ∈ d.body) :
    Defines es (outer ++ [d.name.name]) e := by
  generalize hd : (⟨.type d, s⟩ : Expr) = e' at h
  induction h with
  | here hmem =>
    subst hd
    exact .inside hmem (.here he)
  | inside hmem _ ih => exact .inside hmem (ih hd)

theorem dot_not_mem (h : Defines es outer ⟨.type d, s⟩)
    (hes : AllDeclare Token.Kind.IsRead es) :
    ∀ name ∈ outer ++ [d.name.name], '.' ∉ name.toList := by
  have hname {d : TypeDef} {s : Span} (h : Declares Token.Kind.IsRead ⟨.type d, s⟩) :
      '.' ∉ d.name.name.toList := by
    obtain ⟨sort, name, superclass, body, doc, span⟩ := d
    exact Token.dot_not_mem h.1
  have hbody {d : TypeDef} {s : Span} (h : Declares Token.Kind.IsRead ⟨.type d, s⟩) :
      AllDeclare Token.Kind.IsRead d.body := by
    obtain ⟨sort, name, superclass, body, doc, span⟩ := d
    exact h.2
  generalize hd : (⟨.type d, s⟩ : Expr) = e' at h
  induction h with
  | here hmem =>
    subst hd
    exact List.forall_mem_singleton.mpr (hname (allDeclare_iff.mp hes _ hmem))
  | inside hmem _ ih =>
    have hdeclared := allDeclare_iff.mp hes _ hmem
    exact List.forall_mem_cons.mpr ⟨hname hdeclared, ih (hbody hdeclared) hd⟩

end Expr.Defines

theorem Expr.OnlyDefine.no_methods {es : List Expr} (h : OnlyDefine false es) (singleton : Bool) :
    methods singleton es = [] := by
  generalize hinside : false = inside at h
  induction h with
  | nil => rfl
  | type _ _ _ _ _ ih => exact ih hinside
  | method => cases hinside

namespace Interpreter

theorem object_standard : ∃ info, Types.standard.get? CoreType.object.id = some info := by
  obtain ⟨info, hinfo⟩ : ∃ info, Types.core.get? CoreType.object.id = some info := ⟨_, rfl⟩
  have hextends : Types.core.Extends Types.standard := by
    refine List.foldlRecOn _ _ (.refl _) fun ts h e _ ↦ h.trans ?_
    unfold Types.addNative
    split
    · exact Types.extends_addClassMethod _ _
    · exact Types.extends_addMethod _ _
  obtain ⟨info', hinfo', -⟩ := hextends CoreType.object.id info hinfo
  exact ⟨info', hinfo'⟩

theorem withPrelude_ready {prelude : Except SyntaxError Program} {config : Config} {fuel : Nat}
    {i : Interpreter} (h : withPrelude prelude config fuel = some (.ok i)) :
    i.state.config = config ∧ ∃ info, i.state.types.get? CoreType.object.id = some info := by
  cases prelude with
  | error e => cases h
  | ok p =>
    obtain ⟨⟨r, j⟩, hrun, h⟩ := Option.bind_eq_some_iff.mp h
    cases r with
    | error e => cases h
    | ok v =>
      cases h
      obtain ⟨hlater, hextends⟩ := run_spans (State.later_enduring.and State.extends_enduring) hrun
      refine ⟨hlater.config, ?_⟩
      obtain ⟨info, hinfo⟩ := object_standard
      obtain ⟨info', hinfo', -⟩ := hextends.types CoreType.object.id info hinfo
      exact ⟨info', hinfo'⟩

theorem run_defining {i : Interpreter} {p : Program} {ts : Types}
    (h : i.state.types.Defining false CoreType.object.id p.body ts)
    (hlimit : i.state.config.stepLimit = none) :
    ∃ v i' least, i'.state.types = ts ∧ ∀ fuel, least ≤ fuel → i.run p fuel = some (.ok v, i') := by
  have hstatements := (h.statements State.topContext rfl nofun).1
  obtain ⟨v, s, hgives, -, htypes⟩ := hstatements i.rested.state rfl hlimit
  obtain ⟨least, hrun⟩ : (Task.statements p.body State.topContext).Gives i.rested.state (.ok v) s :=
    .of_work (.answering hgives)
  exact ⟨v, ⟨{ s with frames := #[] }⟩, least, htypes, fun fuel ↦ run_of_machine hrun fuel⟩

/-- The description of the type or module at the end of a dotted path. -/
def reflect? (i : Interpreter) (path : String) : Option TypeSummary :=
  (i.type? path).map i.state.typeSummary

end Interpreter

namespace Definition

/-- The description of a method has what the entry, which is for a method in `es`, has, and what
the definition takes. -/
def Tells (es : List Expr) (o : Definition) (m : MethodSummary) : Prop :=
  ∃ d s, ⟨.method d, s⟩ ∈ es ∧ Expr.definition? ⟨.method d, s⟩ = some o ∧
    m = ⟨o.name, [⟨d.params.required, d.params.isVariadic, false, o.doc⟩]⟩

/-- The description of the type or module with the path, whose body is `es`, has what its entry
has. -/
structure Agrees (i : Interpreter) (path : List String) (es : List Expr) (o : Definition)
    (r : TypeSummary) : Prop where
  name : r.name = ".".intercalate path
  sort : r.sort.definition = o.sort
  doc : r.doc = o.doc
  methods : List.Forall₂ (Tells es) (o.children.filter (·.sort = .method)) r.instanceMethods
  classMethods : List.Forall₂ (Tells es) (o.children.filter (·.sort = .classMethod)) r.classMethods
  nested : r.nested.map some =
    (o.children.filter (·.IsType)).map fun o' ↦ i.reflect? (".".intercalate (path ++ [o'.name]))
  constants : r.constants = []

theorem tells_methods (singleton : Bool) (es : List Expr) :
    List.Forall₂ (Tells es)
      ((Expr.definitions es).filter (·.sort = if singleton then .classMethod else .method))
      ((Expr.methods singleton es).map MethodDef.summary) := by
  rw [Expr.filter_methods, List.forall₂_map_left_iff, List.forall₂_map_right_iff,
    List.forall₂_same]
  intro d hd
  obtain ⟨⟨k, s⟩, he, hd⟩ := List.mem_filterMap.mp hd
  cases k with
  | method d' =>
    rw [Expr.method?] at hd
    split at hd
    · cases hd
      exact ⟨d, s, he, Expr.definition?_method d s, rfl⟩
    · cases hd
  | _ => cases hd

theorem IsType.definition {e : Expr} {o : Definition} (ho : o.IsType)
    (h : Expr.definition? e = some o) : ∃ d s, e = ⟨.type d, s⟩ ∧ o = d.definition := by
  obtain ⟨d, s, rfl⟩ | ⟨d, s, rfl⟩ | ⟨hnone, -⟩ := Expr.definition?_cases e
  · rw [Expr.definition?_type] at h
    cases h
    exact ⟨d, s, rfl, rfl⟩
  · rw [Expr.definition?_method] at h
    cases h
    exact absurd ho d.definition_not_isType
  · rw [hnone] at h
    cases h

end Definition

theorem Interpreter.reflect?_agrees {i : Interpreter} {es : List Expr} {ids : List TypeId}
    {least : Nat} (h : i.state.types.Hosts least CoreType.object.id [] es ids) (hleast : 0 < least)
    (hread : Expr.AllDeclare Token.Kind.IsRead es) {outer : List String} {d : TypeDef} {s : Span}
    (hd : Expr.Defines es outer ⟨.type d, s⟩) :
    ∃ r, i.reflect? (".".intercalate (outer ++ [d.name.name])) = some r ∧
      d.definition.Agrees i (outer ++ [d.name.name]) d.body r := by
  obtain ⟨t, inner, around, hindex, hfollow, hget, hhosts⟩ := h.defined hd
  rw [List.nil_append] at hget hhosts
  have hsummary := State.typeSummary_of_hosts hget hhosts (Nat.lt_of_lt_of_le hleast hindex)
  have hreflect (d' : TypeDef) (hd' : d' ∈ Expr.types d.body) :
      i.reflect? (".".intercalate (outer ++ [d.name.name] ++ [d'.name.name])) =
        (i.state.types.follow t [d'.name.name]).map i.state.typeSummary := by
    obtain ⟨s', hmem⟩ := Expr.mem_types.mp hd'
    rw [reflect?, type?_intercalate (List.append_ne_nil_of_right_ne_nil _ (List.cons_ne_nil _ _))
      ((hd.within hmem).dot_not_mem hread), Types.follow_append, hfollow, Option.bind_some]
  refine ⟨i.state.typeSummary t, ?_, hsummary ▸ ⟨rfl, rfl, rfl,
    Definition.tells_methods false d.body, Definition.tells_methods true d.body, ?_, rfl⟩⟩
  · rw [reflect?, type?_intercalate (List.append_ne_nil_of_right_ne_nil _ (List.cons_ne_nil _ _))
      (hd.dot_not_mem hread), hfollow, Option.map_some]
  · calc (inner.map i.state.typeSummary).map some
      _ = (inner.map some).map (Option.map i.state.typeSummary) := by simp
      _ = (Expr.types d.body).map fun d' ↦
          (i.state.types.follow t [d'.name.name]).map i.state.typeSummary := by
        rw [← hhosts.follow, List.map_map]
        rfl
      _ = (Expr.types d.body).map fun d' ↦
          i.reflect? (".".intercalate (outer ++ [d.name.name] ++ [d'.name.name])) :=
        (List.map_congr_left hreflect).symm
      _ = ((Expr.definitions d.body).filter (·.IsType)).map fun o' ↦
          i.reflect? (".".intercalate (outer ++ [d.name.name] ++ [o'.name])) := by
        rw [Expr.filter_isType, List.map_map]
        rfl

/-- A program that only defines new types, modules and methods in them can be run. Then what can be
told about each type or module is what its entry in the outline tells, in the order of the source;
what its methods take is told from their definitions. -/
theorem outline_reflected {config : Config} {n : Nat} {i : Interpreter} {text : String}
    {p : Program} (hnew : Interpreter.new config n = some (.ok i))
    (hlimit : config.stepLimit = none) (hp : Program.ofText? text = .ok p)
    (hdefine : Expr.OnlyDefine false p.body)
    (hfresh : ∀ d ∈ Expr.types p.body,
      i.state.types.constant? CoreType.object.id d.name.name = none) :
    ∃ v i' least, (∀ fuel, least ≤ fuel → i.runText text fuel = some (.ok v, i')) ∧
      ∀ outer o, Definition.Listed p.outline outer o → o.IsType →
        ∃ d s r, Expr.Defines p.body outer ⟨.type d, s⟩ ∧
          Expr.definition? ⟨.type d, s⟩ = some o ∧
          i'.reflect? (".".intercalate (outer ++ [o.name])) = some r ∧
          o.Agrees i' (outer ++ [o.name]) d.body r := by
  obtain ⟨rfl, info, hinfo⟩ := Interpreter.withPrelude_ready hnew
  have hlacks : info.Lacks p.body := by
    refine ⟨fun d hd ↦ ?_, fun d hd ↦ ?_, fun d hd ↦ ?_⟩
    · have hnone := hfresh d hd
      rwa [Types.constant?, hinfo] at hnone
    · rw [hdefine.no_methods] at hd
      cases hd
    · rw [hdefine.no_methods] at hd
      cases hd
  have hplaced : info.PlacedAt CoreType.object.id [] :=
    fun name ↦ (if_pos rfl).trans String.intercalate_singleton.symm
  obtain ⟨ids, ts, hmakes⟩ := hdefine.makes hinfo hlacks hplaced
  obtain ⟨v, i', least, rfl, hrun⟩ := Interpreter.run_defining hmakes.defining hlimit
  refine ⟨v, i', least, fun fuel hfuel ↦ ?_, fun outer o ho htype ↦ ?_⟩
  · rw [Interpreter.runText, hp]
    exact hrun fuel hfuel
  · obtain ⟨e, hd, hentry⟩ := ho.defines
    obtain ⟨d, s, rfl, rfl⟩ := htype.definition hentry
    have hsize : 0 < i.state.types.all.size := Nat.zero_lt_of_lt (Types.lt_of_get? hinfo)
    obtain ⟨r, hr, hagrees⟩ :=
      Interpreter.reflect?_agrees hmakes.hosts hsize (Program.ofText?_declares hp) hd
    exact ⟨d, s, r, hd, hentry, hr, hagrees⟩

theorem State.constant?_of_not_mem {s : State} {name : String} (h : name ∉ s.topNames) :
    s.types.constant? CoreType.object.id name = none := by
  unfold State.topNames at h
  unfold Types.constant?
  cases hget : s.types.get? CoreType.object.id with
  | none => rfl
  | some info =>
    rw [hget] at h
    exact Option.not_isSome_iff_eq_none.mp fun hsome ↦
      h ((Bindings.get?_isSome info.constants name).mp hsome)

/-- The program only defines the module with that name, and documents it so. -/
def Program.documents (p : Program) (name doc : String) : Bool :=
  decide (Expr.OnlyDefine false p.body) && (Expr.types p.body).all (·.name.name == name) &&
    p.outline.any fun o ↦ o.sort == .module && o.name == name && o.doc == some doc

/-- A module with a type in it, which has a method for its instances and one for itself. -/
def geometry : String := "\n".intercalate [
  "# Plane geometry.",
  "module Geo",
  "  # A place.",
  "  type Point",
  "    # The place some steps away.",
  "    def away(steps, *more)",
  "    end",
  "    def self.origin",
  "    end",
  "  end",
  "end"]

theorem geometry_reflected : ∃ i p, Interpreter.new .standard 100 = some (.ok i) ∧
    Config.standard.stepLimit = none ∧ Program.ofText? geometry = .ok p ∧
    Expr.OnlyDefine false p.body ∧
    (∀ d ∈ Expr.types p.body, i.state.types.constant? CoreType.object.id d.name.name = none) ∧
    ∃ v i' least, (∀ fuel, least ≤ fuel → i.runText geometry fuel = some (.ok v, i')) ∧
      ∃ r, i'.reflect? "Geo" = some r ∧ r.sort = .module ∧ r.doc = some "Plane geometry." := by
  have hok : (Program.ofText? geometry).toOption.any (·.documents "Geo" "Plane geometry.") =
      true := by
    decide +kernel
  cases htext : Program.ofText? geometry with
  | error e =>
    rw [htext] at hok
    cases hok
  | ok p =>
    obtain ⟨i, hnew, hnames⟩ := Interpreter.new_topNames
    rw [htext] at hok
    obtain ⟨hchecked, hlisted⟩ := Bool.and_eq_true_iff.mp hok
    obtain ⟨hdefine, hgeo⟩ := Bool.and_eq_true_iff.mp hchecked
    have hdefine : Expr.OnlyDefine false p.body := of_decide_eq_true hdefine
    have hfresh : ∀ d ∈ Expr.types p.body,
        i.state.types.constant? CoreType.object.id d.name.name = none := by
      intro d hd
      rw [beq_iff_eq.mp (List.all_eq_true.mp hgeo d hd)]
      refine State.constant?_of_not_mem ?_
      rw [hnames]
      decide
    obtain ⟨v, i', least, hrun, hreflect⟩ := outline_reflected hnew rfl htext hdefine hfresh
    refine ⟨i, p, hnew, rfl, rfl, hdefine, hfresh, v, i', least, hrun, ?_⟩
    obtain ⟨o, ho, hsort⟩ := List.any_eq_true.mp hlisted
    simp only [Bool.and_eq_true, beq_iff_eq] at hsort
    obtain ⟨⟨hmodule, hname⟩, hdoc⟩ := hsort
    obtain ⟨d, s, r, -, -, hr, hagrees⟩ := hreflect [] o (.here ho) (.inr hmodule)
    rw [hname] at hr
    refine ⟨r, hr, ?_, hagrees.doc.trans hdoc⟩
    have hsort := hagrees.sort
    rw [hmodule] at hsort
    cases hr : r.sort with
    | module => rfl
    | type =>
      rw [hr] at hsort
      cases hsort

end Quill
