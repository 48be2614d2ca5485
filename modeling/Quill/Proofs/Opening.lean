import Quill.Proofs.Naming.Runs
import Quill.Proofs.Protection

/-!
# What definitions open

A definition makes a new type or module, or opens the one that is there, or is refused. Main
statements: `defineType_course` and `names_identify`.
-/

namespace Quill

open Eval Step

/-- What is there under the name of the definition is not what it asks for. -/
def Types.Refuses (ts : Types) (d : TypeDef) (superclass : Option TypeId) (container : TypeId) :
    Prop :=
  ∃ v, ts.constant? container d.name.name = some v ∧ ∀ t, v = .type t →
    ts.sort t = d.sort → ∃ u, superclass = some u ∧ ts.superclass t ≠ some u

/-- The definition opens a type or module, in a table that has it: the one that is there if it is
what the definition asks for, or else a new one. -/
inductive Types.Opens (ts : Types) (d : TypeDef) (superclass : Option TypeId) (container : TypeId) :
    TypeId → Types → Prop
  | again {t : TypeId} : ts.constant? container d.name.name = some (.type t) → ts.sort t = d.sort →
      (∀ u, superclass = some u → ts.superclass t = some u) → Opens ts d superclass container t ts
  | anew : ts.constant? container d.name.name = none →
      Opens ts d superclass container ts.fresh
        (ts.declare container d.sort d.name.name superclass).2

def Step.OnlyRaises {α : Type} (x : Step α) (s : State) : Prop :=
  ∃ r object, x = .done (.error (.raise r)) { s with objects := s.objects.push object }

theorem fault_onlyRaises {α : Type} (f : Fault) (span : Span) (s : State) :
    (fault f span s : Step α).OnlyRaises s := ⟨_, _, rfl⟩

theorem openAgain_type (d : TypeDef) (superclass : Option TypeId) (t : TypeId) (s : State) :
    (s.types.sort t ≠ d.sort ∨ ∃ u, superclass = some u ∧ s.types.superclass t ≠ some u) ∧
        (openAgain d superclass (.type t) s).OnlyRaises s ∨
      (s.types.sort t = d.sort ∧ ∀ u, superclass = some u → s.types.superclass t = some u) ∧
        openAgain d superclass (.type t) s = .done (.ok t) s := by
  unfold openAgain
  dsimp only
  rw [read_bind]
  dsimp only
  split
  · rename_i hsort
    exact .inl ⟨.inl (bne_iff_ne.mp hsort), fault_onlyRaises _ _ s⟩
  · rename_i hsort
    split
    · rename_i hsuper
      obtain ⟨u, rfl⟩ : ∃ u, superclass = some u :=
        Option.isSome_iff_exists.mp (Bool.and_eq_true_iff.mp hsuper).1
      have hne : s.types.superclass t ≠ some u :=
        (bne_iff_ne.mp (Bool.and_eq_true_iff.mp hsuper).2).symm
      exact .inl ⟨.inr ⟨u, rfl, hne⟩, fault_onlyRaises _ _ s⟩
    · rename_i hsuper
      refine .inr ⟨⟨not_not.mp (mt bne_iff_ne.mpr hsort), ?_⟩, rfl⟩
      rintro u rfl
      by_contra hne
      exact hsuper (Bool.and_eq_true_iff.mpr ⟨rfl, bne_iff_ne.mpr (Ne.symm hne)⟩)

theorem openType_cases (d : TypeDef) (superclass : Option TypeId) (container : TypeId) (s : State) :
    s.types.Refuses d superclass container ∧ (openType d superclass container s).OnlyRaises s ∨
      ∃ t types, s.types.Opens d superclass container t types ∧
        openType d superclass container s = .done (.ok t) { s with types } := by
  cases hv : s.types.constant? container d.name.name with
  | none =>
    refine .inr ⟨_, _, .anew hv, ?_⟩
    unfold openType
    rw [read_bind, hv]
    rfl
  | some v =>
    have hagain : openType d superclass container s = openAgain d superclass v s := by
      unfold openType
      rw [read_bind, hv]
    rw [hagain]
    cases v with
    | type t =>
      obtain ⟨hmiss, hraise⟩ | ⟨⟨hsort, hsuper⟩, hopen⟩ := openAgain_type d superclass t s
      · refine .inl ⟨⟨_, hv, ?_⟩, hraise⟩
        rintro _ ⟨⟩ hsort
        exact hmiss.resolve_left (not_not_intro hsort)
      · exact .inr ⟨t, _, .again hv hsort hsuper, hopen⟩
    | _ => exact .inl ⟨⟨_, hv, nofun⟩, fault_onlyRaises _ _ s⟩

theorem describe_direct {v : Value} {shown : Outcome Value} {s s' : State}
    (h : (Task.describe v).Gives s shown s') (hv : s.inspectText? v ≠ none) : s' = s := by
  obtain ⟨text, htext⟩ := Option.ne_none_iff_exists'.mp hv
  have hinspect : (Eval.inspect v).Gives s (.ok text) s := by
    refine .bind (.read _ s) ?_
    rw [htext]
    exact .pure text s
  have hwork : (Eval.describe v).Gives s (.ok (.value (.str text))) s :=
    .bind (.attempt hinspect) (.pure (Reply.value (.str text)) s)
  have hgives : (Task.describe v).Gives s (.ok (.str text)) s := .of_work hwork
  obtain ⟨n, hn⟩ := hgives
  obtain ⟨k, hk⟩ := h
  exact congrArg Prod.snd (Machine.run_unique hk hn)

section

variable (d : TypeDef) (ctx : Context)

inductive SuperclassFound : State → List Episode → Option TypeId → State → Prop
  | unasked {s : State} : d.superclass = none → SuperclassFound s [] none s
  | found {s s' : State} {e : Expr} {t : TypeId} : d.superclass = some e →
      (Task.eval e ctx).Gives s (.ok (.type t)) s' → s'.types.isType t = true →
      SuperclassFound s [⟨.eval e ctx, s, .ok (.type t), s'⟩] (some t) s'

/-- The expression for the superclass unwinds, or its value is no type. Then an error is raised
that shows the value. No message is sent to it if it has a text without that. -/
inductive SuperclassMissing : State → List Episode → Unwind → State → Prop
  | unwound {s s' : State} {e : Expr} {u : Unwind} : d.superclass = some e →
      (Task.eval e ctx).Gives s (.error u) s' →
      SuperclassMissing s [⟨.eval e ctx, s, .error u, s'⟩] u s'
  | noType {s s₁ s₂ : State} {e : Expr} {v : Value} {shown : Outcome Value} {r : Raised}
      {object : Object} : d.superclass = some e → (Task.eval e ctx).Gives s (.ok v) s₁ →
      (∀ t, v = .type t → s₁.types.isType t = false) → (Task.describe v).Gives s₁ shown s₂ →
      (s₁.inspectText? v ≠ none → s₂ = s₁) →
      SuperclassMissing s [⟨.eval e ctx, s, .ok v, s₁⟩, ⟨.describe v, s₁, shown, s₂⟩] (.raise r)
        { s₂ with objects := s₂.objects.push object }

/-- Runs the body of a definition, inside of what it has opened. -/
def Eval.inside (t : TypeId) : Eval Value := do
  let scope ← newScope Scopes.root
  let inner : Context := ⟨scope, .type t, t, none⟩
  let _ ← within inner [] (statements inner d.body)
  return .type t

/-- How a definition ends. If the superclass is missing or the definition is refused, there is an
error and no more. Else it documents what it has opened, and does what its body does. -/
inductive TypeDefined : State → List Episode → Outcome Value → State → Prop
  | missing {s s' : State} {es : List Episode} {u : Unwind} :
      SuperclassMissing d ctx s es u s' → TypeDefined s es (.error u) s'
  | refused {s s₁ : State} {es : List Episode} {superclass : Option TypeId} {r : Raised}
      {object : Object} : SuperclassFound d ctx s es superclass s₁ →
      s₁.types.Refuses d superclass ctx.module →
      TypeDefined s es (.error (.raise r)) { s₁ with objects := s₁.objects.push object }
  | opened {s s₁ s' : State} {es₁ es₂ : List Episode} {superclass : Option TypeId} {t : TypeId}
      {types : Types} {o : Outcome Value} : SuperclassFound d ctx s es₁ superclass s₁ →
      s₁.types.Opens d superclass ctx.module t types →
      (inside d t { s₁ with types := types.document t d.doc }).Course es₂ o s' →
      (∀ v, o = .ok v → v = .type t) → TypeDefined s (es₁ ++ es₂) o s'

variable {d ctx} {s s' : State} {es : List Episode}

theorem superclass_course {e : Expr} {o : Outcome TypeId} (he : d.superclass = some e)
    (h : (superclass e ctx s).Course es o s') :
    (∃ u, o = .error u ∧ SuperclassMissing d ctx s es u s') ∨
      ∃ t, o = .ok t ∧ SuperclassFound d ctx s es (some t) s' := by
  unfold superclass at h
  rw [bind_apply] at h
  obtain ⟨u, rfl, hu⟩ | ⟨v, es₁, es₂, s₁, rfl, hv, hrest⟩ := h.bind
  · obtain ⟨rfl, hgives⟩ := perform_course hu
    exact .inl ⟨u, rfl, .unwound he hgives⟩
  · obtain ⟨rfl, hgives⟩ := perform_course hv
    rw [read_bind] at hrest
    cases ht : v.type?.filter s₁.types.isType with
    | some t =>
      rw [ht] at hrest
      obtain ⟨rfl, rfl, rfl⟩ := hrest.of_done
      obtain ⟨hvalue, htype⟩ := Option.filter_eq_some_iff.mp ht
      obtain rfl : v = .type t := by
        cases v <;> cases hvalue
        rfl
      exact .inr ⟨t, rfl, .found he hgives htype⟩
    -- The value is described for the error. That may ask it for a text, but never unwinds.
    | none =>
      have hno : ∀ t, v = .type t → s₁.types.isType t = false := by
        rintro t rfl
        simpa [Value.type?] using ht
      rw [ht] at hrest
      dsimp only at hrest
      rw [bind_apply] at hrest
      obtain ⟨u, -, hu⟩ | ⟨text, es₃, es₄, s₂, rfl, htext, hraise⟩ := hrest.bind
      · obtain ⟨_, _, -, -, ho⟩ := inspectAnyway_course hu
        cases ho
      · obtain ⟨shown, _, rfl, hshown, -⟩ := inspectAnyway_course htext
        obtain ⟨rfl, rfl, rfl⟩ := hraise.of_done
        exact .inl ⟨_, rfl, .noType he hgives hno hshown (describe_direct hshown)⟩

theorem superclass?_course {o : Outcome (Option TypeId)}
    (h : (superclass? d.superclass ctx s).Course es o s') :
    (∃ u, o = .error u ∧ SuperclassMissing d ctx s es u s') ∨
      ∃ superclass, o = .ok superclass ∧ SuperclassFound d ctx s es superclass s' := by
  cases he : d.superclass with
  | none =>
    rw [he] at h
    obtain ⟨rfl, rfl, rfl⟩ := Course.of_done h
    exact .inr ⟨none, rfl, .unasked he⟩
  | some e =>
    rw [he, superclass?, bind_apply] at h
    obtain ⟨u, rfl, hu⟩ | ⟨t, es₁, es₂, s₁, rfl, ht, hrest⟩ := h.bind
    · obtain ⟨u', hu', hmissing⟩ | ⟨t, ht, -⟩ := superclass_course he hu
      · cases hu'
        exact .inl ⟨u, rfl, hmissing⟩
      · cases ht
    · obtain ⟨rfl, rfl, rfl⟩ := hrest.of_done
      obtain ⟨u, hu, -⟩ | ⟨t', ht', hfound⟩ := superclass_course he ht
      · cases hu
      · cases ht'
        rw [List.append_nil]
        exact .inr ⟨some t, rfl, hfound⟩

theorem inside_value {t : TypeId} {v : Value} (h : (inside d t s).Course es (.ok v) s') :
    v = .type t := by
  unfold inside at h
  rw [bind_apply] at h
  obtain ⟨u, hu, -⟩ | ⟨scope, es₁, es₂, s₁, -, -, hbody⟩ := h.bind
  · cases hu
  · rw [bind_apply] at hbody
    obtain ⟨u, hu, -⟩ | ⟨w, es₃, es₄, s₂, -, -, hlast⟩ := hbody.bind
    · cases hu
    · obtain ⟨-, heq, -⟩ := Course.of_done hlast
      cases heq
      rfl

theorem defineType_course {o : Outcome Value} (h : (defineType d ctx s).Course es o s') :
    TypeDefined d ctx s es o s' := by
  unfold defineType at h
  rw [bind_apply] at h
  obtain ⟨u, rfl, hu⟩ | ⟨superclass, es₁, es₂, s₁, rfl, hsuper, hopen⟩ := h.bind
  · obtain ⟨u', hu', hmissing⟩ | ⟨_, hok, -⟩ := superclass?_course hu
    · cases hu'
      exact .missing hmissing
    · cases hok
  obtain ⟨u, hu, -⟩ | ⟨superclass', hok, hfound⟩ := superclass?_course hsuper
  · cases hu
  cases hok
  rw [bind_apply] at hopen
  obtain ⟨hrefuses, r, object, heq⟩ | ⟨t, types, hopens, heq⟩ :=
    openType_cases d superclass ctx.module s₁
  · rw [heq] at hopen
    obtain ⟨rfl, rfl, rfl⟩ := Course.of_done hopen
    rw [List.append_nil]
    exact .refused hfound hrefuses
  · rw [heq] at hopen
    exact .opened hfound hopens hopen fun v hv ↦ inside_value (hv ▸ hopen)

end

theorem Types.Named.definedIn_of_opens {ts types : Types} {d : TypeDef}
    {superclass : Option TypeId} {container t : TypeId} (h : ts.Named) (hc : ts.Made container)
    (hplain : '.' ∉ d.name.name.toList) (hopens : ts.Opens d superclass container t types) :
    types.DefinedIn container d.name.name t := by
  cases hopens with
  | again hthere =>
    obtain ⟨u, heq, hdef⟩ := h.constants _ _ _ hthere
    cases heq
    exact hdef
  | anew => exact definedIn_declare hc hplain

/-- As long as constants are only made by definitions, every type or module is named after the one
it is defined in, is found by its name, and is the only one with it; that stays so. A definition
opens the one that has its name there, and if it is rejected, nothing else than its superclass and
the text of what is no type has had any effect. -/
theorem names_identify :
    (∀ config fuel i, Interpreter.new config fuel = some (.ok i) → i.state.Arises) ∧
    (∀ s : State, s.Arises → ∀ t, s.types.Made t →
      (∃ container short, s.types.DefinedIn container short t ∧
        ∀ info, s.types.get? t = some info → info.shortName = short) ∧
      (Interpreter.mk s).type? (s.types.name t) = some t ∧
      ∀ u, s.types.Made u → s.types.name u = s.types.name t → u = t) ∧
    (∀ s s' : State, s.Arises → s.Becomes s' → ∀ t, s.types.Made t →
      s'.types.Made t ∧ s'.types.name t = s.types.name t ∧
      ∀ container path, s.types.follow container path = some t →
        s'.types.follow container path = some t) ∧
    (∀ s : State, s.Arises → ∀ (d : TypeDef) superclass container t types,
      s.types.Made container → '.' ∉ d.name.name.toList →
      s.types.Opens d superclass container t types → types.DefinedIn container d.name.name t) ∧
    ∀ d ctx s es o s', (defineType d ctx s).Course es o s' → TypeDefined d ctx s es o s' := by
  refine ⟨fun _ _ _ ↦ Interpreter.new_arises, fun s hs t ht ↦ ?_, fun s s' hs hbecomes t ht ↦ ?_,
    fun s hs d superclass container t types hc hplain hopens ↦ ?_,
    fun d ctx s es o s' h ↦ defineType_course h⟩
  · have hnamed := hs.named.types
    obtain ⟨container, short, hdef, -⟩ := hnamed.placed t ht
    exact ⟨⟨container, short, hdef, fun _ ↦ hdef.shortName⟩, hnamed.found ht,
      fun u hu hname ↦ hnamed.eq_of_name hu ht hname⟩
  · have hkept := hbecomes.keepsNames hs.named
    exact ⟨hkept.more.made ht, hkept.more.name ht, fun container path hpath ↦
      hs.named.types.follow_kept hkept.named.types hkept.more hpath⟩
  · exact hs.named.types.definedIn_of_opens hc hplain hopens

def trumps : TypeDef := ⟨.module, ⟨"Trumps", .origin⟩, none, [], none, .origin⟩

theorem defineType_trumps {s : State}
    (h : s.types.constant? CoreType.object.id "Trumps" = none) :
    ∃ s', (defineType trumps State.topContext s).Course [] (.ok (.type s.types.fresh)) s' := by
  let opened := { s with types := (s.types.declare CoreType.object.id .module "Trumps" none).2 }
  have hopen : openType trumps none CoreType.object.id s = .done (.ok s.types.fresh) opened := by
    unfold openType
    rw [read_bind]
    dsimp only [trumps]
    rw [h]
    rfl
  obtain ⟨body, hdefine, hbody⟩ : ∃ body : TypeId → Eval Value,
      defineType trumps State.topContext s = (openType trumps none CoreType.object.id >>= body) s ∧
        ∀ t s₁, ∃ s', body t s₁ = .done (.ok (.type t)) s' :=
    ⟨_, rfl, fun _ _ ↦ ⟨_, rfl⟩⟩
  obtain ⟨s', hs'⟩ := hbody s.types.fresh opened
  have hdone : (openType trumps none CoreType.object.id s).bind body =
      .done (.ok (.type s.types.fresh)) s' := by
    rw [hopen]
    exact hs'
  refine ⟨s', ?_⟩
  rw [hdefine, bind_apply, hdone]
  exact .done

/-- A type inside of a module is found by its name, also when there is one more module. -/
theorem geometry_named : ∃ (i j : Interpreter) (point : TypeId) (types : Types) (s : State),
    (i.type? "Geo.Point" = some point ∧
      ∀ u, i.state.types.Made u → i.state.types.name u = "Geo.Point" → u = point) ∧
    (i.state.Becomes j.state ∧ j.state.types.name point = "Geo.Point") ∧
    types.DefinedIn CoreType.object.id "Trumps" i.state.types.fresh ∧
    TypeDefined trumps State.topContext i.state [] (.ok (.type i.state.types.fresh)) s := by
  let point : TypeId := ⟨CoreType.all.length + 1⟩
  obtain ⟨p, i, hp, hnone, harises, hi⟩ := Interpreter.arises_of_check geometry
    (fun p i ↦ (i.run p 100).isSome &&
      decide (i.state.types.Made point ∧ i.state.types.name point = "Geo.Point" ∧
        i.state.types.Made CoreType.object.id) &&
      (i.state.types.constant? CoreType.object.id "Trumps").isNone) (by decide +kernel)
  simp only [Bool.and_eq_true, decide_eq_true_eq, Option.isNone_iff_eq_none] at hi
  obtain ⟨⟨hagain, hmade, hname, hobject⟩, hfree⟩ := hi
  obtain ⟨⟨r, j⟩, hrun⟩ := Option.isSome_iff_exists.mp hagain
  have hran : i.state.Becomes j.state := .single (.ran hp hnone hrun)
  obtain ⟨-, hnames, hkeeps, hopens, hends⟩ := names_identify
  obtain ⟨-, hfound, hunique⟩ := hnames i.state harises point hmade
  obtain ⟨-, hkept, -⟩ := hkeeps i.state j.state harises hran point hmade
  rw [hname] at hfound hunique hkept
  obtain ⟨s, hs⟩ := defineType_trumps hfree
  exact ⟨i, j, point, _, s, ⟨hfound, hunique⟩, ⟨hran, hkept⟩,
    hopens i.state harises trumps none CoreType.object.id _ _ hobject (by decide) (.anew hfree),
    hends _ _ _ _ _ _ hs⟩

/-- A type whose instances define another one when they are shown. -/
def tellingCard : String := "\n".intercalate [
  "type Card",
  "  def inspect",
  "    type Extra",
  "    end",
  "    :card",
  "  end",
  "end"]

/-- A definition that is rejected, for its superclass is an instance of that type. -/
def basedOnCard : String := "\n".intercalate [
  "type Trump < Card.new",
  "end"]

/-- How a program ends: with which error, if any, and whether there is something at the end of the
path then. -/
def Interpreter.leaves (i : Interpreter) (text : String) (path : List String) :
    Option (Option String × Bool) :=
  (i.runText text 100).map fun (r, i') ↦
    (match r with
      | .ok _ => none
      | .error e => some e.message,
    (i'.state.types.follow CoreType.object.id path).isSome)

/-- The error shows the instance, and so there is one more type than after the superclass. -/
theorem rejection_defines : ∃ i : Interpreter, i.state.Arises ∧
    i.leaves "Card.new" ["Card", "Extra"] = some (none, false) ∧
    i.leaves basedOnCard ["Card", "Extra"] =
      some (some "1:14: ArgumentTypeError: superclass must be a type, got card", true) := by
  obtain ⟨-, i, -, -, harises, hi⟩ := Interpreter.arises_of_check tellingCard
    (fun _ i ↦ i.leaves "Card.new" ["Card", "Extra"] == some (none, false) &&
      i.leaves basedOnCard ["Card", "Extra"] ==
        some (some "1:14: ArgumentTypeError: superclass must be a type, got card", true))
    (by decide +kernel)
  obtain ⟨hnew, hbased⟩ := Bool.and_eq_true_iff.mp hi
  exact ⟨i, harises, beq_iff_eq.mp hnew, beq_iff_eq.mp hbased⟩

end Quill
