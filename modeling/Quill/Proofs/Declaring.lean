import Quill.Proofs.Evaluation
import Quill.Proofs.Outlines

/-!
# Running definitions

What programs that only define new types, modules and methods make of the types there are. Main
statement: `Types.Defining.statements`.
-/

namespace Quill

namespace Expr

def type? : Expr → Option TypeDef
  | ⟨.type d, _⟩ => some d
  | _ => none

def method? (singleton : Bool) : Expr → Option MethodDef
  | ⟨.method d, _⟩ => if d.singleton = singleton then some d else none
  | _ => none

def types (es : List Expr) : List TypeDef := es.filterMap type?

def methods (singleton : Bool) (es : List Expr) : List MethodDef :=
  es.filterMap (method? singleton)

/-- There are only definitions, all with different names: of types and modules without a supertype
and, `inside` of one, of methods. -/
inductive OnlyDefine : Bool → List Expr → Prop
  | nil {inside : Bool} : OnlyDefine inside []
  | type {inside : Bool} {d : TypeDef} {s : Span} {es : List Expr} : d.superclass = none →
    OnlyDefine true d.body → (∀ d' ∈ types es, d'.name.name ≠ d.name.name) →
    OnlyDefine inside es → OnlyDefine inside (⟨.type d, s⟩ :: es)
  | method {d : MethodDef} {s : Span} {es : List Expr} :
    (∀ d' ∈ methods d.singleton es, d'.name.name ≠ d.name.name) →
    OnlyDefine true es → OnlyDefine true (⟨.method d, s⟩ :: es)

variable {es : List Expr} {s : Span} {singleton : Bool}

@[simp] theorem types_nil : types [] = [] := rfl

@[simp] theorem types_type (d : TypeDef) : types (⟨.type d, s⟩ :: es) = d :: types es := rfl

@[simp] theorem types_method (d : MethodDef) : types (⟨.method d, s⟩ :: es) = types es := rfl

@[simp] theorem methods_nil : methods singleton [] = [] := rfl

@[simp] theorem methods_type (d : TypeDef) :
    methods singleton (⟨.type d, s⟩ :: es) = methods singleton es := rfl

@[simp] theorem methods_method (d : MethodDef) : methods singleton (⟨.method d, s⟩ :: es) =
    if d.singleton = singleton then d :: methods singleton es else methods singleton es := by
  by_cases h : d.singleton = singleton <;> simp [methods, method?, h]

theorem mem_types {d : TypeDef} : d ∈ types es ↔ ∃ s, ⟨.type d, s⟩ ∈ es := by
  constructor
  · intro h
    obtain ⟨⟨k, s⟩, he, hd⟩ := List.mem_filterMap.mp h
    cases k with
    | type d' =>
      cases hd
      exact ⟨s, he⟩
    | _ => cases hd
  · rintro ⟨s, h⟩
    exact List.mem_filterMap.mpr ⟨_, h, rfl⟩

/-- None of `es` defines again what the definition does. -/
def isNewTo : Expr → List Expr → Bool
  | ⟨.type d, _⟩, es => (types es).all (·.name.name != d.name.name)
  | ⟨.method d, _⟩, es => (methods d.singleton es).all (·.name.name != d.name.name)
  | _, _ => false

mutual

/-- Whether there is only one definition, with only definitions in it. -/
def onlyDefines (inside : Bool) : Expr → Bool
  | ⟨.type ⟨_, _, superclass, body, _, _⟩, _⟩ => superclass.isNone && onlyDefine true body
  | ⟨.method _, _⟩ => inside
  | _ => false

def onlyDefine (inside : Bool) : List Expr → Bool
  | [] => true
  | e :: es => onlyDefines inside e && onlyDefine inside es && isNewTo e es

end

theorem OnlyDefine.of_isNewTo {inside : Bool} {e : Expr} (hnew : e.isNewTo es = true)
    (he : ∀ d s, e = ⟨.type d, s⟩ → d.superclass = none ∧ OnlyDefine true d.body)
    (hinside : ∀ d s, e = ⟨.method d, s⟩ → inside = true) (hes : OnlyDefine inside es) :
    OnlyDefine inside (e :: es) := by
  obtain ⟨k, s⟩ := e
  cases k with
  | type d =>
    obtain ⟨hsuper, hbody⟩ := he d s rfl
    exact .type hsuper hbody (by simpa [isNewTo] using hnew) hes
  | method d =>
    obtain rfl := hinside d s rfl
    exact .method (by simpa [isNewTo] using hnew) hes
  | _ => cases hnew

mutual

theorem onlyDefines_sound {inside : Bool} : ∀ {e : Expr}, onlyDefines inside e = true →
    (∀ d s, e = ⟨.type d, s⟩ → d.superclass = none ∧ OnlyDefine true d.body) ∧
      ∀ d s, e = ⟨.method d, s⟩ → inside = true
  | ⟨.type ⟨_, _, superclass, body, _, _⟩, _⟩, h => by
    obtain ⟨hsuper, hbody⟩ := Bool.and_eq_true_iff.mp h
    refine ⟨?_, nofun⟩
    rintro d s ⟨⟩
    exact ⟨Option.isNone_iff_eq_none.mp hsuper, onlyDefine_sound hbody⟩
  | ⟨.method _, _⟩, h => ⟨nofun, fun _ _ _ ↦ h⟩

theorem onlyDefine_sound {inside : Bool} : ∀ {es : List Expr}, onlyDefine inside es = true →
    OnlyDefine inside es
  | [], _ => .nil
  | e :: es, h => by
    simp only [onlyDefine, Bool.and_eq_true] at h
    obtain ⟨⟨he, hes⟩, hnew⟩ := h
    obtain ⟨htype, hmethod⟩ := onlyDefines_sound he
    exact .of_isNewTo hnew htype hmethod (onlyDefine_sound hes)

end

theorem OnlyDefine.checked {inside : Bool} (h : OnlyDefine inside es) :
    onlyDefine inside es = true := by
  induction h with
  | nil => rfl
  | @type inside d s es hsuper _ hnew _ ihbody ih =>
    have hd : onlyDefines inside ⟨.type d, s⟩ = true := by
      obtain ⟨sort, name, superclass, body, doc, span⟩ := d
      obtain rfl : superclass = none := hsuper
      exact ihbody
    rw [onlyDefine, hd, ih, Bool.true_and, Bool.true_and, isNewTo, List.all_eq_true]
    exact fun d' hd' ↦ bne_iff_ne.mpr (hnew d' hd')
  | method hnew _ ih =>
    rw [onlyDefine, ih, onlyDefines, Bool.true_and, Bool.true_and, isNewTo, List.all_eq_true]
    exact fun d' hd' ↦ bne_iff_ne.mpr (hnew d' hd')

instance (inside : Bool) (es : List Expr) : Decidable (OnlyDefine inside es) :=
  decidable_of_iff _ ⟨onlyDefine_sound, OnlyDefine.checked⟩

end Expr

namespace Types

/-- Adds a clause to the methods for instances, or to those of the type itself. -/
def addUser (ts : Types) (t : TypeId) (d : MethodDef) : Types :=
  if d.singleton then ts.addClassMethod t d.name.name (.user d)
  else ts.addMethod t d.name.name (.user d)

/-- A new type or module with its documentation, and nothing in it. -/
def declared (ts : Types) (container : TypeId) (d : TypeDef) : Types :=
  (ts.declare container d.sort d.name.name none).2.document ts.fresh d.doc

/-- Definitions of what is not there yet lead from `ts` to other types, when they are run one after
the other inside of `container`, or at top level. -/
inductive Defining : Types → Bool → TypeId → List Expr → Types → Prop
  | nil {ts : Types} {inside : Bool} {container : TypeId} : Defining ts inside container [] ts
  | type {ts ts₁ ts' : Types} {inside : Bool} {container : TypeId} {d : TypeDef} {s : Span}
    {es : List Expr} : d.superclass = none → ts.constant? container d.name.name = none →
    Defining (ts.declared container d) true ts.fresh d.body ts₁ →
    Defining ts₁ inside container es ts' → Defining ts inside container (⟨.type d, s⟩ :: es) ts'
  | method {ts ts' : Types} {container : TypeId} {d : MethodDef} {s : Span} {es : List Expr} :
    Defining (ts.addUser container d) true container es ts' →
    Defining ts true container (⟨.method d, s⟩ :: es) ts'

end Types

namespace Eval

variable {α β : Type} {ts ts' : Types} {P : α → Types → Prop} {Q : β → Types → Prop}

/-- From types `ts` on, and without a limit for steps, the work ends with a value and with types as
`P` says. -/
def Turns (x : Eval α) (ts : Types) (P : α → Types → Prop) : Prop :=
  ∀ s : State, s.types = ts → s.config.stepLimit = none →
    ∃ a s', x.Gives s (.ok a) s' ∧ s'.config.stepLimit = none ∧ P a s'.types

namespace Turns

theorem pure {a : α} (h : P a ts) : (Pure.pure a : Eval α).Turns ts P :=
  fun s hs hlimit ↦ ⟨a, s, .pure a s, hlimit, hs ▸ h⟩

theorem bind {x : Eval α} {f : α → Eval β} (hx : x.Turns ts P)
    (hf : ∀ a ts₁, P a ts₁ → (f a).Turns ts₁ Q) : (x >>= f).Turns ts Q := by
  intro s hs hlimit
  obtain ⟨a, s₁, hgives, hlimit₁, hP⟩ := hx s hs hlimit
  obtain ⟨b, s', hgives', hlimit', hQ⟩ := hf a s₁.types hP s₁ rfl hlimit₁
  exact ⟨b, s', hgives.bind hgives', hlimit', hQ⟩

theorem read {f : State → α} (h : ∀ s : State, s.types = ts → P (f s) ts) :
    (Eval.read f).Turns ts P :=
  fun s hs hlimit ↦ ⟨f s, s, .read f s, hlimit, hs ▸ h s hs⟩

theorem change {f : State → α × State}
    (h : ∀ s : State, s.types = ts → (f s).2.config = s.config ∧ P (f s).1 (f s).2.types) :
    (modifyGet f : Eval α).Turns ts P := by
  intro s hs hlimit
  obtain ⟨hconfig, hP⟩ := h s hs
  exact ⟨(f s).1, (f s).2, .change f s, hconfig ▸ hlimit, hP⟩

theorem keeping {x : Eval α} (h : Held) (hx : x.Turns ts P) : (Eval.keeping h x).Turns ts P := by
  intro s hs hlimit
  obtain ⟨a, s', hgives, hlimit', hP⟩ := hx { s with held := h :: s.held } hs hlimit
  exact ⟨a, { s' with held := s.held }, hgives.keeping h, hlimit', hP⟩

theorem eval {e : Expr} {ctx : Context} {P : Value → Types → Prop}
    (h : (expression e ctx).Turns ts P) : (Eval.eval e ctx).Turns ts P := by
  intro s hs hlimit
  obtain ⟨v, s', hgives, hlimit', hP⟩ := h { s with steps := s.steps + 1 } hs hlimit
  exact ⟨v, s', .perform (.eval hlimit hgives), hlimit', hP⟩

end Turns

theorem statementsAfter_cons (ctx : Context) (last : Value) (e : Expr) (es : List Expr) :
    statementsAfter ctx last (e :: es) =
      holding [last] (eval e ctx) >>= fun v ↦ statementsAfter ctx v es := by
  cases es with
  | nil => exact (bind_pure _).symm
  | cons e' es => rfl

theorem statements_cons (ctx : Context) (e : Expr) (es : List Expr) :
    statements ctx (e :: es) = eval e ctx >>= fun v ↦ statementsAfter ctx v es := by
  cases es with
  | nil => exact (bind_pure _).symm
  | cons e' es => rfl

variable {ctx : Context}

theorem Turns.defineType {d : TypeDef} (hsuper : d.superclass = none)
    (hnew : ts.constant? ctx.module d.name.name = none)
    (hbody : ∀ inner : Context, inner.module = ts.fresh → inner.self = .type ts.fresh →
      (statements inner d.body).Turns (ts.declared ctx.module d) fun _ after ↦ after = ts') :
    (Eval.defineType d ctx).Turns ts fun _ after ↦ after = ts' := by
  unfold Eval.defineType
  rw [hsuper]
  refine .bind (P := fun a after ↦ a = none ∧ after = ts) (.pure ⟨rfl, rfl⟩) ?_
  rintro _ _ ⟨rfl, h⟩
  rw [h]
  have hopen : (openType d none ctx.module).Turns ts fun t after ↦
      t = ts.fresh ∧ after = (ts.declare ctx.module d.sort d.name.name none).2 := by
    unfold openType
    refine .bind (P := fun a after ↦ a = none ∧ after = ts)
      (.read fun s hs ↦ ⟨by rw [hs, hnew], rfl⟩) ?_
    rintro _ _ ⟨rfl, h⟩
    rw [h]
    exact .change fun s hs ↦ by subst hs; exact ⟨rfl, rfl, rfl⟩
  refine hopen.bind ?_
  rintro _ _ ⟨rfl, rfl⟩
  refine .bind (P := fun _ after ↦ after = ts.declared ctx.module d)
    (.change fun s hs ↦ ⟨rfl, congrArg (Types.document · ts.fresh d.doc) hs⟩) ?_
  rintro _ _ rfl
  refine .bind (P := fun _ after ↦ after = ts.declared ctx.module d)
    (.change fun s hs ↦ ⟨rfl, hs⟩) ?_
  rintro scope _ rfl
  refine .bind (.keeping _ (hbody ⟨scope, .type ts.fresh, ts.fresh, none⟩ rfl rfl)) ?_
  rintro _ _ rfl
  exact .pure rfl

theorem Turns.defineMethod {d : MethodDef} (hself : ctx.self = .type ctx.module) :
    (Eval.defineMethod d ctx).Turns ts fun _ after ↦ after = ts.addUser ctx.module d := by
  unfold Eval.defineMethod Types.addUser
  rw [hself]
  cases d.singleton with
  | true => exact .bind (.change fun s hs ↦ ⟨rfl, by subst hs; rfl⟩) fun _ _ h ↦ .pure h
  | false => exact .bind (.change fun s hs ↦ ⟨rfl, by subst hs; rfl⟩) fun _ _ h ↦ .pure h

theorem turns_statement {ts₁ : Types} {e : Expr} {es : List Expr} {P : Value → Types → Prop}
    (he : (eval e ctx).Turns ts fun _ after ↦ after = ts₁)
    (hes : ∀ last, (statementsAfter ctx last es).Turns ts₁ P) :
    (statements ctx (e :: es)).Turns ts P ∧
      ∀ last, (statementsAfter ctx last (e :: es)).Turns ts P := by
  refine ⟨?_, fun last ↦ ?_⟩
  · rw [statements_cons]
    exact he.bind fun v _ h ↦ h ▸ hes v
  · rw [statementsAfter_cons]
    exact (he.keeping _).bind fun v _ h ↦ h ▸ hes v

end Eval

/-- Definitions of what is not there yet have a value, and lead to the types they define. -/
theorem Types.Defining.statements {ts ts' : Types} {inside : Bool} {container : TypeId}
    {es : List Expr} (h : Defining ts inside container es ts') (ctx : Context)
    (hmodule : ctx.module = container) (hself : inside = true → ctx.self = .type container) :
    (Eval.statements ctx es).Turns ts (fun _ after ↦ after = ts') ∧
      ∀ last, (Eval.statementsAfter ctx last es).Turns ts fun _ after ↦ after = ts' := by
  induction h generalizing ctx with
  | nil => exact ⟨.pure rfl, fun _ ↦ .pure rfl⟩
  | type hsuper hnew _ _ ihbody ihrest =>
    subst hmodule
    refine Eval.turns_statement (.eval (.defineType hsuper hnew ?_)) (ihrest ctx rfl hself).2
    exact fun inner hmodule hself ↦ (ihbody inner hmodule fun _ ↦ hself).1
  | method _ ih =>
    subst hmodule
    exact Eval.turns_statement (.eval (.defineMethod (hself rfl))) (ih ctx rfl hself).2

end Quill
