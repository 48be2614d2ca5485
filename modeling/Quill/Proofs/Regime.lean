import Quill.Proofs.Effects
import Quill.Proofs.Evolution
import Quill.Proofs.Grammar.Node

/-!
# Which code runs where

A regime says which code may run, inside of which types and modules and in which scopes, where it
may bind names and what it may make scopes inside of, so that a relation between states respects all
this. There is one rule for each way to put work together; that all code keeps to any regime follows
from these rules.
-/

namespace Quill

/-- What one step of code can make of the types there are, if `allows` says which code that is and
`around` inside of which types and modules it runs. -/
inductive State.Retypes (allows : Node → Prop) (around : TypeId → Prop) (s : State) : Types → Prop
  | attr (t : TypeId) (name : String) (v : Value) :
      Retypes allows around s (s.setTypeAttr t name v).types
  | constant {n : Node} {i : Ident} (t : TypeId) (v : Value) : allows n →
      n.target? = some (.constant i) → Retypes allows around s (s.types.setConstant t i.name v)
  | method {d : MethodDef} (t : TypeId) : allows (.method d) →
      Retypes allows around s (s.types.addMethod t d.name.name (.user d))
  | classMethod {d : MethodDef} (t : TypeId) : allows (.method d) →
      Retypes allows around s (s.types.addClassMethod t d.name.name (.user d))
  | included (t module : TypeId) : Retypes allows around s (s.types.includeModule t module)
  | documented (t : TypeId) (doc : Option String) : Retypes allows around s (s.types.document t doc)
  | declared {d : TypeDef} {container : TypeId} (superclass : Option TypeId) : allows (.type d) →
      around container → s.types.constant? container d.name.name = none →
      Retypes allows around s (s.types.declare container d.sort d.name.name superclass).2
  | letGo (name : String) (t : TypeId) : Retypes allows around s (s.letGoAround name t).types

/-- Which code may run, where it may do so and bind names, and what states become as long as it
keeps to that. -/
structure Regime where
  /-- The states that the regime is about. -/
  Fit : State → Prop
  /-- What may become of them. -/
  Becomes : State → State → Prop
  /-- The code that may run, with all code inside. -/
  Allows : Node → Prop
  /-- The types and modules that code may run inside of. -/
  Around : State → TypeId → Prop
  /-- Where code may run. -/
  Open : State → ScopeId → Prop
  /-- Where it may bind names whether or not they are bound further out. -/
  Own : State → ScopeId → Prop
  /-- Inside of what it may make a scope. -/
  Near : State → ScopeId → Prop
  refl {s : State} : Fit s → Becomes s s
  trans {s s' s'' : State} : Becomes s s' → Becomes s' s'' → Becomes s s''
  fit {s s' : State} : Becomes s s' → Fit s'
  child {n m : Node} : Allows n → m ∈ n.children → Allows m
  around_mono {s s' : State} {t : TypeId} : Becomes s s' → Around s t → Around s' t
  open_mono {s s' : State} {id : ScopeId} : Becomes s s' → Open s id → Open s' id
  own_mono {s s' : State} {id : ScopeId} : Becomes s s' → Own s id → Own s' id
  near_mono {s s' : State} {id : ScopeId} : Becomes s s' → Near s id → Near s' id
  open_of_own {s : State} {id : ScopeId} : Own s id → Open s id
  near_of_open {s : State} {id : ScopeId} : Open s id → Near s id
  same {s s' : State} : Fit s → s'.types = s.types → s'.scopes = s.scopes →
    s'.lambdas = s.lambdas → Becomes s s'
  define {s : State} {id : ScopeId} (name : String) (v : Value) : Fit s → Own s id →
    Becomes s (s.define id name v)
  assign {s : State} {id : ScopeId} (name : String) (v : Value) : Fit s → Open s id →
    Becomes s (s.assign id name v)
  newScope {s : State} {id : ScopeId} : Fit s → Near s id → Becomes s (s.newScope id).2
  fresh {s : State} {id : ScopeId} : Fit s → Own (s.newScope id).2 (s.newScope id).1
  root {s : State} : Fit s → Near s Scopes.root
  newLambda {s : State} {l : Lambda} : Fit s → Open s l.home.scope → Around s l.home.module →
    Allows (.block l.block) → Becomes s (s.newLambda l).2
  lambda {s : State} {i : Nat} {l : Lambda} : Fit s → s.lambdas[i]? = some l →
    (Near s l.home.scope ∧ Around s l.home.module) ∧ Allows (.block l.block)
  retype {s : State} {types : Types} : Fit s → s.Retypes Allows (Around s) types →
    Becomes s { s with types }
  declared {s : State} (container : TypeId) (sort : TypeSort) (name : String)
    (superclass : Option TypeId) : Fit s →
    Around { s with types := (s.types.declare container sort name superclass).2 } s.types.fresh
  opened {s : State} {container t : TypeId} {name : String} : Fit s →
    s.types.constant? container name = some (.type t) → Around s t
  method {s : State} {t : TypeId} {name : String} {clauses : List Clause} : Fit s →
    s.types.method? t name = some clauses ∨ s.types.classMethod? t name = some clauses →
    Around s t ∧ ∀ d, .user d ∈ clauses → Allows (.method d)

namespace Regime

variable (R : Regime)

abbrev AllowsAll (es : List Expr) : Prop := ∀ e ∈ es, R.Allows (.expr e)

/-- Fitting states become what the regime says. -/
def Keeps (s s' : State) : Prop := R.Fit s → R.Becomes s s'

instance : State.Plain R.Keeps where
  refl _ hs := R.refl hs
  trans h h' hs := R.trans (h hs) (h' (R.fit (h hs)))
  held _ _ hs := R.same hs rfl rfl rfl
  newObject _ _ _ hs := R.same hs rfl rfl rfl
  newList _ _ hs := R.same hs rfl rfl rfl
  letGo s name t hs := by
    obtain ⟨types, heq⟩ := s.letGoAround_eq name t
    have retyped := R.retype hs (.letGo name t)
    rw [heq] at retyped ⊢
    exact retyped
  modifyList _ _ _ hs := R.same hs rfl rfl rfl
  setObjectAttr _ _ _ _ hs := R.same hs rfl rfl rfl
  write _ _ hs := R.same hs rfl rfl rfl

end Regime

namespace Context

variable {R : Regime} {s s' : State} {ctx : Context}

/-- Code may run there. -/
def Open (R : Regime) (s : State) (ctx : Context) : Prop :=
  R.Open s ctx.scope ∧ R.Around s ctx.module

/-- Code may run there and bind names that are bound further out. -/
def Own (R : Regime) (s : State) (ctx : Context) : Prop :=
  R.Own s ctx.scope ∧ R.Around s ctx.module

/-- Code may run inside of it. -/
def Near (R : Regime) (s : State) (ctx : Context) : Prop :=
  R.Near s ctx.scope ∧ R.Around s ctx.module

theorem Own.open (h : ctx.Own R s) : ctx.Open R s := ⟨R.open_of_own h.1, h.2⟩

theorem Open.near (h : ctx.Open R s) : ctx.Near R s := ⟨R.near_of_open h.1, h.2⟩

theorem Open.mono (h : ctx.Open R s) (hs : R.Becomes s s') : ctx.Open R s' :=
  ⟨R.open_mono hs h.1, R.around_mono hs h.2⟩

end Context

/-- The code of the task may run, and runs where it may. -/
def Task.Open (R : Regime) (s : State) : Task → Prop
  | eval e ctx | guard e ctx => ctx.Open R s ∧ R.Allows (.expr e)
  | statements es ctx => ctx.Open R s ∧ R.AllowsAll es
  | body b ctx => ctx.Open R s ∧ R.Allows (.body b)
  | loop condition es ctx => ctx.Open R s ∧ R.Allows (.expr condition) ∧ R.AllowsAll es
  | forEach _ es ctx _ _ _ => ctx.Open R s ∧ R.AllowsAll es
  | framed _ t | handling _ t => t.Open R s
  | _ => True

theorem Task.open_of_kind (R : Regime) (s : State) {t : Task} (h : t.kind ≠ .code) :
    t.Open R s := by
  induction t with
  | framed frame t ih => exact ih h
  | handling r t ih => exact ih h
  | eval | statements | body | guard | loop | forEach => exact absurd rfl h
  | _ => trivial

theorem Task.Open.mono {R : Regime} {s s' : State} {t : Task} (h : t.Open R s)
    (hs : R.Becomes s s') : t.Open R s' := by
  induction t with
  | framed frame t ih => exact ih h
  | handling r t ih => exact ih h
  | eval | statements | body | guard | loop | forEach => exact ⟨Context.Open.mono h.1 hs, h.2⟩
  | _ => trivial

namespace Step

variable {α β : Type} {R : Regime} {P : α → Prop} {Q : β → Prop} {s s' : State}

/-- The work keeps to the regime and asks for no code but such as may run where it does, as long as
what it waits for keeps to it, too. If it has a value, that is as `P` says. -/
def Observes (R : Regime) (P : α → Prop) : Step α → State → Prop
  | done o s, s₀ => R.Becomes s₀ s ∧ ∀ a, o = .ok a → P a
  | wait t s resume, s₀ => (R.Becomes s₀ s ∧ t.Open R s) ∧
      ∀ o s', R.Becomes s s' → (resume o s').Observes R P s'

namespace Observes

theorem of_earlier {x : Step α} (h : R.Becomes s s') (hx : x.Observes R P s') :
    x.Observes R P s := by
  cases x with
  | done o s'' => exact ⟨R.trans h hx.1, hx.2⟩
  | wait t s'' resume => exact ⟨⟨R.trans h hx.1.1, hx.1.2⟩, hx.2⟩

theorem becomes {x : Step α} (hx : x.Observes R P s) : R.Becomes s x.state := by
  cases x with
  | done o s' => exact hx.1
  | wait t s' resume => exact hx.1.1

theorem bind {x : Step α} {f : α → State → Step β} (hx : x.Observes R P s)
    (hf : ∀ a s', P a → R.Becomes s s' → (f a s').Observes R Q s') : (x.bind f).Observes R Q s := by
  induction x generalizing s with
  | done o s' =>
    obtain ⟨hs, ha⟩ := hx
    cases o with
    | ok a => exact of_earlier hs (hf a s' (ha a rfl) hs)
    | error u => exact ⟨hs, nofun⟩
  | wait t s' resume ih =>
    refine ⟨hx.1, fun o s₁ hs₁ ↦ ih o s₁ (hx.2 o s₁ hs₁) fun a s₂ ha hs₂ ↦ ?_⟩
    exact hf a s₂ ha (R.trans (R.trans hx.1.1 hs₁) hs₂)

theorem attempt {x : Step α} (hx : x.Observes R P s) :
    x.attempt.Observes R (fun o ↦ ∀ a, o = .ok a → P a) s := by
  induction x generalizing s with
  | done o s' => exact ⟨hx.1, fun o' ho ↦ by cases ho; exact hx.2⟩
  | wait t s' resume ih => exact ⟨hx.1, fun o s₁ hs₁ ↦ ih o s₁ (hx.2 o s₁ hs₁)⟩

theorem restoring (before : List Held) {x : Step α} (hx : x.Observes R P s) :
    (x.restoring before).Observes R P s := by
  induction x generalizing s with
  | done o s' => exact ⟨R.trans hx.1 (R.same (R.fit hx.1) rfl rfl rfl), hx.2⟩
  | wait t s' resume ih => exact ⟨hx.1, fun o s₁ hs₁ ↦ ih o s₁ (hx.2 o s₁ hs₁)⟩

theorem mono {P' : α → Prop} {x : Step α} (h : ∀ a, P a → P' a) (hx : x.Observes R P s) :
    x.Observes R P' s := by
  induction x generalizing s with
  | done o s' => exact ⟨hx.1, fun a ha ↦ h a (hx.2 a ha)⟩
  | wait t s' resume ih => exact ⟨hx.1, fun o s₁ hs₁ ↦ ih o s₁ (hx.2 o s₁ hs₁)⟩

end Observes

end Step

namespace Eval

variable {α β : Type} {R : Regime} {s₀ : State} {P : α → Prop} {Q : β → Prop}

/-- In all that becomes of `s₀`, the work keeps to the regime. -/
def Observes (R : Regime) (s₀ : State) (P : α → Prop) (x : Eval α) : Prop :=
  ∀ s, R.Becomes s₀ s → (x s).Observes R P s

namespace Observes

theorem pure {a : α} (ha : P a) : Observes R s₀ P (Pure.pure a : Eval α) := by
  intro s hs
  refine ⟨R.refl (R.fit hs), fun b hb ↦ ?_⟩
  cases hb
  exact ha

theorem bind {x : Eval α} {f : α → Eval β} (hx : Observes R s₀ P x)
    (hf : ∀ a, P a → Observes R s₀ Q (f a)) : Observes R s₀ Q (x >>= f) := by
  intro s hs
  rw [bind_apply]
  exact (hx s hs).bind fun a s' ha hs' ↦ hf a ha s' (R.trans hs hs')

theorem weaken {s : State} {x : Eval α} (hx : Observes R s₀ P x) (hs : R.Becomes s₀ s) :
    Observes R s P x := fun s' hs' ↦ hx s' (R.trans hs hs')

theorem reading {f : State → α} {g : α → Eval β}
    (h : ∀ s, R.Becomes s₀ s → Observes R s Q (g (f s))) : Observes R s₀ Q (read f >>= g) :=
  fun s hs ↦ h s hs s (R.refl (R.fit hs))

theorem read (f : State → α) : Observes R s₀ (fun _ ↦ True) (read f) :=
  fun _ hs ↦ ⟨R.refl (R.fit hs), fun _ _ ↦ trivial⟩

theorem modify {f : State → State} (hf : ∀ s, R.Becomes s₀ s → R.Becomes s (f s)) :
    Observes R s₀ (fun _ ↦ True) (modify f : Eval Unit) :=
  fun s hs ↦ ⟨hf s hs, fun _ _ ↦ trivial⟩

theorem unwind (u : Unwind) : Observes R s₀ P (unwind u : Eval α) :=
  fun _ hs ↦ ⟨R.refl (R.fit hs), nofun⟩

theorem ofOutcome (o : Outcome α) : Observes R s₀ (fun _ ↦ True) (ofOutcome o) :=
  fun _ hs ↦ ⟨R.refl (R.fit hs), fun _ _ ↦ trivial⟩

theorem perform {t : Task} (ht : t.Open R s₀) : Observes R s₀ (fun _ ↦ True) (perform t) :=
  fun _ hs ↦ ⟨⟨R.refl (R.fit hs), ht.mono hs⟩,
    fun _ _ hs' ↦ ⟨R.refl (R.fit hs'), fun _ _ ↦ trivial⟩⟩

theorem attempt {x : Eval α} (hx : Observes R s₀ P x) :
    Observes R s₀ (fun _ ↦ True) (attempt x) :=
  fun s hs ↦ ((hx s hs).attempt).mono fun _ _ ↦ trivial

theorem keeping (h : Held) {x : Eval α} (hx : Observes R s₀ P x) :
    Observes R s₀ P (keeping h x) := by
  intro s hs
  have inside : R.Becomes s { s with held := h :: s.held } := R.same (R.fit hs) rfl rfl rfl
  exact .of_earlier inside ((hx _ (R.trans hs inside)).restoring s.held)

theorem holding (vs : List Value) {x : Eval α} (hx : Observes R s₀ P x) :
    Observes R s₀ P (holding vs x) := keeping _ hx

theorem within (ctx : Context) (vs : List Value) {x : Eval α} (hx : Observes R s₀ P x) :
    Observes R s₀ P (within ctx vs x) := keeping _ hx

theorem newScope {outer : ScopeId} {f : ScopeId → Eval β} (ho : R.Near s₀ outer)
    (hf : ∀ s inner, R.Becomes s₀ s → R.Own s inner → Observes R s Q (f inner)) :
    Observes R s₀ Q (newScope outer >>= f) := by
  intro s hs
  have hfit := R.fit hs
  have hnew := R.newScope hfit (R.near_mono hs ho)
  have hrest := hf (s.newScope outer).2 _ (R.trans hs hnew) (R.fresh hfit)
  exact .of_earlier hnew (hrest _ (R.refl (R.fit hnew)))

theorem newLambda {b : Block} {ctx : Context} (hctx : ctx.Open R s₀) (hb : R.Allows (.block b)) :
    Observes R s₀ (fun _ ↦ True) (newLambda b ctx) := by
  intro s hs
  have hctx := hctx.mono hs
  exact ⟨R.newLambda (R.fit hs) hctx.1 hctx.2 hb, fun _ _ ↦ trivial⟩

theorem define {scope : ScopeId} (h : R.Own s₀ scope) (name : String) (v : Value) :
    Observes R s₀ (fun _ ↦ True) (define scope name v) :=
  .modify fun _ hs ↦ R.define name v (R.fit hs) (R.own_mono hs h)

theorem assign {scope : ScopeId} (h : R.Open s₀ scope) (name : String) (v : Value) :
    Observes R s₀ (fun _ ↦ True) (assign scope name v) :=
  .modify fun _ hs ↦ R.assign name v (R.fit hs) (R.open_mono hs h)

theorem retype {f : State → α} {g : State → Types}
    (h : ∀ s, R.Becomes s₀ s → s.Retypes R.Allows (R.Around s) (g s)) :
    Observes R s₀ (fun _ ↦ True)
      (modifyGet fun s : State ↦ (f s, { s with types := g s }) : Eval α) :=
  fun s hs ↦ ⟨R.retype (R.fit hs) (h s hs), fun _ _ ↦ trivial⟩

theorem of_asks {x : Eval α} (hx : x.Asks (fun t ↦ t.kind ≠ .code) R.Keeps) :
    Observes R s₀ (fun _ ↦ True) x := by
  intro s hs
  have step {x : Step α} {s : State} (hs : R.Fit s)
      (hx : x.Asks (fun t ↦ t.kind ≠ .code) R.Keeps s) : x.Observes R (fun _ ↦ True) s := by
    induction x generalizing s with
    | done o s' => exact ⟨hx hs, fun _ _ ↦ trivial⟩
    | wait t s' resume ih =>
      exact ⟨⟨hx.1 hs, Task.open_of_kind R _ hx.2.1⟩,
        fun o s₁ hs₁ ↦ ih o s₁ (R.fit hs₁) (hx.2.2 o s₁)⟩
  exact step (R.fit hs) (hx s)

theorem of_simple {x : Eval α} (hx : Simple x) : Observes R s₀ (fun _ ↦ True) x := by
  refine .of_asks (hx.asks fun t ht ↦ ?_)
  simp only [Task.fits, Bool.and_eq_true, bne_iff_ne] at ht
  exact ht.1

end Observes

end Eval

end Quill
