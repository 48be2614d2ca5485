import Quill.Eval.Run

/-!
# What work is composed of

All work of the evaluator is put together from a few operations. What is kept by each of them, and
by putting them together, is kept by all that the evaluator does.
-/

namespace Quill

namespace Unwind

/-- Ends a method, a loop or a round around the code that it comes from. -/
def isJump : Unwind → Bool
  | return_ _ | break_ _ | next _ => true
  | _ => false

def isHalt : Unwind → Bool
  | halt _ => true
  | _ => false

end Unwind

def Types.mixIn (ts : Types) (id module : TypeId) : Types :=
  if ts.sort module = .module then ts.includeModule id module else ts

/-- Declares a type or module. Its superclass is a type that is there, or it has none. -/
def Types.derive (ts : Types) (container : TypeId) (sort : TypeSort) (name : String)
    (superclass : Option TypeId) : TypeId × Types :=
  ts.declare container sort name (superclass.filter ts.isType)

namespace State

def withStepLimit (s : State) (l : Option Nat) : State :=
  { s with config := { s.config with stepLimit := l } }

/-- Something about the state that the step limit has no part in. -/
def LimitFree {α : Type} (f : State → α) : Prop := ∀ s l, f (s.withStepLimit l) = f s

/-- A change of what programs work with: contents, variables, types and the output. -/
inductive Change : {α : Type} → (State → α × State) → Prop
  | newList {f : State → Array Value} : LimitFree f → Change fun s ↦ s.newList (f s)
  | newObject (t : TypeId) (attrs : Bindings Value) : Change (·.newObject t attrs)
  | newScope (outer : ScopeId) : Change (·.newScope outer)
  | newLambda (l : Lambda) : Change (·.newLambda l)
  | define (scope : ScopeId) (name : String) (v : Value) :
      Change fun s ↦ ((), s.define scope name v)
  | assign (scope : ScopeId) (name : String) (v : Value) :
      Change fun s ↦ ((), s.assign scope name v)
  | modifyList (l : ListId) (f : Array Value → Array Value) :
      Change fun s ↦ ((), s.modifyList l f)
  | setObjectAttr (o : ObjectId) (name : String) (v : Value) :
      Change fun s ↦ ((), s.setObjectAttr o name v)
  | setTypeAttr (t : TypeId) (name : String) (v : Value) :
      Change fun s ↦ ((), s.setTypeAttr t name v)
  | setConstant (t : TypeId) (name : String) (v : Value) :
      Change fun s ↦ ((), { s with types := s.types.setConstant t name v })
  | addMethod (t : TypeId) (name : String) (d : MethodDef) :
      Change fun s ↦ ((), { s with types := s.types.addMethod t name (.user d) })
  | addClassMethod (t : TypeId) (name : String) (d : MethodDef) :
      Change fun s ↦ ((), { s with types := s.types.addClassMethod t name (.user d) })
  | includeModule (t module : TypeId) :
      Change fun s ↦ ((), { s with types := s.types.mixIn t module })
  | derive (container : TypeId) (sort : TypeSort) (name : String) (superclass : Option TypeId) :
      Change fun s ↦
        let (t, types) := s.types.derive container sort name superclass
        (t, { s with types })
  | document (t : TypeId) (doc : Option String) :
      Change fun s ↦ ((), { s with types := s.types.document t doc })
  | letGo (name : String) (t : TypeId) : Change fun s ↦ ((), s.letGoAround name t)
  | write (text : String) : Change fun s ↦ ((), s.write text)

theorem letGoAround_cases (s : State) (name : String) (t : TypeId) :
    s.letGoAround name t = s ∨ ∃ u, s.letGoAround name t =
      { s with types := s.types.modify u fun info ↦ { info with parent := none } } := by
  unfold letGoAround
  generalize s.types.all.size + 1 = n
  induction n generalizing t with
  | zero => exact .inl rfl
  | succ n ih =>
    unfold letGoWithin
    split
    · exact .inl rfl
    · split
      · exact .inl rfl
      · split
        · exact ih _
        · exact .inr ⟨t, rfl⟩

theorem letGoAround_eq (s : State) (name : String) (t : TypeId) :
    ∃ types, s.letGoAround name t = { s with types } := by
  obtain h | ⟨u, h⟩ := s.letGoAround_cases name t
  · exact ⟨s.types, h⟩
  · exact ⟨_, h⟩

end State

inductive Kind where
  /-- Runs code, which may jump out of it. -/
  | code
  /-- Ends in no jump of its own. -/
  | closed
  /-- Ends in no jump of its own, but looks for a clause and so may evaluate guards. -/
  | message
  deriving DecidableEq

namespace Task

def kind : Task → Kind
  | send .. | super .. => .message
  | callLambda .. | native .. | describe _ | rawText _ | visit .. | times .. => .closed
  | framed _ t | handling _ t => t.kind
  | eval .. | statements .. | body .. | guard .. | loop .. | forEach .. => .code

def isGuard : Task → Bool
  | guard .. => true
  | _ => false

/-- Does what a built-in method does, and is not itself a call of it. -/
def isNative : Task → Bool
  | native .. => true
  | handling _ t => t.isNative
  | _ => false

/-- The tasks that work of a kind may wait for without minding how they end. -/
def fits (t : Task) : Kind → Bool
  | .code => !t.isGuard
  | .closed => t.kind != .code && !t.isNative
  | .message => t.kind != .code || t.isGuard

/-- Finds a text for an error message, whatever unwinds on the way. -/
def describes : Task → Bool
  | describe _ | rawText _ => true
  | _ => false

/-- Does only what all work may do: counts no step, enters and leaves nothing, and lets limits
pass. -/
def isPlain : Task → Bool
  | eval .. | framed .. | handling .. | describe _ => false
  | _ => true

end Task

theorem Step.bind_assoc {α β γ : Type} (x : Step α) (f : α → State → Step β)
    (g : β → State → Step γ) : (x.bind f).bind g = x.bind fun a s ↦ (f a s).bind g := by
  induction x with
  | done o s => cases o <;> rfl
  | wait t s resume ih => exact congrArg (wait t s) (funext fun o ↦ funext fun s ↦ ih o s)

/-- All that the work waits for is as `P` says. -/
def Step.Awaits {α : Type} (P : Task → Prop) : Step α → Prop
  | .done .. => True
  | .wait t _ resume => P t ∧ ∀ o s, (resume o s).Awaits P

namespace Eval

theorem bind_apply {α β : Type} (x : Eval α) (f : α → Eval β) (s : State) :
    (x >>= f) s = (x s).bind f := Step.andThen_eq_bind (x s) f

theorem bind_bind {α β γ : Type} (x : Eval α) (f : α → Eval β) (g : β → Eval γ) :
    x >>= f >>= g = x >>= fun a ↦ f a >>= g := by
  funext s
  rw [bind_apply, bind_apply, bind_apply]
  refine (Step.bind_assoc _ _ _).trans (congrArg _ (funext fun a ↦ funext fun s' ↦ ?_))
  exact (bind_apply _ _ _).symm

theorem bind_pure {α : Type} (x : Eval α) : x >>= pure = x := by
  funext s
  rw [bind_apply]
  induction x s with
  | done o s' => cases o <;> rfl
  | wait t s' resume ih => exact congrArg (Step.wait t s') (funext fun o ↦ funext fun s ↦ ih o s)

theorem read_bind {α β : Type} (f : State → α) (k : α → Eval β) (s : State) :
    (read f >>= k) s = k (f s) s := rfl

/-- Work that is composed of changes, questions, waiting and unwinding. What it does about the end
of other work, it does not do about a limit that was hit. Only code does anything about the end of
work that is not code. -/
inductive Composed : Kind → {α : Type} → Eval α → Prop
  | pure {k : Kind} {α : Type} (a : α) : Composed k (Pure.pure a : Eval α)
  | bind {k : Kind} {α β : Type} {x : Eval α} {f : α → Eval β} :
      Composed k x → (∀ a, Composed k (f a)) → Composed k (x >>= f)
  | read {k : Kind} {α : Type} {f : State → α} : State.LimitFree f → Composed k (read f)
  | change {k : Kind} {α : Type} {f : State → α × State} :
      State.Change f → Composed k (modifyGet f : Eval α)
  | unwind {k : Kind} {α : Type} {u : Unwind} :
      u.isHalt = false → (k ≠ .code → u.isJump = false) → Composed k (unwind u : Eval α)
  | perform {k : Kind} {t : Task} : t.fits k = true → Composed k (perform t)
  | keeping {k : Kind} {α : Type} {x : Eval α} (h : Held) :
      Composed k x → Composed k (keeping h x)
  | caught {k : Kind} {α β : Type} {x : Eval α} {f : Outcome α → Eval β} :
      (k = .code ∨ ∀ s, (x s).Awaits fun t ↦ ¬ t.fits .message = true) →
      Composed .code x → (∀ a, Composed k (f (.ok a))) →
      (∀ u, u.isHalt = false → Composed k (f (.error u))) →
      (∀ l, f (.error (.halt l)) = Eval.unwind (.halt l)) → Composed k (attempt x >>= f)

namespace Composed

variable {k : Kind} {α β : Type}

theorem holding {x : Eval α} (vs : List Value) (h : Composed k x) :
    Composed k (holding vs x) := .keeping _ h

theorem within {x : Eval α} (ctx : Context) (vs : List Value) (h : Composed k x) :
    Composed k (within ctx vs x) := .keeping _ h

theorem eval (e : Expr) (ctx : Context) : Composed .code (eval e ctx) := .perform rfl

theorem send (v : Value) (name : String) (args : List Value) (block : Option Value)
    (span : Span) : Composed k (send v name args block span) := .perform (by cases k <;> rfl)

theorem callLambda (l : LambdaId) (args : List Value) (block : Option Value) (span : Span) :
    Composed k (Eval.perform (.callLambda l args block span)) := .perform (by cases k <;> rfl)

theorem callValue (v : Value) (args : List Value) (block : Option Value) (span : Span) :
    Composed k (callValue v args block span) := by
  cases v with
  | lambda l => exact .callLambda l args block span
  | _ => exact .send _ _ _ _ _

theorem ofOutcome {o : Outcome α} (hh : ∀ l, o ≠ .error (.halt l))
    (hj : k ≠ .code → ∀ u, o = .error u → u.isJump = false) : Composed k (ofOutcome o) := by
  cases o with
  | ok a => exact .pure a
  | error u =>
    refine .unwind ?_ (fun hk ↦ hj hk u rfl)
    cases u with
    | halt l => exact absurd rfl (hh l)
    | _ => rfl

theorem newList (items : List Value) : Composed k (newList items) :=
  .change (.newList (f := fun _ ↦ items.toArray) fun _ _ ↦ rfl)

theorem newScope (outer : ScopeId) : Composed k (newScope outer) := .change (.newScope outer)

theorem newLambda (b : Block) (ctx : Context) : Composed k (newLambda b ctx) :=
  .change (.newLambda ⟨b, ctx⟩)

theorem define (scope : ScopeId) (name : String) (v : Value) :
    Composed k (define scope name v) := .change (.define scope name v)

theorem assign (scope : ScopeId) (name : String) (v : Value) :
    Composed k (assign scope name v) := .change (.assign scope name v)

end Composed

end Eval

namespace State

theorem rawTextWithin_limitFree (n : Nat) (v : Value) (s : State) (l : Option Nat) :
    (s.withStepLimit l).rawTextWithin n v = s.rawTextWithin n v := by
  induction n generalizing v with
  | zero => cases v <;> rfl
  | succ n ih =>
    cases v with
    | list id =>
      have h : (s.withStepLimit l).rawTextWithin n = s.rawTextWithin n := funext ih
      simp only [rawTextWithin, h]
      rfl
    | _ => rfl

theorem rawText?_limitFree (v : Value) : LimitFree (·.rawText? v) :=
  fun s l ↦ rawTextWithin_limitFree (s.lists.size + 1) v s l

theorem inspectText?_limitFree (v : Value) : LimitFree (·.inspectText? v) := by
  intro s l
  cases v <;> rfl

theorem plainText?_limitFree (v : Value) : LimitFree (·.plainText? v) := by
  intro s l
  cases v <;> rfl

theorem typeOf_limitFree (v : Value) : LimitFree (·.typeOf v) := by
  intro s l
  cases v <;> rfl

theorem typeName_limitFree (v : Value) : LimitFree (·.typeName v) := by
  intro s l
  cases v <;> rfl

theorem isInstance_limitFree (v : Value) (t : TypeId) : LimitFree (·.isInstance v t) := by
  intro s l
  simp only [isInstance, typeOf_limitFree v s l]
  rfl

theorem outwardWithin_limitFree (name : String) (n : Nat) (t : TypeId) (s : State)
    (l : Option Nat) :
    (s.withStepLimit l).outwardWithin name n t = s.outwardWithin name n t := by
  induction n generalizing t with
  | zero => rfl
  | succ n ih =>
    simp only [outwardWithin, ih]
    rfl

theorem findConstant_limitFree (t : TypeId) (name : String) :
    LimitFree (·.findConstant t name) := by
  intro s l
  have h := outwardWithin_limitFree name (s.types.all.size + 1) t s l
  simp only [findConstant, ← h]
  rfl

theorem attr_limitFree (v : Value) (name : String) : LimitFree (·.attr v name) := by
  intro s l
  cases v <;> rfl

end State

end Quill
