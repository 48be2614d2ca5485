import Quill.Proofs.Composition

/-!
# Simple work

Simple work makes lists and instances, changes what they contain, writes, and asks for tasks that
need no place where code runs. It catches nothing. All that built-in methods do is simple. Faulting
work is simple work of which it is known what it raises itself.
-/

namespace Quill

namespace State

/-- A change of what lists and instances contain, or of the output. -/
inductive ContentChange : {α : Type} → (State → α × State) → Prop
  | newList {f : State → Array Value} : LimitFree f → ContentChange fun s ↦ s.newList (f s)
  | newObject (t : TypeId) (attrs : Bindings Value) : ContentChange (·.newObject t attrs)
  | modifyList (l : ListId) (f : Array Value → Array Value) :
      ContentChange fun s ↦ ((), s.modifyList l f)
  | setObjectAttr (o : ObjectId) (name : String) (v : Value) :
      ContentChange fun s ↦ ((), s.setObjectAttr o name v)
  | write (text : String) : ContentChange fun s ↦ ((), s.write text)

theorem ContentChange.change {α : Type} {f : State → α × State} (h : ContentChange f) :
    Change f := by
  cases h with
  | newList hf => exact .newList hf
  | newObject t attrs => exact .newObject t attrs
  | modifyList l f => exact .modifyList l f
  | setObjectAttr o name v => exact .setObjectAttr o name v
  | write text => exact .write text

end State

theorem Task.fits_of_closed {t : Task} (h : t.fits .closed = true) (k : Kind) :
    t.fits k = true := by
  cases t <;> cases k <;> simp_all [fits, kind, isGuard]

namespace Eval

inductive Simple : {α : Type} → Eval α → Prop
  | pure {α : Type} (a : α) : Simple (Pure.pure a : Eval α)
  | bind {α β : Type} {x : Eval α} {f : α → Eval β} :
      Simple x → (∀ a, Simple (f a)) → Simple (x >>= f)
  | read {α : Type} {f : State → α} : State.LimitFree f → Simple (read f)
  | change {α : Type} {f : State → α × State} :
      State.ContentChange f → Simple (modifyGet f : Eval α)
  | raising {α : Type} (r : Raised) : Simple (unwind (.raise r) : Eval α)
  | perform {t : Task} : t.fits .closed = true → Simple (perform t)
  | keeping {α : Type} {x : Eval α} (h : Held) : Simple x → Simple (keeping h x)

/-- Simple work that raises nothing itself but faults that are as `F` says. -/
inductive Faulting (F : Fault → Prop) : {α : Type} → Eval α → Prop
  | pure {α : Type} (a : α) : Faulting F (Pure.pure a : Eval α)
  | bind {α β : Type} {x : Eval α} {f : α → Eval β} :
      Faulting F x → (∀ a, Faulting F (f a)) → Faulting F (x >>= f)
  | read {α : Type} {f : State → α} : State.LimitFree f → Faulting F (read f)
  | change {α : Type} {f : State → α × State} :
      State.ContentChange f → Faulting F (modifyGet f : Eval α)
  | fault {α : Type} {f : Fault} (span : Span) : F f → Faulting F (fault f span : Eval α)
  | perform {t : Task} : t.fits .closed = true → Faulting F (perform t)
  | keeping {α : Type} {x : Eval α} (h : Held) : Faulting F x → Faulting F (keeping h x)

namespace Faulting

variable {α : Type} {F : Fault → Prop}

theorem holding {x : Eval α} (vs : List Value) (h : Faulting F x) : Faulting F (holding vs x) :=
  .keeping _ h

theorem send (v : Value) (name : String) (args : List Value) (block : Option Value)
    (span : Span) : Faulting F (send v name args block span) := .perform rfl

theorem callLambda (l : LambdaId) (args : List Value) (block : Option Value) (span : Span) :
    Faulting F (Eval.perform (.callLambda l args block span)) := .perform rfl

theorem callValue (v : Value) (args : List Value) (block : Option Value) (span : Span) :
    Faulting F (callValue v args block span) := by
  cases v with
  | lambda l => exact .callLambda l args block span
  | _ => exact .send _ _ _ _ _

theorem newList (items : List Value) : Faulting F (newList items) :=
  .change (.newList (f := fun _ ↦ items.toArray) fun _ _ ↦ rfl)

theorem newObject (t : TypeId) : Faulting F (newObject t) := .change (.newObject t .empty)

theorem resultText (v : Value) : Faulting F (resultText v) := by
  refine .bind (.read (State.plainText?_limitFree v)) fun text ↦ ?_
  cases text with
  | some text => exact .pure text
  | none => exact .bind (.perform rfl) fun _ ↦ .pure _

theorem inspect (v : Value) : Faulting F (inspect v) := by
  refine .bind (.read (State.inspectText?_limitFree v)) fun text ↦ ?_
  cases text with
  | some text => exact .pure text
  | none => exact .bind (.holding _ (.send _ _ _ _ _)) fun w ↦ .resultText w

theorem display (v : Value) : Faulting F (display v) := by
  refine .bind (.read (State.plainText?_limitFree v)) fun text ↦ ?_
  cases text with
  | some text => exact .pure text
  | none => exact .bind (.holding _ (.send _ _ _ _ _)) fun w ↦ .resultText w

theorem valuesEqual (a b : Value) : Faulting F (valuesEqual a b) := by
  unfold Eval.valuesEqual
  cases a.scalarEq? b with
  | some answer => exact .pure answer
  | none => exact .bind (.holding _ (.send _ _ _ _ _)) fun v ↦ .pure _

end Faulting

namespace Simple

variable {α : Type}

theorem composed {x : Eval α} (h : Simple x) (k : Kind) : Composed k x := by
  induction h with
  | pure a => exact .pure a
  | bind _ _ ihx ihf => exact .bind ihx ihf
  | read hf => exact .read hf
  | change hf => exact .change hf.change
  | raising r => exact .unwind rfl fun _ ↦ rfl
  | perform ht => exact .perform (Task.fits_of_closed ht k)
  | keeping h _ ih => exact .keeping h ih

theorem holding {x : Eval α} (vs : List Value) (h : Simple x) : Simple (holding vs x) :=
  .keeping _ h

theorem send (v : Value) (name : String) (args : List Value) (block : Option Value)
    (span : Span) : Simple (send v name args block span) := .perform rfl

theorem callLambda (l : LambdaId) (args : List Value) (block : Option Value) (span : Span) :
    Simple (Eval.perform (.callLambda l args block span)) := .perform rfl

theorem callValue (v : Value) (args : List Value) (block : Option Value) (span : Span) :
    Simple (callValue v args block span) := by
  cases v with
  | lambda l => exact .callLambda l args block span
  | _ => exact .send _ _ _ _ _

theorem newList (items : List Value) : Simple (newList items) :=
  .change (.newList (f := fun _ ↦ items.toArray) fun _ _ ↦ rfl)

theorem raise (v : Value) (span : Span) : Simple (raise v span : Eval α) :=
  .bind (.read fun _ _ ↦ rfl) fun _ ↦ .raising _

theorem raiseError (t : CoreType) (message : String) (span : Span) :
    Simple (raiseError t message span : Eval α) :=
  .bind (.change (.newObject _ _)) fun v ↦ .raise v span

theorem fault (f : Fault) (span : Span) : Simple (fault f span : Eval α) :=
  .raiseError f.type f.message span

theorem missing (f : Fault) (receiver : Value) (name : String) (span : Span) :
    Simple (missing f receiver name span : Eval α) :=
  .bind (.change (.newObject _ _)) fun v ↦ .raise v span

theorem of_faulting {F : Fault → Prop} {x : Eval α} (h : Faulting F x) : Simple x := by
  induction h with
  | pure a => exact .pure a
  | bind _ _ ihx ihf => exact .bind ihx ihf
  | read hf => exact .read hf
  | change hf => exact .change hf
  | fault span _ => exact .fault _ span
  | perform ht => exact .perform ht
  | keeping h _ ih => exact .keeping h ih

theorem inspect (v : Value) : Simple (inspect v) :=
  .of_faulting (F := fun _ ↦ True) (.inspect v)

theorem display (v : Value) : Simple (display v) :=
  .of_faulting (F := fun _ ↦ True) (.display v)

theorem valuesEqual (a b : Value) : Simple (valuesEqual a b) :=
  .of_faulting (F := fun _ ↦ True) (.valuesEqual a b)

theorem inspectAnyway (v : Value) : Simple (inspectAnyway v) :=
  .bind (.perform rfl) fun _ ↦ .pure _

end Simple

namespace Composed

variable {k : Kind} {α : Type}

theorem raise (v : Value) (span : Span) : Composed k (raise v span : Eval α) :=
  (Simple.raise v span).composed k

theorem fault (f : Fault) (span : Span) : Composed k (fault f span : Eval α) :=
  (Simple.fault f span).composed k

theorem missing (f : Fault) (receiver : Value) (name : String) (span : Span) :
    Composed k (missing f receiver name span : Eval α) :=
  (Simple.missing f receiver name span).composed k

theorem inspect (v : Value) : Composed k (inspect v) :=
  (Simple.inspect v).composed k

theorem display (v : Value) : Composed k (display v) :=
  (Simple.display v).composed k

theorem inspectAnyway (v : Value) : Composed k (inspectAnyway v) :=
  (Simple.inspectAnyway v).composed k

theorem valuesEqual (a b : Value) : Composed k (valuesEqual a b) :=
  (Simple.valuesEqual a b).composed k

end Composed

end Eval

end Quill
