import Quill.Proofs.Composition.Simple
import Quill.Proofs.Unpacking

/-!
# What built-in methods do is simple

No built-in method jumps, counts steps or enters a call by itself: it asks for tasks, and what it
does else are changes of contents. Of their own accord they raise faults that are about what they
were given for, or others where a part of the call is missing that the work is done with.
-/

namespace Quill

open Eval

/-- What can be wrong with parts of a call that are of the right shape. -/
def Fault.isFound : Fault → Bool
  | badMethodName | overflow | divisionByZero | noWholeNumber _ | negativeRepeat | tooLarge
  | negativeSize | tooManyForList _ | indexOutOfRange _ | notInstantiable _ => true
  | _ => false

/-- A fault that is found in a call, or any where no strict reading of the call goes on. -/
def Fault.FoundUnless (strict : Option (Eval Value)) (f : Fault) : Prop :=
  strict = none ∨ f.isFound = true

namespace Eval.Faulting

variable {F : Fault → Prop}

theorem calculated {α : Type} {r : Except Fault α} (span : Span) (h : ∀ f, r = .error f → F f) :
    Faulting F (calculated r span) := by
  cases r with
  | ok a => exact .pure a
  | error f => exact .fault span (h f rfl)

theorem write (text : String) : Faulting F (write text) := .change (.write text)

theorem putAll (vs : List Value) : Faulting F (putAll vs) := by
  induction vs with
  | nil => exact .pure ()
  | cons v rest ih => exact .bind (.display v) fun _ ↦ .bind (.write _) fun _ ↦ ih

theorem printAll (vs : List Value) : Faulting F (printAll vs) := by
  induction vs with
  | nil => exact .pure ()
  | cons v rest ih => exact .bind (.display v) fun _ ↦ .bind (.write _) fun _ ↦ ih

theorem showAll (vs : List Value) : Faulting F (showAll vs) := by
  induction vs with
  | nil => exact .pure ()
  | cons v rest ih => exact .bind (.inspect v) fun _ ↦ .bind (.write _) fun _ ↦ ih

theorem inspectAttrs (done : List String) (attrs : List (String × Value)) :
    Faulting F (inspectAttrs done attrs) := by
  induction attrs generalizing done with
  | nil => exact .pure _
  | cons a rest ih => exact .bind (.inspect a.2) fun _ ↦ ih _

end Eval.Faulting

theorem checkedInt_found {z : Int} {f : Fault} (h : checkedInt z = .error f) :
    f.isFound = true := by
  unfold checkedInt at h
  split at h
  · cases h
  · cases h
    rfl

namespace Arithmetic

theorem onInts_found {op : Arithmetic} {a b : Int64} {f : Fault} (h : op.onInts a b = .error f) :
    f.isFound = true := by
  cases op with
  | add | sub | mul => exact checkedInt_found h
  | div | mod =>
    unfold onInts at h
    dsimp only at h
    repeat' split at h
    all_goals cases h
    all_goals rfl

theorem onFloats_found {op : Arithmetic} {a b : Float} {f : Fault}
    (h : op.onFloats a b = .error f) : f.isFound = true := by
  unfold onFloats at h
  repeat' split at h
  all_goals cases h
  all_goals rfl

theorem error_of_map {α β : Type} {r : Except Fault α} {g : α → β} {f : Fault}
    (h : r.map g = .error f) : r = .error f := by
  cases r <;> cases h
  rfl

end Arithmetic

namespace NumberRoutine

theorem arithmetic_found {op : Arithmetic} {c : Call} {f : Fault}
    (h : op.onValues c.receiver (c.arg 0) = .error f) :
    f.FoundUnless ((arithmetic op).strict c) := by
  cases hother : c.argAs? 0 some with
  | none => exact .inl (by rw [strict, hother]; rfl)
  | some other =>
    rw [Call.arg_eq hother] at h
    unfold Arithmetic.onValues at h
    split at h
    · exact .inr (Arithmetic.onInts_found (Arithmetic.error_of_map h))
    · rename_i hints
      split at h
      · exact .inr (Arithmetic.onFloats_found (Arithmetic.error_of_map h))
      · rename_i hnumbers
        refine .inl ?_
        rw [strict, hother, Option.bind_some]
        split
        · exact absurd rfl (hints _ _ ‹_›)
        · cases hx : c.receiver.number? with
          | none => rfl
          | some x =>
            rw [Option.bind_some, Option.map_eq_none_iff, ← Option.not_isSome_iff_eq_none]
            intro hy
            obtain ⟨y, hy⟩ := Option.isSome_iff_exists.mp hy
            exact hnumbers x y hx hy

theorem run_faulting (r : NumberRoutine) (c : Call) :
    Faulting (Fault.FoundUnless (r.strict c)) (r.run c) := by
  cases r with
  | arithmetic op => exact .calculated c.span fun f ↦ arithmetic_found
  | compare r => exact .pure _
  | equal => exact .pure _
  | negate | abs =>
    unfold run strict
    cases c.receiver with
    | int n =>
      exact .bind (.calculated c.span fun f h ↦ .inr (checkedInt_found h)) fun _ ↦ .pure _
    | float x => exact .pure _
    | _ => exact .fault c.span (.inl rfl)
  | toText =>
    unfold run strict
    cases c.receiver with
    | int n => exact .pure _
    | float x => exact .pure _
    | _ => exact .fault c.span (.inl rfl)
  | toInt =>
    unfold run strict
    cases c.receiver with
    | int n => exact .pure _
    | float x =>
      dsimp only
      cases Float.truncated? x with
      | some n => exact .pure _
      | none => exact .fault c.span (.inr rfl)
    | _ => exact .fault c.span (.inl rfl)
  | toFloat =>
    unfold run strict
    cases c.receiver.number? with
    | some x => exact .pure _
    | none => exact .fault c.span (.inl rfl)
  | times =>
    unfold run strict
    dsimp only
    split
    · exact .bind (.holding _ (.perform rfl)) fun _ ↦ .pure _
    · rename_i hother
      refine .fault c.span (.inl ?_)
      cases hblock : c.block with
      | none => cases c.receiver.int? <;> rfl
      | some block =>
        cases hn : c.receiver.int? with
        | none => rfl
        | some n => exact absurd hblock (hother n block (Value.int?_eq_some.mp hn))

end NumberRoutine

namespace TextRoutine

theorem run_faulting (r : TextRoutine) (c : Call) :
    Faulting (Fault.FoundUnless (r.strict c)) (r.run c) := by
  cases r with
  | repeat_ =>
    unfold run
    dsimp only
    split
    · exact .fault c.span (.inr rfl)
    · split
      · exact .fault c.span (.inr rfl)
      · exact .pure _
  | words => exact .newList _
  | split => exact .newList _
  | chars => exact .newList _
  | inspect =>
    cases h : strict .inspect c with
    | some x =>
      rw [run_of_strict h]
      obtain ⟨text, -, h⟩ := Option.bind_eq_some_iff.mp h
      dsimp only at h
      split at h <;> cases h <;> exact .pure _
    | none =>
      refine .bind (.read (State.inspectText?_limitFree c.receiver)) fun shown ↦ ?_
      cases shown with
      | some shown => exact .pure _
      | none => exact .fault c.span (.inl rfl)
  | at_ =>
    unfold run
    dsimp only
    split <;> exact .pure _
  | _ => exact .pure _

end TextRoutine

namespace ObjectRoutine

theorem respondsTo_limitFree (v : Value) (name : String) :
    State.LimitFree (·.respondsTo v name) := by
  intro s l
  cases v <;> rfl

theorem inspectObject_faulting {F : Fault → Prop} (v : Value) :
    Faulting F (inspectObject v) := by
  refine .bind (.read (State.inspectText?_limitFree v)) fun text ↦ ?_
  cases text with
  | some text => exact .pure _
  | none =>
    refine .bind (.read (State.typeName_limitFree v)) fun type ↦
      .bind (.read fun s l ↦ by cases v <;> rfl) fun attrs ↦
        .bind (.holding _ (.inspectAttrs [] attrs)) fun texts ↦ ?_
    cases texts <;> exact .pure _

theorem run_faulting (r : ObjectRoutine) (c : Call) :
    Faulting (Fault.FoundUnless (r.strict c)) (r.run c) := by
  cases r with
  | nothing => exact .pure _
  | identical => exact .pure _
  | notEqual => exact .bind (.holding _ (.send _ _ _ _ _)) fun _ ↦ .pure _
  | class_ => exact .bind (.read (State.typeOf_limitFree c.receiver)) fun _ ↦ .pure _
  | isA =>
    unfold run
    cases htype : c.arg 0 with
    | type t => exact .bind (.read (State.isInstance_limitFree c.receiver t)) fun _ ↦ .pure _
    | _ =>
      have hnone : c.argAs? 0 Value.type? = none := Call.argAs?_eq_none (by rw [htype]; rfl)
      exact .fault c.span (.inl (congrArg (Option.map _) hnone))
  | respondTo =>
    unfold run
    cases hname : (c.arg 0).name? with
    | some name => exact .bind (.read (respondsTo_limitFree c.receiver _)) fun _ ↦ .pure _
    | none => exact .fault c.span (.inl (congrArg (Option.map _) (Call.argAs?_eq_none hname)))
  | isNil => exact .pure _
  | toText =>
    exact .bind (.read (State.plainText?_limitFree c.receiver)) fun _ ↦
      .bind (.read (State.typeName_limitFree c.receiver)) fun _ ↦ .pure _
  | inspect => exact .holding _ (inspectObject_faulting c.receiver)
  | send =>
    unfold run
    dsimp only
    split
    · exact .fault c.span (.inr rfl)
    · split
      · exact .send _ _ _ _ _
      · exact .fault c.span (.inr rfl)
  | print => exact .bind (.holding _ (.printAll c.args)) fun _ ↦ .pure _
  | puts =>
    have rest {F : Fault → Prop} : Faulting F (do
        Eval.holding c.values (putAll c.args)
        return Value.nil) := .bind (.holding _ (.putAll c.args)) fun _ ↦ .pure _
    unfold run
    dsimp only
    split
    · exact .bind (.write _) fun _ ↦ rest
    · exact rest
  | p =>
    refine .bind (.holding _ (.showAll c.args)) fun _ ↦ ?_
    split
    · exact .pure _
    · exact .pure _
    · exact .newList _
  | lambda =>
    unfold run strict
    cases c.block with
    | some block => exact .pure _
    | none => exact .fault c.span (.inl rfl)

end ObjectRoutine

theorem ErrorRoutine.run_faulting (r : ErrorRoutine) (c : Call) :
    Faulting (Fault.FoundUnless (r.strict c)) (r.run c) := by
  cases r with
  | init =>
    unfold run
    cases c.receiver with
    | object o => exact .bind (.change (.setObjectAttr o "message" _)) fun _ ↦ .pure _
    | _ => exact .pure _
  | message => exact .read (State.attr_limitFree c.receiver "message")

theorem LambdaRoutine.run_faulting (r : LambdaRoutine) (c : Call) :
    Faulting (Fault.FoundUnless (r.strict c)) (r.run c) := by
  unfold run strict
  cases c.receiver with
  | lambda l =>
    cases r with
    | call => exact .holding _ (.callLambda _ _ _ _)
    | arity =>
      refine .bind (.read fun _ _ ↦ rfl) fun found ↦ ?_
      cases found <;> exact .pure _
  | _ => cases r <;> exact .fault c.span (.inl rfl)

theorem HostRoutine.run_simple (r : HostRoutine) (c : Call) : Simple (r.run c) := by
  cases r with
  | echo => exact .bind (.newList _) fun _ ↦ .newList _
  | apply => exact .holding _ (.callValue _ _ none c.span)
  | forward => exact .send _ _ _ _ _
  | fail =>
    unfold HostRoutine.run
    dsimp only
    split
    · exact .raiseError _ _ c.span
    · exact .raiseError _ _ c.span
    · exact .raise _ c.span

namespace TypeRoutine

theorem instantiate_faulting {F : Fault → Prop} (t : TypeId) (c : Call)
    (h : ∀ name, F (.notInstantiable name)) : Faulting F (instantiate t c) := by
  unfold TypeRoutine.instantiate
  split
  · exact .bind (.read fun _ _ ↦ rfl) fun name ↦ .fault c.span (h name)
  · exact .bind (.newObject t) fun _ ↦ .bind (.holding _ (.send _ _ _ _ _)) fun _ ↦ .pure _

theorem run_faulting (r : TypeRoutine) (c : Call) :
    Faulting (Fault.FoundUnless (r.strict c)) (r.run c) := by
  unfold run strict
  cases c.receiver with
  | type t =>
    cases r with
    | ancestors => exact .bind (.read fun _ _ ↦ rfl) fun _ ↦ .newList _
    | instanceMethods => exact .bind (.read fun _ _ ↦ rfl) fun _ ↦ .newList _
    | classMethods => exact .bind (.read fun _ _ ↦ rfl) fun _ ↦ .newList _
    | constants => exact .bind (.read fun _ _ ↦ rfl) fun _ ↦ .newList _
    | methodDoc =>
      dsimp only [runOn]
      cases hname : (c.arg 0).name? with
      | some name => exact .bind (.read fun _ _ ↦ rfl) fun _ ↦ .pure _
      | none => exact .fault c.span (.inl (congrArg (Option.map _) (Call.argAs?_eq_none hname)))
    | includes =>
      dsimp only [runOn]
      cases htype : c.arg 0 with
      | type m => exact .bind (.read fun _ _ ↦ rfl) fun _ ↦ .pure _
      | _ =>
        have hnone : c.argAs? 0 Value.type? = none := Call.argAs?_eq_none (by rw [htype]; rfl)
        exact .fault c.span (.inl (congrArg (Option.map _) hnone))
    | new => exact instantiate_faulting t c fun _ ↦ .inr rfl
    | _ => exact .bind (.read fun _ _ ↦ rfl) fun _ ↦ .pure _
  | _ => exact .fault c.span (.inl rfl)

end TypeRoutine

end Quill
