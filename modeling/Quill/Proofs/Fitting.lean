import Quill.Proofs.Composition.Task
import Quill.Proofs.Consulting

/-!
# Calls that fit their signatures

The signature of a built-in method is checked before the method is called, and grants all that the
method takes from a call. Main statement:
`Routine.Entry.signature_protects`. So the errors that
such a method raises itself are about what it was given for, never about what is missing.
-/

namespace Quill

open Eval

variable {sortOf : TypeId → TypeSort} {c : Call}

namespace Expect

/-- Whether all values of a shape are of the other one, too. -/
def within : Expect → Expect → Bool
  | _, any | int, number | float, number | type, module => true
  | e, shape => e == shape

theorem accepts_of_within {e shape : Expect} {v : Value} (h : e.within shape = true)
    (hv : e.accepts sortOf v = true) : shape.accepts sortOf v = true := by
  unfold within at h
  split at h
  · rfl
  · cases v <;> first | rfl | cases hv
  · cases v <;> first | rfl | cases hv
  · cases v <;> first | rfl | cases hv
  · rwa [← eq_of_beq h]

end Expect

namespace Signature

variable {g : Signature}

theorem mismatch_eq_none {v : Value} {args : List Value} {hasBlock : Bool} :
    g.mismatch sortOf v args hasBlock = none ↔
      g.receiver.accepts sortOf v = true ∧ g.countFits args.length = true ∧
        badArgument sortOf g.rest 1 g.params args = none ∧
        (g.block = .required → hasBlock = true) := by
  unfold mismatch
  cases g.receiver.accepts sortOf v <;> cases g.countFits args.length <;>
    cases badArgument sortOf g.rest 1 g.params args <;> simp

theorem accepts_of_badArgument {rest : Option Expect} {position i : Nat} {params : List Expect}
    {args : List Value} {e : Expect} {v : Value}
    (h : badArgument sortOf rest position params args = none) (he : params[i]? = some e)
    (hv : args[i]? = some v) : e.accepts sortOf v = true := by
  induction params generalizing args position i with
  | nil => cases he
  | cons first params ih =>
    cases args with
    | nil => cases hv
    | cons arg args =>
      unfold badArgument at h
      split at h
      · rename_i haccepts
        cases i with
        | zero =>
          cases he
          cases hv
          exact haccepts
        | succ i => exact ih h he hv
      · cases h

def grants (g : Signature) : Need → Bool
  | .receiver shapes => shapes.any g.receiver.within
  | .argument i shapes => g.params[i]?.any fun e => shapes.any e.within
  | .block => g.block == .required

theorem metBy_of_grants {n : Need}
    (hfits : g.mismatch sortOf c.receiver c.args c.block.isSome = none)
    (hn : g.grants n = true) : n.metBy sortOf c = true := by
  obtain ⟨hreceiver, hcount, hargs, hblock⟩ := mismatch_eq_none.mp hfits
  cases n with
  | receiver shapes =>
    obtain ⟨shape, hshape, hwithin⟩ := List.any_eq_true.mp hn
    exact List.any_eq_true.mpr ⟨shape, hshape, Expect.accepts_of_within hwithin hreceiver⟩
  | argument i shapes =>
    obtain ⟨e, he, hany⟩ := (Option.any_eq_true _ _).mp hn
    obtain ⟨shape, hshape, hwithin⟩ := List.any_eq_true.mp hany
    have hparams : g.params.length ≤ c.args.length := by
      unfold countFits at hcount
      split at hcount
      · exact of_decide_eq_true hcount
      · exact (eq_of_beq hcount).ge
    have hlt : i < c.args.length :=
      (List.getElem?_eq_some_iff.mp he).1.trans_le hparams
    have hv : c.args[i]? = some c.args[i] := List.getElem?_eq_getElem hlt
    rw [Need.metBy, hv]
    exact List.any_eq_true.mpr ⟨shape, hshape,
      Expect.accepts_of_within hwithin (accepts_of_badArgument hargs he hv)⟩
  | block => exact hblock (eq_of_beq hn)

end Signature

namespace Routine

theorem catalogue_granted : ∀ e ∈ catalogue, e.name ≠ "respond_to?" → e.name ≠ "method_doc" →
    e.routine.isHost = false ∧ e.routine.needs.all e.signature.grants = true := by
  decide

end Routine

theorem LetsPass.append {α : Type} {es es' : List Episode} {o : Outcome α}
    (h : ∀ e ∈ es, ∃ v, e.outcome = .ok v) (h' : LetsPass es' o) : LetsPass (es ++ es') o := by
  induction es with
  | nil => exact h'
  | cons e es ih =>
    obtain ⟨⟨v, hv⟩, hrest⟩ := List.forall_mem_cons.mp h
    exact .cons hv (ih hrest)

/-- Faulting work lets pass what unwinds the tasks that it asks for. What it raises besides is as
`F` says. -/
theorem Eval.Faulting.course {α : Type} {F : Fault → Prop} {x : Eval α} {s s' : State}
    {es : List Episode} {o : Outcome α} (h : Faulting F x) (hx : (x s).Course es o s') :
    LetsPass es o ∨ ∃ f span, F f ∧ s'.Raises f span o := by
  induction h generalizing s s' es with
  | pure a | read hf | change hf =>
    obtain ⟨rfl, rfl, rfl⟩ := hx.of_done
    exact .inl (List.forall_mem_nil _)
  | bind hx₁ hf₁ ihx ihf =>
    rw [bind_apply] at hx
    obtain ⟨u, rfl, hu⟩ | ⟨a, es₁, es₂, s₁, rfl, ha, hrest⟩ := hx.bind
    · obtain hpass | ⟨f, span, hF, id, calls, ho, hobj⟩ := ihx hu
      · exact .inl hpass
      · cases ho
        exact .inr ⟨f, span, hF, id, calls, rfl, hobj⟩
    · obtain hpass | ⟨f, span, hF, id, calls, ho, hobj⟩ := ihx ha
      · exact (ihf a hrest).imp_left (.append hpass)
      · cases ho
  | @fault α f span hF =>
    obtain ⟨rfl, rfl, rfl⟩ := Step.Course.of_done hx
    exact .inr ⟨f, span, hF, ⟨s.objects.size⟩, s.frames, rfl, Array.getElem?_push_size⟩
  | perform ht =>
    cases hx with
    | wait hrun hrest =>
      obtain ⟨rfl, rfl, rfl⟩ := hrest.of_done
      cases o with
      | ok v => exact .inl fun e he ↦ ⟨v, by rw [List.mem_singleton.mp he]⟩
      | error u => exact .inl ⟨[], _, rfl, List.forall_mem_nil _, rfl⟩
  | keeping held hx₁ ih =>
    obtain ⟨s₁, hs₁, rfl⟩ := Step.Course.restoring hx
    refine (ih hs₁).imp_right fun ⟨f, span, hF, hraises⟩ ↦ ⟨f, span, hF, ?_⟩
    exact State.raises_lasting f span (State.Keeps.of_eq rfl rfl) hraises

theorem Fault.message_of_isFound {f : Fault} (h : f.isFound = true) :
    ¬ "expected ".toList <+: f.message.toList := by
  cases f with
  | badMethodName | overflow | divisionByZero | noWholeNumber _ | negativeRepeat | tooLarge
  | negativeSize | tooManyForList _ | indexOutOfRange _ | notInstantiable _ =>
    unfold message
    simp
  | _ => cases h

theorem Routine.strict_of_grants {r : Routine} {g : Signature} (hr : r.isHost = false)
    (hneeds : r.needs.all g.grants = true)
    (hfits : g.mismatch sortOf c.receiver c.args c.block.isSome = none) :
    r.strict c = some (r.run c) := by
  have hneeded : (r.strict c).isSome = r.needs.all (·.metBy sortOf c) := isSome_strict hr c
  have hmet : (r.strict c).isSome = true := by
    rw [hneeded, List.all_eq_true]
    exact fun n hn ↦ Signature.metBy_of_grants hfits (List.all_eq_true.mp hneeds n hn)
  obtain ⟨x, hx⟩ := Option.isSome_iff_exists.mp hmet
  rw [hx, Routine.run_of_strict hx]

theorem Clause.native_rejects {m : Method} {n : NativeMethod} {reason : Mismatch} {s : State}
    (h : n.signature.mismatch s.types.sort c.receiver c.args c.block.isSome = some reason)
    (mismatch : Option Mismatch) (rest : List Clause) :
    runClauses m c mismatch (.native n :: rest) s =
      runClauses m c (mismatch.or (some reason)) rest s := by
  rw [runClauses, read_bind, h]

namespace Routine.Entry

/-- Signatures protect built-in methods. A call that fits is read strictly, without any default for
what is missing, and the method raises nothing itself but what it finds wrong with values of the
right shape. A call that does not fit changes nothing: the next clause is tried, and after the last
one an error is raised. -/
theorem signature_protects {e : Entry} (he : e ∈ catalogue) (hrespond : e.name ≠ "respond_to?")
    (hdoc : e.name ≠ "method_doc") (s : State) (c : Call) :
    (e.signature.mismatch s.types.sort c.receiver c.args c.block.isSome = none →
      e.routine.strict c = some (e.routine.run c) ∧
      (e.routine = .object .send → c.args ≠ []) ∧
      ∀ s₁ es o s', (e.routine.run c s₁).Course es o s' → LetsPass es o ∨
        ∃ f span, s'.Raises f span o ∧ f.isFound = true ∧
          ¬ "expected ".toList <+: f.message.toList) ∧
    ∀ reason, e.signature.mismatch s.types.sort c.receiver c.args c.block.isSome = some reason →
      ∀ m n mismatch, n.signature = e.signature →
        (∀ rest, runClauses m c mismatch (.native n :: rest) s =
          runClauses m c (mismatch.or (some reason)) rest s) ∧
        (m.clauses.all Clause.isNative = true →
          ∃ f, f.type = .argumentTypeError ∧ f = .badCall (s.methodLabel m) (mismatch.getD reason) ∧
            runClauses m c mismatch [.native n] s = fault f c.span s) := by
  obtain ⟨hhost, hneeds⟩ := catalogue_granted e he hrespond hdoc
  refine ⟨fun hfits ↦ ?_, fun reason hmissed m n mismatch hn ↦ ?_⟩
  · have hstrict := strict_of_grants hhost hneeds hfits
    refine ⟨hstrict, fun hsend hargs ↦ ?_, fun s₁ es o s' hcourse ↦ ?_⟩
    · rw [hsend] at hstrict
      change ObjectRoutine.send.strict c = _ at hstrict
      rw [ObjectRoutine.strict, hargs] at hstrict
      cases hstrict
    · refine ((run_faulting hhost c).course hcourse).imp_right ?_
      rintro ⟨f, span, hnone | hfound, hraises⟩
      · rw [hstrict] at hnone
        cases hnone
      · exact ⟨f, span, hraises, hfound, Fault.message_of_isFound hfound⟩
  · rw [← hn] at hmissed
    have hnext := Clause.native_rejects (m := m) hmissed mismatch
    refine ⟨hnext, fun hnative ↦ ⟨_, rfl, rfl, ?_⟩⟩
    rw [hnext, runClauses, raiseNoClause, read_bind, if_pos hnative]
    cases mismatch <;> rfl

theorem repeat_signature_protects :
    let e := fixed .string .string "*" [.int] (.text .repeat_)
    let c : Call := ⟨.str "ab", [.int 3], none, .origin⟩
    e ∈ catalogue ∧ e.name ≠ "respond_to?" ∧ e.name ≠ "method_doc" ∧
      e.routine.strict c = some (e.routine.run c) := by
  intro e c
  have he : e ∈ catalogue := by decide
  have hrespond : e.name ≠ "respond_to?" := by decide
  have hdoc : e.name ≠ "method_doc" := by decide
  have hfits : e.signature.mismatch (State.initial .standard).types.sort c.receiver c.args
      c.block.isSome = none := rfl
  exact ⟨he, hrespond, hdoc,
    ((signature_protects he hrespond hdoc (.initial .standard) c).1 hfits).1⟩

end Routine.Entry

/-- The argument of `respond_to?` may be anything, but is taken for a name. -/
example : (Routine.object .respondTo).strict ⟨.nil, [.int 1], none, .origin⟩ = none := rfl

end Quill
