import Quill.Proofs.Binding
import Quill.Proofs.Effects
import Quill.Proofs.Limits
import Quill.Proofs.Nesting
import Quill.Proofs.SuperCalls

/-!
# Trying the clauses of a method

The clauses of a method are tested one after the other until one takes the call. Then its body is
done, which nothing comes after. Main statements: `Clause.comes_of_taken`, `Clause.body_of_comes`,
`Clause.no_body_of_passed` and `Clause.raiseNoClause_course`.
-/

namespace Quill

open Eval

namespace Step

variable {α β : Type}

/-- After it waited for these tasks the work goes on as `y`. -/
inductive Comes : Step α → List Episode → Step α → Prop
  | here {x : Step α} : Comes x [] x
  | wait {t : Task} {s s₁ : State} {resume : Resume α} {n : Nat} {o₁ : Outcome Value}
      {es : List Episode} {y : Step α} : (Machine.start t s).run n = some (o₁, s₁) →
      Comes (resume o₁ s₁) es y → Comes (.wait t s resume) (⟨t, s, o₁, s₁⟩ :: es) y

variable {x y z : Step α} {es es' : List Episode} {o : Outcome α} {s s' : State}

theorem Course.comes (h : x.Course es o s) : x.Comes es (.done o s) := by
  induction h with
  | done => exact .here
  | wait hrun _ ih => exact .wait hrun ih

theorem Course.unique {o' : Outcome α} (h : x.Course es o s) (h' : x.Course es' o' s') :
    es' = es ∧ o' = o ∧ s' = s := by
  induction h generalizing es' with
  | done => exact h'.of_done
  | wait hrun _ ih =>
    cases h' with
    | wait hrun' hrest' =>
      cases Machine.run_unique hrun hrun'
      obtain ⟨rfl, rfl, rfl⟩ := ih hrest'
      exact ⟨rfl, rfl, rfl⟩

namespace Comes

theorem trans (h : x.Comes es y) (h' : y.Comes es' z) : x.Comes (es ++ es') z := by
  induction h with
  | here => exact h'
  | wait hrun _ ih => exact .wait hrun (ih h')

theorem of_done (h : (Step.done o s).Comes es y) : es = [] ∧ y = .done o s := by
  cases h
  exact ⟨rfl, rfl⟩

theorem course (h : x.Comes es y) (hx : x.Course es' o s') :
    ∃ es'', es' = es ++ es'' ∧ y.Course es'' o s' := by
  induction h generalizing es' with
  | here => exact ⟨es', rfl, hx⟩
  | wait hrun _ ih =>
    cases hx with
    | wait hrun' hrest =>
      cases Machine.run_unique hrun hrun'
      obtain ⟨es'', rfl, hy⟩ := ih hrest
      exact ⟨es'', rfl, hy⟩

theorem bind (h : x.Comes es y) (f : α → State → Step β) : (x.bind f).Comes es (y.bind f) := by
  induction h with
  | here => exact .here
  | wait hrun _ ih => exact .wait hrun ih

theorem of_bind {f : α → State → Step β} {y : Step β} (h : (x.bind f).Comes es y) :
    (∃ x', x.Comes es x' ∧ y = x'.bind f ∧ ∀ a s, x' ≠ .done (.ok a) s) ∨
    ∃ a es₁ es₂ s₁, es = es₁ ++ es₂ ∧ x.Course es₁ (.ok a) s₁ ∧ (f a s₁).Comes es₂ y := by
  induction x generalizing es with
  | done o s =>
    cases o with
    | ok a => exact .inr ⟨a, [], es, s, rfl, .done, h⟩
    | error u =>
      obtain ⟨rfl, rfl⟩ := of_done h
      exact .inl ⟨_, .here, rfl, nofun⟩
  | wait t s resume ih =>
    cases h with
    | here => exact .inl ⟨_, .here, rfl, nofun⟩
    | wait hrun hrest =>
      obtain ⟨x', hx, rfl, hne⟩ | ⟨a, es₁, es₂, s₁, rfl, hx, hf⟩ := ih _ _ hrest
      · exact .inl ⟨x', .wait hrun hx, rfl, hne⟩
      · exact .inr ⟨a, _, es₂, s₁, rfl, .wait hrun hx, hf⟩

end Comes

def awaited : Step α → List Task
  | done .. => []
  | wait t .. => [t]

theorem awaited_bind (f : α → State → Step β) (hx : ∀ a s, x ≠ .done (.ok a) s) :
    (x.bind f).awaited = x.awaited := by
  match x with
  | .wait t s resume => rfl
  | .done (.error u) s => rfl
  | .done (.ok a) s => exact absurd rfl (hx a s)

def asked (es : List Episode) (y : Step α) : List Task := es.map (·.task) ++ y.awaited

theorem asked_append (es es' : List Episode) (y : Step α) :
    asked (es ++ es') y = es.map (·.task) ++ asked es' y := by simp [asked]

theorem Asks.asked {A : Task → Prop} {R : State → State → Prop} (hx : x.Asks A R s)
    (h : x.Comes es y) : ∀ t ∈ asked es y, A t := by
  induction h generalizing s with
  | @here x =>
    intro t ht
    cases x with
    | done o s' => simp [Step.asked, awaited] at ht
    | wait t' s' resume =>
      obtain rfl : t = t' := by simpa [Step.asked, awaited] using ht
      exact hx.2.1
  | @wait t s₀ s₁ resume n o es y hrun hrest ih =>
    intro t' ht'
    obtain rfl | ht' := List.mem_cons.mp ht'
    · exact hx.2.1
    · exact ih (hx.2.2 o s₁) t' ht'

end Step

open Step

/-- What clauses are tested with. -/
inductive Task.Tests : Task → Prop
  | guard (e : Expr) (ctx : Context) : Tests (guard e ctx)
  | compare (a b : Value) : Tests (send "==" ⟨a, [b], none, .origin⟩)

theorem Task.Tests.not_framed {t : Task} (h : t.Tests) : t.isFramed = false := by
  cases h <;> rfl

namespace Clause

/-- What a built-in clause misses in a call. -/
def mismatch? (c : Call) (s : State) : Clause → Option Mismatch
  | native n => n.signature.mismatch s.types.sort c.receiver c.args c.block.isSome
  | user _ => none

/-- Tells where the body of a clause is to run, if the clause takes the call. A built-in one needs
no place of its own. -/
def test (m : Method) (c : Call) : Clause → Eval (Option Context)
  | native n => read fun s ↦
    if ((native n).mismatch? c s).isNone then some State.topContext else none
  | user d => bindClause d m c

def body (m : Method) (c : Call) (ctx : Context) (s : State) : Clause → Task
  | native n => .framed ⟨n.label, c.span⟩ (.native n c)
  | user d => .framed ⟨s.methodLabel m, c.span⟩ (.body d.body ctx)

def Tested (m : Method) (c : Call) (clause : Clause) (s : State) (es : List Episode)
    (o : Outcome (Option Context)) (s' : State) : Prop := (clause.test m c s).Course es o s'

variable {m : Method} {c : Call} {clause : Clause} {s s₁ s₂ s' : State} {es es₁ es₂ : List Episode}
  {passed rest clauses : List Clause} {ctx : Context} {mismatch : Option Mismatch}

theorem body_framed (m : Method) (c : Call) (ctx : Context) (s : State) (clause : Clause) :
    (clause.body m c ctx s).isFramed = true := by cases clause <;> rfl

theorem Tested.tried {o : Outcome (Option Context)} (h : Tested m c clause s es o s') :
    ClauseTried m c clause s es o s' := by
  cases clause with
  | native n => exact Course.of_done h
  | user d => exact bindClause_course h

theorem test_asks {R : State → State → Prop} [State.Gentle R] (m : Method) (c : Call)
    (clause : Clause) : Asks Task.Tests R (clause.test m c) := by
  cases clause with
  | native n => exact .read _
  | user d => exact .bindClause d m .guard fun _ _ ↦ .compare

theorem Tested.tests {o : Outcome (Option Context)} (h : Tested m c clause s es o s') :
    ∀ e ∈ es, e.task.Tests :=
  ((test_asks (R := State.Adds) m c clause s).along h).2

theorem runClauses_cons (m : Method) (c : Call) (mismatch : Option Mismatch) (clause : Clause)
    (rest : List Clause) (s : State) :
    runClauses m c mismatch (clause :: rest) s = (clause.test m c s).bind fun found s₁ ↦
      match found with
      | some ctx => clauseCode m c clause ctx s₁
      | none => runClauses m c (mismatch.or (clause.mismatch? c s)) rest s₁ := by
  cases clause with
  | native n =>
    rw [runClauses, read_bind]
    cases hm : n.signature.mismatch s.types.sort c.receiver c.args c.block.isSome <;>
      simp only [test, mismatch?, Eval.read, Step.bind, hm] <;> rfl
  | user d =>
    rw [runClauses, bind_apply]
    refine congrArg _ (funext fun found ↦ funext fun s₁ ↦ ?_)
    cases found with
    | some ctx => rfl
    | none => simp [mismatch?]

theorem clauseCode_waits (m : Method) (c : Call) (clause : Clause) (ctx : Context) (s : State) :
    ∃ held resume, clauseCode m c clause ctx s =
      .wait (clause.body m c ctx s) { s with held } resume ∧
      ∀ o s', ∃ o' s'', resume o s' = .done o' s'' := by
  cases clause with
  | native n => exact ⟨_, _, rfl, fun o s' ↦ ⟨_, _, rfl⟩⟩
  | user d =>
    refine ⟨_, _, rfl, fun o s' ↦ ?_⟩
    rcases o with (r | v | v | ⟨id, v⟩ | v | l) | v <;> exact ⟨_, _, rfl⟩

theorem passed_comes (h : Passed (Tested m c) passed s es s₁) (rest : List Clause)
    (mismatch : Option Mismatch) :
    ∃ mismatch', (runClauses m c mismatch (passed ++ rest) s).Comes es
      (runClauses m c mismatch' rest s₁) := by
  induction h generalizing mismatch with
  | nil => exact ⟨mismatch, .here⟩
  | @cons clause passed s s₁ s' es₁ es₂ ha _ ih =>
    obtain ⟨mismatch', hrest⟩ := ih (mismatch.or (clause.mismatch? c s))
    refine ⟨mismatch', ?_⟩
    rw [List.cons_append, runClauses_cons]
    exact ((Course.comes ha).bind _).trans hrest

theorem comes_of_taken (hp : Passed (Tested m c) passed s es₁ s₁)
    (ht : Tested m c clause s₁ es₂ (.ok (some ctx)) s₂) (rest : List Clause)
    (mismatch : Option Mismatch) :
    ∃ held resume, (runClauses m c mismatch (passed ++ clause :: rest) s).Comes (es₁ ++ es₂)
      (.wait (clause.body m c ctx s₂) { s₂ with held } resume) ∧
      ∀ o s', ∃ o' s'', resume o s' = .done o' s'' := by
  obtain ⟨mismatch', hto⟩ := passed_comes hp (clause :: rest) mismatch
  obtain ⟨held, resume, hcode, hdone⟩ := clauseCode_waits m c clause ctx s₂
  refine ⟨held, resume, hto.trans ?_, hdone⟩
  rw [runClauses_cons, ← hcode]
  exact (Course.comes ht).bind _

theorem comes_of_unwound {u : Unwind} (hp : Passed (Tested m c) passed s es₁ s₁)
    (ht : Tested m c clause s₁ es₂ (.error u) s₂) (rest : List Clause)
    (mismatch : Option Mismatch) :
    (runClauses m c mismatch (passed ++ clause :: rest) s).Comes (es₁ ++ es₂)
      (.done (.error u) s₂) := by
  obtain ⟨mismatch', hto⟩ := passed_comes hp (clause :: rest) mismatch
  refine hto.trans ?_
  rw [runClauses_cons]
  exact (Course.comes ht).bind _

theorem Tested.none_framed {o : Outcome (Option Context)} (h : Tested m c clause s es o s') :
    (es.map (·.task)).filter (·.isFramed) = [] := by
  simp only [List.filter_eq_nil_iff, List.mem_map, Bool.not_eq_true]
  rintro t ⟨e, he, rfl⟩
  exact (h.tests e he).not_framed

/-- No body is done but that of a clause that takes the call after those before it did not. -/
theorem body_of_comes {y : Step Value} (h : (runClauses m c mismatch clauses s).Comes es y) :
    (asked es y).filter (·.isFramed) = [] ∨
    ∃ passed clause rest es₁ es₂ s₁ s₂ ctx, clauses = passed ++ clause :: rest ∧
      Passed (Tested m c) passed s es₁ s₁ ∧ Tested m c clause s₁ es₂ (.ok (some ctx)) s₂ ∧
      (asked es y).filter (·.isFramed) = [clause.body m c ctx s₂] := by
  induction clauses generalizing s es mismatch with
  | nil =>
    have describes : Asks (fun t ↦ t.isFramed = false) (fun _ _ ↦ True)
        (raiseNoClause m c mismatch) := .raiseNoClause m mismatch fun _ _ ↦ rfl
    left
    simpa using (describes s).asked h
  | cons clause rest ih =>
    rw [runClauses_cons] at h
    -- The first test is still going on, or it is over and decides how the work goes on.
    obtain ⟨x, hx, rfl, hne⟩ | ⟨found, es₁, es₂, s₁, rfl, ht, hrest⟩ := h.of_bind
    · left
      rw [asked, awaited_bind _ hne, ← asked]
      simp only [List.filter_eq_nil_iff, Bool.not_eq_true]
      intro t ht
      exact ((test_asks (R := State.Adds) m c clause s).asked hx t ht).not_framed
    · have tested : Tested m c clause s es₁ (.ok found) s₁ := ht
      rw [asked_append, List.filter_append, tested.none_framed, List.nil_append]
      cases found with
      | some ctx =>
        refine .inr ⟨[], clause, rest, [], es₁, s, s₁, ctx, rfl, .nil, tested, ?_⟩
        obtain ⟨held, resume, hcode, hdone⟩ := clauseCode_waits m c clause ctx s₁
        have framed := body_framed m c ctx s₁ clause
        dsimp only at hrest
        rw [hcode] at hrest
        cases hrest with
        | here => simp [asked, awaited, framed]
        | wait hrun hlast =>
          obtain ⟨o', s'', hend⟩ := hdone _ _
          rw [hend] at hlast
          obtain ⟨rfl, rfl⟩ := hlast.of_done
          simp [asked, awaited, framed]
      | none =>
        obtain hnone | ⟨passed, clause', rest', es₃, es₄, s₂, s₃, ctx, rfl, hp, ht', hbody⟩ :=
          ih hrest
        · exact .inl hnone
        · exact .inr ⟨clause :: passed, clause', rest', es₁ ++ es₃, es₄, s₂, s₃, ctx, rfl,
            .cons tested hp, ht', hbody⟩

theorem passed_after {more : List Clause} {es' : List Episode}
    (h : Passed (Tested m c) passed s es s₁)
    (h' : Passed (Tested m c) (passed ++ more) s es' s') :
    ∃ es'', Passed (Tested m c) more s₁ es'' s' := by
  induction h generalizing es' with
  | nil => exact ⟨_, h'⟩
  | cons ha _ ih =>
    cases h' with
    | cons ha' hrest =>
      obtain ⟨rfl, -, rfl⟩ := Course.unique ha ha'
      exact ih hrest

theorem not_passed (ht : Tested m c clause s es (.ok (some ctx)) s₁) :
    ¬ ∃ es' s', Passed (Tested m c) (clause :: rest) s es' s' := by
  rintro ⟨es', s', h⟩
  cases h with
  | cons ha _ =>
    obtain ⟨-, ho, -⟩ := Course.unique ht ha
    cases ho

theorem no_body_of_passed {y : Step Value} (h : Passed (Tested m c) clauses s es s₁)
    {es' : List Episode} (hy : (runClauses m c mismatch clauses s).Comes es' y) :
    (asked es' y).filter (·.isFramed) = [] := by
  obtain hnone | ⟨passed, clause, rest, es₁, es₂, s₂, s₃, ctx, rfl, hp, ht, -⟩ :=
    body_of_comes hy
  · exact hnone
  · obtain ⟨es'', hrest⟩ := passed_after hp h
    exact absurd ⟨es'', _, hrest⟩ (not_passed ht)

theorem passed_native (hn : ∀ clause ∈ passed, clause.isNative = true)
    (h : Passed (Tested m c) passed s es s₁) (mismatch : Option Mismatch) (rest : List Clause) :
    runClauses m c mismatch (passed ++ rest) s =
      runClauses m c (mismatch.or (passed.findSome? (·.mismatch? c s))) rest s ∧
      es = [] ∧ s₁ = s := by
  induction h generalizing mismatch with
  | nil => simp
  | @cons clause passed s s₁ s' es₁ es₂ ha _ ih =>
    have hrest : ∀ clause ∈ passed, clause.isNative = true :=
      fun clause h ↦ hn clause (List.mem_cons_of_mem _ h)
    cases clause with
    | user d => exact absurd (hn _ List.mem_cons_self) nofun
    | native n =>
      obtain ⟨rfl, hmissed, rfl⟩ := Course.of_done ha
      have htest : (native n).test m c s₁ = .done (.ok none) s₁ :=
        congrArg (Step.done · s₁) hmissed.symm
      obtain ⟨heq, rfl, rfl⟩ := ih hrest (mismatch.or ((native n).mismatch? c s₁))
      refine ⟨?_, rfl, rfl⟩
      rw [List.cons_append, runClauses_cons, htest, List.findSome?_cons]
      refine heq.trans ?_
      rw [Option.or_assoc]
      cases mismatch? c s' (native n) <;> rfl

end Clause

def Step.IsFault (x : Step Value) (f : Fault) (span : Span) (s : State) : Prop :=
  ∃ error s', x = .done (.error (.raise ⟨.object error, span, s.frames⟩)) s' ∧
    s'.object error = ⟨f.type.id, ⟨[("message", .str f.message)]⟩⟩

theorem Eval.fault_isFault (f : Fault) (span : Span) (s : State) :
    (fault f span s).IsFault f span s := by
  refine ⟨⟨s.objects.size⟩, _, rfl, ?_⟩
  simp [State.object]

/-- What is wrong with a call if all clauses are built in: what the first of them misses. -/
def State.misfit (s : State) (m : Method) (c : Call) : Fault :=
  match m.clauses.findSome? (·.mismatch? c s) with
  | some reason => .badCall (s.methodLabel m) reason
  | none => .noSignature (s.methodLabel m)

theorem State.misfit_type (s : State) (m : Method) (c : Call) :
    (s.misfit m c).type = .argumentTypeError := by
  unfold misfit
  split <;> rfl

theorem inspectAnyway_course {v : Value} {s s' : State} {es : List Episode} {o : Outcome String}
    (h : (inspectAnyway v s).Course es o s') :
    ∃ w text, es = [⟨.describe v, s, .ok w, s'⟩] ∧ (Task.describe v).Gives s (.ok w) s' ∧
      o = .ok text := by
  cases h with
  | wait hrun hrest =>
    obtain ⟨w, rfl⟩ := Machine.describe_ends hrun
    obtain ⟨rfl, rfl, rfl⟩ := Course.of_done hrest
    exact ⟨_, _, rfl, ⟨_, hrun⟩, rfl⟩

namespace Clause

variable {m : Method} {c : Call} {s s₁ s' : State} {es : List Episode} {v : Value}
  {mismatch : Option Mismatch}

theorem invoke_isFault (hn : m.clauses.all Clause.isNative = true)
    (h : Passed (Tested m c) m.clauses s es s₁) :
    (invoke m c s).IsFault (s.misfit m c) c.span s := by
  obtain ⟨heq, rfl, rfl⟩ := passed_native (List.all_eq_true.mp hn) h none []
  rw [List.append_nil, Option.none_or] at heq
  have hraise : raiseNoClause m c (m.clauses.findSome? (·.mismatch? c s₁)) s₁ =
      fault (s₁.misfit m c) c.span s₁ := by
    unfold raiseNoClause State.misfit
    rw [read_bind, if_pos hn]
    cases m.clauses.findSome? (·.mismatch? c s₁) <;> rfl
  rw [invoke, heq, runClauses, hraise]
  exact fault_isFault _ _ _

theorem inspectAllAnyway_course {done : List String} {vs : List Value}
    {o : Outcome (List String)} (h : (inspectAllAnyway done vs s).Course es o s') :
    es.map (·.task) = vs.map .describe ∧
      ∃ shown, o = .ok (done.reverse ++ shown) ∧ shown.length = vs.length := by
  induction vs generalizing done s es with
  | nil =>
    obtain ⟨rfl, rfl, rfl⟩ := Course.of_done h
    exact ⟨rfl, [], by simp⟩
  | cons v rest ih =>
    unfold inspectAllAnyway at h
    rw [bind_apply] at h
    obtain ⟨u, -, hu⟩ | ⟨text, es₁, es₂, s₁, rfl, hv, hrest⟩ := h.bind
    · obtain ⟨w, text, -, -, ho⟩ := inspectAnyway_course hu
      cases ho
    · obtain ⟨w, text', rfl, -, ho⟩ := inspectAnyway_course hv
      obtain ⟨htasks, shown, rfl, hlen⟩ := ih hrest
      refine ⟨by simp [htasks], text :: shown, by simp, by simp [hlen]⟩

theorem raiseNoClause_course {o : Outcome Value} (hn : m.clauses.all Clause.isNative = false)
    (h : (raiseNoClause m c mismatch s).Course es o s') :
    es.map (·.task) = c.args.map .describe ∧ ∃ shown s₁, shown.length = c.args.length ∧
      (Step.done o s').IsMissing (.noClause (s.methodLabel m) shown) c.receiver m.name c.span
        s₁ := by
  unfold raiseNoClause at h
  rw [read_bind, if_neg (by simp [hn]), bind_apply] at h
  obtain ⟨u, -, hu⟩ | ⟨shown, es₁, es₂, s₁, rfl, hv, hrest⟩ := h.bind
  · obtain ⟨s₂, hinside, -⟩ := hu.restoring
    obtain ⟨-, shown, ho, -⟩ := inspectAllAnyway_course hinside
    cases ho
  · obtain ⟨s₂, hinside, rfl⟩ := hv.restoring
    obtain ⟨htasks, shown', ho, hlen⟩ := inspectAllAnyway_course hinside
    cases ho
    obtain ⟨rfl, rfl, rfl⟩ := Course.of_done hrest
    exact ⟨by simpa using htasks, shown', _, hlen, missing_isMissing rfl⟩

end Clause

end Quill
