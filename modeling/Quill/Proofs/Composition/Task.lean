import Quill.Proofs.Composition.Builtin
import Quill.Proofs.Composition.Expression
import Quill.Proofs.Composition.List
import Quill.Proofs.Reach

/-!
# What the work on tasks is composed of

Main statement: `Task.composed`. Only what counts steps, enters and leaves calls and `rescue`
clauses, or describes values for error messages is more than composed.
-/

namespace Quill

namespace Routine

theorem run_faulting {r : Routine} (h : r.isHost = false) (c : Call) :
    Eval.Faulting (Fault.FoundUnless (r.strict c)) (r.run c) := by
  cases r with
  | object r => exact r.run_faulting c
  | error r => exact r.run_faulting c
  | lambda r => exact r.run_faulting c
  | number r => exact r.run_faulting c
  | text r => exact r.run_faulting c
  | list r => exact r.run_faulting c
  | type r => exact r.run_faulting c
  | host r => cases h

theorem run_simple (r : Routine) (c : Call) : Eval.Simple (r.run c) := by
  cases r with
  | host r => exact r.run_simple c
  | _ => exact .of_faulting (run_faulting rfl c)

end Routine

namespace Eval.Composed

variable {k : Kind}

theorem routine (r : Routine) (c : Call) : Composed k (r.run c) := (r.run_simple c).composed k

theorem defineBlock (p : Params) (block : Option Value) (scope : ScopeId) :
    Composed k (defineBlock p block scope) := by
  unfold Eval.defineBlock
  cases p.block with
  | some name => exact .define scope name.name _
  | none => exact .pure ()

theorem admits (guard : Option Expr) (ctx : Context) :
    Composed .message (admits guard ctx) := by
  cases guard with
  | some e => exact .bind (.perform rfl) fun _ ↦ .pure _
  | none => exact .pure true

theorem bindParams (d : MethodDef) (c : Call) (ctx : Context) :
    Composed .message (bindParams d c ctx) := by
  refine .bind (.matchSequence ctx d.params.items c.args) fun found ↦ ?_
  cases found with
  | some found =>
    exact .bind (.defineAll ctx.scope found) fun _ ↦
      .bind (.defineBlock d.params c.block ctx.scope) fun _ ↦ .admits d.guard ctx
  | none => exact .pure false

theorem bindClause (d : MethodDef) (m : Method) (c : Call) :
    Composed .message (bindClause d m c) := by
  unfold Eval.bindClause
  split
  · refine .bind (.newScope _) fun scope ↦
      .bind (.within _ [] (.bindParams d c _)) fun taken ↦ ?_
    split <;> exact .pure _
  · exact .pure none

theorem runClause (d : MethodDef) (ctx : Context) (label : String) (span : Span) :
    Composed k (runClause d ctx label span) := by
  refine .caught (.inr fun s ↦ ⟨nofun, fun _ _ ↦ trivial⟩) (.within ctx [] (.perform rfl))
    (fun v ↦ .pure v) (fun u hu ↦ ?_) fun l ↦ rfl
  cases u with
  | return_ v => exact .pure v
  | break_ v => exact .fault _ span
  | next v => exact .fault _ span
  | halt l => cases hu
  | _ => exact .unwind rfl fun _ ↦ rfl

theorem inspectAllAnyway (done : List String) (vs : List Value) :
    Composed k (inspectAllAnyway done vs) := by
  induction vs generalizing done with
  | nil => exact .pure _
  | cons v rest ih => exact .bind (.inspectAnyway v) fun _ ↦ ih _

theorem raiseNoClause (m : Method) (c : Call) (mismatch : Option Mismatch) :
    Composed k (raiseNoClause m c mismatch) := by
  refine .bind (.read fun _ _ ↦ rfl) fun label ↦ ?_
  split
  · cases mismatch with
    | some reason => exact .fault _ c.span
    | none => exact .fault _ c.span
  · exact .bind (.holding _ (.inspectAllAnyway [] c.args)) fun _ ↦ .missing _ _ _ c.span

theorem runNative (n : NativeMethod) (c : Call) : Composed .message (runNative n c) :=
  .perform rfl

theorem runClauses (m : Method) (c : Call) (mismatch : Option Mismatch)
    (clauses : List Clause) : Composed .message (runClauses m c mismatch clauses) := by
  induction clauses generalizing mismatch with
  | nil => exact .raiseNoClause m c mismatch
  | cons clause rest ih =>
    cases clause with
    | native n =>
      refine .bind (.read fun _ _ ↦ rfl) fun missed ↦ ?_
      cases missed with
      | none => exact .holding _ (.runNative n c)
      | some reason => exact ih _
    | user d =>
      refine .bind (.bindClause d m c) fun found ↦ ?_
      cases found with
      | some ctx => exact .bind (.read fun _ _ ↦ rfl) fun label ↦ .runClause d ctx label c.span
      | none => exact ih mismatch

theorem invoke (m : Method) (c : Call) : Composed .message (invoke m c) :=
  .runClauses m c none m.clauses

end Eval.Composed

namespace State

theorem instanceMethod?_limitFree (v : Value) (name : String) :
    LimitFree (·.instanceMethod? v name) := by
  intro s l
  cases v <;> rfl

theorem answer_limitFree (v : Value) (name : String) (bare : Bool) :
    LimitFree (·.answer v name bare) := by
  intro s l
  have h := instanceMethod?_limitFree v name s l
  simp only [answer] at h ⊢
  rw [h]
  rfl

theorem superMethod?_limitFree (frame : MethodFrame) (v : Value) :
    LimitFree (·.superMethod? frame v) := by
  intro s l
  cases v <;> rfl

theorem describe_limitFree (v : Value) : LimitFree (·.describe v) := by
  intro s l
  cases v <;> rfl

theorem blockArgs_limitFree (p : Params) (args : List Value) :
    LimitFree (·.blockArgs p args) := fun _ _ ↦ rfl

end State

namespace Eval.Composed

variable {k : Kind}

theorem deliver (name : String) (c : Call) : Composed .message (deliver name c) := by
  refine .bind (.read (State.answer_limitFree _ name _)) fun found ↦ ?_
  cases found with
  | method m => exact .invoke m c
  | constant v => exact .pure v
  | nothing => exact .bind (.read (State.describe_limitFree c.receiver)) fun _ ↦ .missing _ _ _ _

theorem deliverSuper (frame : MethodFrame) (c : Call) :
    Composed .message (deliverSuper frame c) := by
  refine .bind (.read (State.superMethod?_limitFree frame c.receiver)) fun found ↦ ?_
  cases found with
  | some m => exact .invoke m c
  | none => exact .missing _ _ _ _

theorem runBlock (id : LambdaId) (l : Lambda) (args : List Value) (block : Option Value)
    (span : Span) : Composed k (runBlock id l args block span) := by
  refine .bind (.inNewScope l.home) fun ctx ↦
    .bind (.read (State.blockArgs_limitFree l.block.params args)) fun args ↦
      .within ctx _ (.bind (.matchSequence ctx l.block.params.items args) fun found ↦ ?_)
  cases found with
  | none =>
    exact .bind (.newList args) fun v ↦ .bind (.inspectAnyway v) fun _ ↦ .fault _ span
  | some found =>
    refine .bind (.defineAll ctx.scope found) fun _ ↦
      .bind (.defineBlock l.block.params block ctx.scope) fun _ ↦
        .caught (.inr fun s ↦ ⟨nofun, fun _ _ ↦ trivial⟩) (.perform rfl)
          (fun v ↦ .pure v) (fun u hu ↦ ?_) fun l ↦ rfl
    cases u with
    | next v => exact .pure v
    | return_ v => exact .pure v
    | break_ v => exact .unwind rfl fun _ ↦ rfl
    | halt l => cases hu
    | _ => exact .unwind rfl fun _ ↦ rfl

theorem lambdaCall (id : LambdaId) (args : List Value) (block : Option Value) (span : Span) :
    Composed k (Eval.callLambda id args block span) := by
  refine .bind (.read fun _ _ ↦ rfl) fun l ↦ ?_
  cases l with
  | some l => exact .runBlock id l args block span
  | none => exact .pure _

theorem visitResult (v : Visit) (list : ListId) : Composed k (v.result list) := by
  cases v with
  | map results => exact .newList _
  | filter keep kept => exact .newList _
  | _ => exact .pure _

theorem visitRound (v : Visit) (list : ListId) (block : Option Value) (span : Span)
    (index : Nat) : Composed k (visitRound v list block span index) := by
  refine .bind (.read fun _ _ ↦ rfl) fun item ↦ ?_
  cases item with
  | none => exact .bind (.visitResult v list) fun _ ↦ .pure _
  | some item =>
    cases block with
    | some b =>
      refine .bind (.holding _ (.callValue b _ none span)) fun answer ↦ ?_
      dsimp only
      cases v.step item answer <;> exact .pure _
    | none =>
      refine .bind (.pure item) fun answer ↦ ?_
      dsimp only
      cases v.step item answer <;> exact .pure _

theorem timesRound (left index : Nat) (block : Value) (span : Span) :
    Composed k (timesRound left index block span) := by
  cases left with
  | zero => exact .pure _
  | succ left => exact .bind (.callValue block _ none span) fun _ ↦ .pure _

theorem answering {work : Eval Value} (h : Composed k work) : Composed k (answering work) :=
  .bind h fun _ ↦ .pure _

theorem rawText (v : Value) : Composed k (rawText v) := by
  refine .bind (.read (State.rawText?_limitFree v)) fun text ↦ ?_
  cases text <;> exact .pure _

end Eval.Composed

open Eval

theorem Task.composed (t : Task) (h : t.isPlain = true) : Composed t.kind t.work := by
  cases t with
  | statements es ctx => exact .answering (.statements ctx es)
  | body b ctx => exact .answering (.body b ctx)
  | guard e ctx => exact .answering (.eval e ctx)
  | send name c => exact .answering (.deliver name c)
  | super frame c => exact .answering (.deliverSuper frame c)
  | callLambda l args block span => exact .answering (.lambdaCall l args block span)
  | native n c => exact .answering (.routine n.routine c)
  | loop condition es ctx => exact .loopRound condition es ctx
  | forEach p es ctx span list index => exact .forRound p es ctx span list index
  | visit v list block span index => exact .visitRound v list block span index
  | times left index block span => exact .timesRound left index block span
  | rawText v => exact .rawText v
  | eval | framed | handling | describe => cases h

namespace Eval

theorem tick_cases (s : State) :
    tick s = .done (.ok ()) { s with steps := s.steps + 1 } ∨
      ∃ l, s.config.stepLimit = some l ∧ l < s.steps + 1 ∧
        tick s = .done (.error (.halt (.steps l))) { s with steps := s.steps + 1 } := by
  unfold tick
  dsimp only
  split
  · rename_i l hl
    split
    · rename_i hs
      exact .inr ⟨l, hl, hs, rfl⟩
    · exact .inl rfl
  · exact .inl rfl

end Eval

namespace Task

theorem work_eval (e : Expr) (ctx : Context) (s : State) :
    (eval e ctx).work s = (tick s).bind fun _ s ↦ Eval.answering (expression e ctx) s := by
  have h : (eval e ctx).work s = ((tick s).bind fun _ s ↦ expression e ctx s).bind fun v s ↦
      .done (.ok (.value v)) s :=
    (Step.andThen_eq_bind _ _).trans (congrArg (Step.bind · _) (Step.andThen_eq_bind _ _))
  rw [h]
  unfold tick
  dsimp only
  split
  · split
    · rfl
    · exact (Step.andThen_eq_bind _ _).symm
  · exact (Step.andThen_eq_bind _ _).symm

theorem work_framed (frame : CallFrame) (t : Task) (s : State) :
    (framed frame t).work s = if s.config.maxCallDepth ≤ s.frames.size then
      .done (.error (.halt (.depth s.config.maxCallDepth))) s
    else .wait t { s with frames := s.frames.push frame } fun o s ↦
      .done o.reply { s with frames := s.frames.pop } := by
  have h : (framed frame t).work s = ((pushFrame frame s).bind fun _ s ↦
      .wait t s fun o s ↦ .done o { s with frames := s.frames.pop }).bind fun v s ↦
      .done (.ok (.value v)) s :=
    (Step.andThen_eq_bind _ _).trans (congrArg (Step.bind · _) (Step.andThen_eq_bind _ _))
  rw [h]
  unfold pushFrame
  split
  · rfl
  · refine congrArg (Step.wait t _) ?_
    funext o s
    cases o <;> rfl

theorem work_handling (r : Raised) (t : Task) (s : State) :
    (handling r t).work s = .wait t { s with rescuing := r :: s.rescuing } fun o s ↦
      .done o.reply { s with rescuing := s.rescuing.tail } := by
  refine congrArg (Step.wait t _) ?_
  funext o s
  cases o <;> rfl

/-- The end of finding a text of `v`. -/
def textOrRaw (v : Value) (o : Outcome String) (s : State) : Step Reply :=
  match o with
  | .ok text => .done (.ok (.value (.str text))) s
  | .error _ => .done (.ok (.task (.rawText v))) s

theorem work_describe (v : Value) (s : State) :
    (describe v).work s = (inspect v s).attempt.bind (textOrRaw v) := by
  refine (Step.andThen_eq_bind _ _).trans (congrArg _ ?_)
  funext o s
  cases o <;> rfl

theorem work_rawText (v : Value) (s : State) :
    (rawText v).work s = .done (.ok (match s.rawText? v with
      | some text => .value (.str text)
      | none => .task (.rawText v))) s := by
  change (match s.rawText? v with
    | some text => pure (.value (.str text))
    | none => pure (.task (.rawText v)) : Eval Reply) s = _
  cases s.rawText? v <;> rfl

end Task

end Quill
