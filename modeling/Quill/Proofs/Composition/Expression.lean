import Quill.Proofs.Composition.Statement

namespace Quill.Eval.Composed

variable {k : Kind}

theorem afterRound_error (u : Unwind) (again : Task) (h : u.isHalt = false) :
    Composed .code (afterRound (.error u) again) := by
  cases u with
  | next v => exact .pure _
  | break_ v => exact .pure _
  | halt l => cases h
  | _ => exact .unwind rfl (absurd rfl)

theorem loopRound (condition : Expr) (body : List Expr) (ctx : Context) :
    Composed .code (loopRound condition body ctx) := by
  refine .bind (.eval condition ctx) fun v ↦ ?_
  split
  · exact .caught (.inl rfl) (.statements ctx body) (fun _ ↦ .pure _)
      (fun u hu ↦ .afterRound_error u _ hu) fun l ↦ rfl
  · exact .pure _

theorem destructure (p : Pattern) (v : Value) (ctx : Context) (span : Span) :
    Composed k (destructure p v ctx span) := by
  refine .bind (.matchPattern ctx [] p v) fun found ↦ ?_
  cases found with
  | some found => exact .assignAll ctx.scope found
  | none => exact .raiseNoMatch p v span

theorem forRound (p : Pattern) (body : List Expr) (ctx : Context) (span : Span) (list : ListId)
    (index : Nat) : Composed .code (forRound p body ctx span list index) := by
  refine .bind (.read fun _ _ ↦ rfl) fun item ↦ ?_
  cases item with
  | some item =>
    exact .bind (.holding _ (.destructure p item ctx span)) fun _ ↦
      .caught (.inl rfl) (.holding _ (.statements ctx body)) (fun _ ↦ .pure _)
        (fun u hu ↦ .afterRound_error u _ hu) fun l ↦ rfl
  | none => exact .pure _

theorem choose (ctx : Context) (subject : Value) {otherwise : Eval Value} (arms : List Arm)
    (h : Composed .code otherwise) : Composed .code (choose ctx subject otherwise arms) := by
  induction arms with
  | nil => exact h
  | cons arm rest ih =>
    refine .bind (.matchPattern ctx [] arm.pattern subject) fun found ↦ ?_
    cases found with
    | none => exact ih
    | some found =>
      refine .bind (.assignAll ctx.scope found) fun _ ↦
        .bind (.guardHolds arm.guard ctx) fun holds ↦ ?_
      split
      · exact .statements ctx arm.body
      · exact ih

theorem select (subject : Expr) (arms : List Arm) (elseBody : Option (List Expr))
    (ctx : Context) (span : Span) : Composed .code (select subject arms elseBody ctx span) := by
  refine .bind (.eval subject ctx) fun v ↦ .holding _ (.choose ctx v arms ?_)
  cases elseBody with
  | some es => exact .statements ctx es
  | none => exact .bind (.inspectAnyway v) fun _ ↦ .fault _ span

theorem blockOf (b : Option BlockArg) (ctx : Context) : Composed .code (blockOf b ctx) := by
  match b with
  | none => exact .pure _
  | some (.literal b) => exact .bind (.newLambda b ctx) fun l ↦ .pure _
  | some (.pass e) =>
    refine .bind (.eval e ctx) fun v ↦ ?_
    cases v with
    | nil => exact .pure _
    | lambda l => exact .pure _
    | _ => exact .bind (.inspectAnyway _) fun _ ↦ .fault _ _

theorem catchingBreak (block : Option LambdaId) {work : Eval Value} (h : Composed .code work) :
    Composed .code (catchingBreak block work) := by
  refine .caught (.inl rfl) h (fun v ↦ .pure v) (fun u hu ↦ ?_) fun l ↦ rfl
  cases u with
  | blockBreak id v =>
    dsimp only
    split
    · exact .pure v
    · exact .unwind rfl (absurd rfl)
  | halt l => cases hu
  | _ => exact .unwind rfl (absurd rfl)

theorem callNamed (name : String) (args : List Value) (block : Option Value) (ctx : Context)
    (span : Span) : Composed .code (callNamed name args block ctx span) := by
  refine .bind (.read fun _ _ ↦ rfl) fun v ↦ ?_
  match v with
  | some (.lambda l) => exact .callLambda l args block span
  | none => exact .send _ _ _ _ _
  | some .nil | some (.bool _) | some (.int _) | some (.float _) | some (.str _)
  | some (.symbol _) | some (.list _) | some (.type _) | some (.object _) =>
    exact .holding _ (.send _ _ _ _ _)

theorem operands (args : List Expr) (block : Option BlockArg) (ctx : Context) :
    Composed .code (operands args block ctx) :=
  .bind (.values args ctx) fun _ ↦ .bind (.holding _ (.blockOf block ctx)) fun _ ↦ .pure _

theorem call (receiver : Option Expr) (name : String) (args : List Expr)
    (block : Option BlockArg) (ctx : Context) (span : Span) :
    Composed .code (call receiver name args block ctx span) := by
  cases receiver with
  | some e =>
    exact .bind (.eval e ctx) fun v ↦ .bind (.holding _ (.operands args block ctx)) fun _ ↦
      .catchingBreak _ (.send _ _ _ _ _)
  | none =>
    exact .bind (.operands args block ctx) fun _ ↦ .catchingBreak _ (.callNamed _ _ _ _ _)

theorem superBlock (block : Option BlockArg) (frame : MethodFrame) (ctx : Context) :
    Composed .code (superBlock block frame ctx) := by
  cases block with
  | some b => exact .blockOf (some b) ctx
  | none => exact .pure _

theorem super (frame : MethodFrame) (c : Call) :
    Composed .code (Eval.perform (.super frame c)) := .perform rfl

theorem callSuper (args : Option (List Expr)) (block : Option BlockArg) (ctx : Context)
    (span : Span) : Composed .code (callSuper args block ctx span) := by
  unfold Eval.callSuper
  cases ctx.method with
  | none => exact .fault _ span
  | some frame =>
    dsimp only
    have send (vs : List Value) :
        Composed .code (Eval.holding vs (Eval.superBlock block frame ctx) >>= fun p ↦
          Eval.catchingBreak p.2 (Eval.perform (.super frame ⟨ctx.self, vs, p.1, span⟩))) :=
      .bind (.holding vs (.superBlock block frame ctx)) fun _ ↦ .catchingBreak _ (.super frame _)
    cases args with
    | some es => exact .bind (.values es ctx) send
    | none => exact .bind (.pure frame.args) send

theorem yield (args : List Expr) (ctx : Context) (span : Span) :
    Composed .code (yield args ctx span) := by
  unfold Eval.yield
  cases ctx.method.bind (·.block) with
  | none => exact .fault _ span
  | some block => exact .bind (.values args ctx) fun _ ↦ .callValue block _ none span

theorem binary (op : Operator) (left right : Expr) (ctx : Context) (span : Span) :
    Composed .code (binary op left right ctx span) :=
  .bind (.eval left ctx) fun _ ↦ .bind (.holding _ (.eval right ctx)) fun _ ↦
    .bind (.send _ _ _ _ _) fun _ ↦ .pure _

theorem unary (op : PrefixOp) (operand : Expr) (ctx : Context) (span : Span) :
    Composed .code (unary op operand ctx span) := by
  refine .bind (.eval operand ctx) fun v ↦ ?_
  cases op with
  | not => exact .pure _
  | neg => exact .send _ _ _ _ _

theorem logical (op : Connective) (left right : Expr) (ctx : Context) :
    Composed .code (logical op left right ctx) := by
  refine .bind (.eval left ctx) fun v ↦ ?_
  split
  · exact .pure v
  · exact .holding _ (.eval right ctx)

theorem test (value : Expr) (p : Pattern) (ctx : Context) :
    Composed .code (test value p ctx) := by
  refine .bind (.eval value ctx) fun v ↦
    .bind (.holding _ (.matchPattern ctx [] p v)) fun found ↦ ?_
  cases found with
  | some found => exact .bind (.assignAll ctx.scope found) fun _ ↦ .pure _
  | none => exact .pure _

theorem cond (condition : Expr) (thenBody : List Expr) (elseBody : Option (List Expr))
    (ctx : Context) : Composed .code (cond condition thenBody elseBody ctx) := by
  refine .bind (.eval condition ctx) fun v ↦ ?_
  split
  · exact .statements ctx thenBody
  · cases elseBody with
    | some es => exact .statements ctx es
    | none => exact .pure _

theorem raising (value : Option Expr) (ctx : Context) (span : Span) :
    Composed .code (raising value ctx span) := by
  cases value with
  | some e => exact .bind (.eval e ctx) fun v ↦ .raise v span
  | none =>
    refine .bind (.read fun _ _ ↦ rfl) fun rescuing ↦ ?_
    cases rescuing.head? with
    | some r => exact .unwind rfl (absurd rfl)
    | none => exact .fault _ span

theorem jump (j : Jump) (value : Option Expr) (ctx : Context) (span : Span) :
    Composed .code (jump j value ctx span) := by
  cases j with
  | raise => exact .raising value ctx span
  | _ => exact .bind (.optional value ctx) fun _ ↦ .unwind rfl (absurd rfl)

theorem named (name : String) (ctx : Context) (span : Span) :
    Composed k (named name ctx span) := by
  refine .bind (.read fun _ _ ↦ rfl) fun v ↦ ?_
  cases v with
  | some v => exact .pure v
  | none => exact .send _ _ _ _ _

theorem loopItems (p : Pattern) (items : Expr) (body : List Expr) (ctx : Context)
    (span : Span) : Composed .code (loopItems p items body ctx span) := by
  refine .bind (.eval items ctx) fun v ↦ ?_
  cases v with
  | list l => exact .holding _ (.perform rfl)
  | _ => exact .bind (.inspectAnyway _) fun _ ↦ .fault _ _

theorem expression (e : Expr) (ctx : Context) : Composed .code (expression e ctx) := by
  unfold Eval.expression
  cases e.kind with
  | literal v => exact .pure _
  | list items => exact .bind (.values items ctx) fun vs ↦ .newList vs
  | self => exact .pure _
  | name name => exact .named name ctx e.span
  | constant name => exact .constant ctx name e.span
  | attr name => exact .read (State.attr_limitFree ctx.self name)
  | call receiver method args block => exact .call receiver method.name args block ctx e.span
  | super args block => exact .callSuper args block ctx e.span
  | yield args => exact .yield args ctx e.span
  | block b => exact .bind (.newLambda b ctx) fun l ↦ .pure _
  | binary op left right => exact .binary op left right ctx e.span
  | unary op operand => exact .unary op operand ctx e.span
  | logical op left right => exact .logical op left right ctx
  | fits value p => exact .test value p ctx
  | assign t value => exact .assignment t value ctx e.span
  | compound op t value => exact .compoundAssignment op t value ctx e.span
  | destructure p value =>
    exact .bind (.eval value ctx) fun v ↦
      .bind (.holding _ (.destructure p v ctx e.span)) fun _ ↦ .pure v
  | cond span condition thenBody elseBody => exact .cond condition thenBody elseBody ctx
  | loop span condition body => exact .perform rfl
  | forEach span p items body => exact .loopItems p items body ctx span
  | select span subject arms elseBody => exact .select subject arms elseBody ctx span
  | protect b => exact .body b ctx
  | jump j value => exact .jump j value ctx e.span
  | method d => exact .defineMethod d ctx
  | type d => exact .defineType d ctx
  | include_ m => exact .includeInto m ctx

end Quill.Eval.Composed
