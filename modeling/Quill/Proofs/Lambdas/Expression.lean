import Quill.Proofs.Lambdas.Builtin

/-!
# Which expressions make a lambda

An expression makes a lambda only if a block is written in it: as its value, or for the call that it
is. All other expressions, and all that calls do, keep to the lambdas there are.
-/

namespace Quill

open Tracked

def BlockArg.literal? : BlockArg → Option Block
  | literal b => some b
  | pass _ => none

namespace Expr

/-- The block that is written with a call, if the expression is one. -/
def callBlock? (e : Expr) : Option Block :=
  match e.kind with
  | .call _ _ _ block | .super _ block => block.bind BlockArg.literal?
  | _ => none

def block? (e : Expr) : Option Block :=
  match e.kind with
  | .block b => some b
  | _ => e.callBlock?

end Expr

namespace Eval.KeepsTo

variable {n : Nat} {v : Value} {ctx : Context} {vs args : List Value} {block : Option Value}
  {name : String} {span : Span}

theorem afterRound {o : Outcome Value} {again : Task} (ho : Known n o) (ht : Known n again) :
    KeepsTo n (afterRound o again) := by
  rcases o with (r | v | v | ⟨l, v⟩ | v | l) | v
  case error.next | ok => exact .pure ht
  case error.break_ => exact .pure ho
  all_goals exact .unwind ho

theorem loopRound {condition : Expr} {body : List Expr} (hctx : Known n ctx) :
    KeepsTo n (loopRound condition body ctx) := by
  refine .bind (.eval hctx) fun v _ ↦ ?_
  split
  · exact .bind (.attempt (.statements hctx body)) fun o ho ↦ .afterRound ho hctx
  · exact .pure trivial

theorem destructure {p : Pattern} (hv : Known n v) : KeepsTo n (destructure p v ctx span) := by
  refine .bind (.matchPattern .nil p hv) fun found hfound ↦ ?_
  cases found with
  | some found => exact .assignAll hfound
  | none => exact .raiseNoMatch hv

theorem forRound {p : Pattern} {body : List Expr} {list : ListId} {index : Nat}
    (hctx : Known n ctx) : KeepsTo n (forRound p body ctx span list index) := by
  refine .bind (.read fun _ hs ↦ (hs.items list).at? index) fun item hitem ↦ ?_
  cases item with
  | some item =>
    exact .bind (.holding (.single hitem) (.destructure hitem)) fun _ _ ↦
      .bind (.attempt (.holding (.single hitem) (.statements hctx body))) fun o ho ↦
        .afterRound ho hctx
  | none => exact .pure trivial

theorem choose {otherwise : Eval Value} {arms : List Arm} (hctx : Known n ctx) (hv : Known n v)
    (h : KeepsTo n otherwise) : KeepsTo n (choose ctx v otherwise arms) := by
  induction arms with
  | nil => exact h
  | cons arm rest ih =>
    refine .bind (.matchPattern .nil arm.pattern hv) fun found hfound ↦ ?_
    cases found with
    | none => exact ih
    | some found =>
      refine .bind (.assignAll hfound) fun _ _ ↦ .bind (.guardHolds hctx) fun holds _ ↦ ?_
      split
      · exact .statements hctx arm.body
      · exact ih

theorem select {subject : Expr} {arms : List Arm} {elseBody : Option (List Expr)}
    (hctx : Known n ctx) : KeepsTo n (select subject arms elseBody ctx span) := by
  refine .bind (.eval hctx) fun v hv ↦ .holding (.single hv) (.choose hctx hv ?_)
  cases elseBody with
  | some es => exact .statements hctx es
  | none => exact .bind (.inspectAnyway hv) fun _ _ ↦ .fault _ span

theorem blockOf {b : Option BlockArg} (hb : b.bind BlockArg.literal? = none)
    (hctx : Known n ctx) : KeepsTo n (blockOf b ctx) := by
  match b with
  | none => exact .pure ⟨trivial, trivial⟩
  | some (.literal b) => cases hb
  | some (.pass e) =>
    refine .bind (.eval hctx) fun v hv ↦ ?_
    cases v with
    | nil => exact .pure ⟨trivial, trivial⟩
    | lambda l => exact .pure ⟨hv, trivial⟩
    | _ => exact .bind (.inspectAnyway hv) fun _ _ ↦ .fault _ _

theorem catchingBreak {l : Option LambdaId} {work : Eval Value} (h : KeepsTo n work) :
    KeepsTo n (catchingBreak l work) := by
  refine .bind (.attempt h) fun o ho ↦ ?_
  rcases o with (r | v | v | ⟨id, v⟩ | v | l) | v
  case error.blockBreak =>
    dsimp only
    split
    · exact .pure ho.2
    · exact .unwind ho
  case ok => exact .pure ho
  all_goals exact .unwind ho

theorem callNamed (hctx : Known n ctx) (hargs : Known n args) (hblock : Known n block) :
    KeepsTo n (callNamed name args block ctx span) := by
  refine .bind (.read fun _ hs ↦ Known.valueOf? hs.scopes ctx.scope name) fun v hv ↦ ?_
  match v with
  | some (.lambda l) => exact .callLambda hv hargs hblock
  | none => exact .send hctx.1 hargs hblock
  | some .nil | some (.bool _) | some (.int _) | some (.float _) | some (.str _)
  | some (.symbol _) | some (.list _) | some (.type _) | some (.object _) =>
    exact .holding (.single hv) (.send hctx.1 hargs hblock)

theorem operands {args : List Expr} {b : Option BlockArg}
    (hb : b.bind BlockArg.literal? = none) (hctx : Known n ctx) :
    KeepsTo n (operands args b ctx) :=
  .bind (.values hctx) fun _ hargs ↦
    .bind (.holding hargs (.blockOf hb hctx)) fun _ hblock ↦ .pure ⟨hargs, hblock⟩

theorem call {receiver : Option Expr} {args : List Expr} {b : Option BlockArg}
    (hb : b.bind BlockArg.literal? = none) (hctx : Known n ctx) :
    KeepsTo n (call receiver name args b ctx span) := by
  cases receiver with
  | some e =>
    exact .bind (.eval hctx) fun v hv ↦
      .bind (.holding (.single hv) (.operands hb hctx)) fun _ h ↦
        .catchingBreak (.send hv h.1 h.2.1)
  | none =>
    exact .bind (.operands hb hctx) fun _ h ↦ .catchingBreak (.callNamed hctx h.1 h.2.1)

theorem superBlock {b : Option BlockArg} {frame : MethodFrame}
    (hb : b.bind BlockArg.literal? = none) (hctx : Known n ctx) (hframe : Known n frame) :
    KeepsTo n (superBlock b frame ctx) := by
  cases b with
  | some b => exact .blockOf hb hctx
  | none => exact .pure ⟨hframe.2, trivial⟩

theorem callSuper {args : Option (List Expr)} {b : Option BlockArg}
    (hb : b.bind BlockArg.literal? = none) (hctx : Known n ctx) :
    KeepsTo n (callSuper args b ctx span) := by
  unfold Eval.callSuper
  cases hmethod : ctx.method with
  | none => exact .fault _ span
  | some frame =>
    have hframe : Known n frame := hctx.2.of_some hmethod
    have send (vs : List Value) (hvs : Known n vs) :
        KeepsTo n (Eval.holding vs (Eval.superBlock b frame ctx) >>= fun p ↦
          Eval.catchingBreak p.2 (Eval.perform (.super frame ⟨ctx.self, vs, p.1, span⟩))) :=
      .bind (.holding hvs (.superBlock hb hctx hframe)) fun _ h ↦
        .catchingBreak (.perform ⟨hframe, hctx.1, hvs, h.1⟩)
    dsimp only
    cases args with
    | some es => exact .bind (.values hctx) send
    | none => exact .bind (.pure hframe.1) send

theorem yield {args : List Expr} (hctx : Known n ctx) : KeepsTo n (yield args ctx span) := by
  unfold Eval.yield
  cases hblock : ctx.method.bind (·.block) with
  | none => exact .fault _ span
  | some block =>
    have known : Known n (ctx.method.bind (·.block)) := hctx.2.bind fun _ hf ↦ hf.2
    exact .bind (.values hctx) fun _ hargs ↦
      .callValue (known.of_some hblock) hargs trivial

theorem binary {op : Operator} {left right : Expr} (hctx : Known n ctx) :
    KeepsTo n (binary op left right ctx span) := by
  refine .bind (.eval hctx) fun _ hl ↦ .bind (.holding (.single hl) (.eval hctx)) fun _ hr ↦
    .bind (.send hl (.single hr) trivial) fun v hv ↦ ?_
  split
  · exact .pure trivial
  · exact .pure hv

theorem unary {op : PrefixOp} {operand : Expr} (hctx : Known n ctx) :
    KeepsTo n (unary op operand ctx span) := by
  refine .bind (.eval hctx) fun v hv ↦ ?_
  cases op with
  | not => exact .pure trivial
  | neg => exact .send hv .nil trivial

theorem logical {op : Connective} {left right : Expr} (hctx : Known n ctx) :
    KeepsTo n (logical op left right ctx) := by
  refine .bind (.eval hctx) fun v hv ↦ ?_
  split
  · exact .pure hv
  · exact .holding (.single hv) (.eval hctx)

theorem test {value : Expr} {p : Pattern} (hctx : Known n ctx) : KeepsTo n (test value p ctx) := by
  refine .bind (.eval hctx) fun v hv ↦
    .bind (.holding (.single hv) (.matchPattern .nil p hv)) fun found hfound ↦ ?_
  cases found with
  | some found => exact .bind (.assignAll hfound) fun _ _ ↦ .pure trivial
  | none => exact .pure trivial

theorem cond {condition : Expr} {thenBody : List Expr} {elseBody : Option (List Expr)}
    (hctx : Known n ctx) : KeepsTo n (cond condition thenBody elseBody ctx) := by
  refine .bind (.eval hctx) fun v _ ↦ ?_
  split
  · exact .statements hctx thenBody
  · cases elseBody with
    | some es => exact .statements hctx es
    | none => exact .pure trivial

theorem raising {value : Option Expr} (hctx : Known n ctx) :
    KeepsTo n (raising value ctx span) := by
  cases value with
  | some e => exact .bind (.eval hctx) fun v hv ↦ .raise hv
  | none =>
    refine .bind (.read fun _ hs ↦ hs.rescuing) fun rescuing hr ↦ ?_
    cases rescuing with
    | cons r rest => exact .unwind hr.head
    | nil => exact .fault _ span

theorem jump {j : Jump} {value : Option Expr} (hctx : Known n ctx) :
    KeepsTo n (jump j value ctx span) := by
  cases j with
  | raise => exact .raising hctx
  | _ => exact .bind (.optional hctx) fun v hv ↦ .unwind hv

theorem named (hctx : Known n ctx) : KeepsTo n (named name ctx span) := by
  refine .bind (.read fun _ hs ↦ Known.valueOf? hs.scopes ctx.scope name) fun v hv ↦ ?_
  cases v with
  | some v => exact .pure hv
  | none => exact .send hctx.1 .nil trivial

theorem loopItems {p : Pattern} {items : Expr} {body : List Expr} (hctx : Known n ctx) :
    KeepsTo n (loopItems p items body ctx span) := by
  refine .bind (.eval hctx) fun v hv ↦ ?_
  cases v with
  | list l => exact .holding (.single hv) (.perform hctx)
  | _ => exact .bind (.inspectAnyway hv) fun _ _ ↦ .fault _ _

theorem expression {e : Expr} (he : e.block? = none) (hctx : Known n ctx) :
    KeepsTo n (expression e ctx) := by
  unfold Eval.expression
  unfold Expr.block? Expr.callBlock? at he
  cases hkind : e.kind with
  | literal v =>
    refine .pure ?_
    cases v <;> trivial
  | list items => exact .bind (.values hctx) fun _ hvs ↦ .newList hvs
  | self => exact .pure hctx.1
  | name name => exact .named hctx
  | constant name => exact .constant ctx name e.span
  | attr name => exact .read fun _ hs ↦ hs.attr ctx.self name
  | call receiver method args b =>
    rw [hkind] at he
    exact .call he hctx
  | super args b =>
    rw [hkind] at he
    exact .callSuper he hctx
  | yield args => exact .yield hctx
  | block b =>
    rw [hkind] at he
    cases he
  | binary op left right => exact .binary hctx
  | unary op operand => exact .unary hctx
  | logical op left right => exact .logical hctx
  | fits value p => exact .test hctx
  | assign t value => exact .assignment hctx
  | compound op t value => exact .compoundAssignment hctx
  | destructure p value =>
    exact .bind (.eval hctx) fun v hv ↦
      .bind (.holding (.single hv) (.destructure hv)) fun _ _ ↦ .pure hv
  | cond span condition thenBody elseBody => exact .cond hctx
  | loop span condition body => exact .perform hctx
  | forEach span p items body => exact .loopItems hctx
  | select span subject arms elseBody => exact .select hctx
  | protect b => exact .body hctx
  | jump j value => exact .jump hctx
  | method d => exact .defineMethod d ctx
  | type d => exact .defineType hctx
  | include_ m => exact .includeInto hctx

theorem defineBlock {p : Params} {scope : ScopeId} (hblock : Known n block) :
    KeepsTo n (defineBlock p block scope) := by
  unfold Eval.defineBlock
  cases p.block with
  | some name => exact .define (hblock.getD trivial)
  | none => exact .pure trivial

theorem admits {guard : Option Expr} (hctx : Known n ctx) : KeepsTo n (admits guard ctx) := by
  cases guard with
  | some e => exact .bind (.perform hctx) fun _ _ ↦ .pure trivial
  | none => exact .pure trivial

theorem bindParams {d : MethodDef} {c : Call} (hctx : Known n ctx) (hc : Known n c) :
    KeepsTo n (bindParams d c ctx) := by
  refine .bind (.matchSequence hc.2.1) fun found hfound ↦ ?_
  cases found with
  | some found =>
    exact .bind (.defineAll hfound) fun _ _ ↦ .bind (.defineBlock hc.2.2) fun _ _ ↦ .admits hctx
  | none => exact .pure trivial

theorem bindClause {d : MethodDef} {m : Method} {c : Call} (hc : Known n c) :
    KeepsTo n (bindClause d m c) := by
  unfold Eval.bindClause
  split
  · have known (scope : ScopeId) : Known n
        (⟨scope, c.receiver, m.owner, some (m.frame c.args c.block)⟩ : Context) := hc
    refine .bind (.newScope _) fun scope _ ↦
      .bind (.within (known scope) .nil (.bindParams (known scope) hc)) fun taken _ ↦ ?_
    split
    · exact .pure (known scope)
    · exact .pure trivial
  · exact .pure trivial

theorem runClause {d : MethodDef} {label : String} (hctx : Known n ctx) :
    KeepsTo n (runClause d ctx label span) := by
  refine .bind (.attempt (.within hctx .nil (.perform hctx))) fun o ho ↦ ?_
  rcases o with (r | v | v | ⟨id, v⟩ | v | l) | v
  case error.return_ | ok => exact .pure ho
  case error.break_ | error.next => exact .fault _ span
  all_goals exact .unwind ho

theorem inspectAllAnyway (done : List String) (hvs : Known n vs) :
    KeepsTo n (inspectAllAnyway done vs) := by
  induction vs generalizing done with
  | nil => exact .pure fun _ _ ↦ trivial
  | cons v rest ih => exact .bind (.inspectAnyway hvs.head) fun _ _ ↦ ih _ hvs.tail

theorem raiseNoClause {m : Method} {c : Call} {mismatch : Option Mismatch} (hc : Known n c) :
    KeepsTo n (raiseNoClause m c mismatch) := by
  refine .bind (.read fun _ _ ↦ trivial) fun label _ ↦ ?_
  split
  · cases mismatch with
    | some reason => exact .fault _ c.span
    | none => exact .fault _ c.span
  · exact .bind (.holding (.cons trivial hc.values) (.inspectAllAnyway [] hc.2.1)) fun _ _ ↦
      .missing hc.1

theorem runClauses {m : Method} {c : Call} {mismatch : Option Mismatch} {clauses : List Clause}
    (hc : Known n c) : KeepsTo n (runClauses m c mismatch clauses) := by
  induction clauses generalizing mismatch with
  | nil => exact .raiseNoClause hc
  | cons clause rest ih =>
    cases clause with
    | native nm =>
      refine .bind (.read fun s _ ↦ ?_) fun missed _ ↦ ?_
      · cases nm.signature.mismatch s.types.sort c.receiver c.args c.block.isSome <;> trivial
      · cases missed with
        | none => exact .holding (.single trivial) (.perform hc)
        | some reason => exact ih
    | user d =>
      refine .bind (.bindClause hc) fun found hfound ↦ ?_
      cases found with
      | some ctx => exact .bind (.read fun _ _ ↦ trivial) fun label _ ↦ .runClause hfound
      | none => exact ih

theorem deliver {c : Call} (hc : Known n c) : KeepsTo n (deliver name c) := by
  refine .bind (.read fun _ hs ↦ hs.answer c.receiver name _) fun found hfound ↦ ?_
  cases found with
  | method m => exact .runClauses hc
  | constant v => exact .pure hfound
  | nothing => exact .bind (.read fun _ _ ↦ trivial) fun _ _ ↦ .missing hc.1

theorem deliverSuper {frame : MethodFrame} {c : Call} (hc : Known n c) :
    KeepsTo n (deliverSuper frame c) := by
  refine .bind (.read fun s _ ↦ ?_) fun found _ ↦ ?_
  · cases s.superMethod? frame c.receiver <;> trivial
  · cases found with
    | some m => exact .runClauses hc
    | none => exact .missing hc.1

theorem runBlock {id : LambdaId} {l : Lambda} (hid : Known n id) (hl : Known n l)
    (hargs : Known n args) (hblock : Known n block) :
    KeepsTo n (runBlock id l args block span) := by
  refine .bind (.inNewScope hl) fun ctx hctx ↦
    .bind (.read fun _ hs ↦ hs.blockArgs l.block.params hargs) fun args hargs ↦
      .within hctx (hblock.toList.append hargs)
        (.bind (.matchSequence hargs) fun found hfound ↦ ?_)
  cases found with
  | none =>
    exact .bind (.newList hargs) fun v hv ↦ .bind (.inspectAnyway hv) fun _ _ ↦ .fault _ span
  | some found =>
    refine .bind (.defineAll hfound) fun _ _ ↦ .bind (.defineBlock hblock) fun _ _ ↦
      .bind (.attempt (.perform hctx)) fun o ho ↦ ?_
    rcases o with (r | v | v | ⟨id', v⟩ | v | l) | v
    case error.next | error.return_ | ok => exact .pure ho
    case error.break_ => exact .unwind ⟨hid, ho⟩
    all_goals exact .unwind ho

theorem callBlock {id : LambdaId} (hid : Known n id) (hargs : Known n args)
    (hblock : Known n block) : KeepsTo n (Eval.callLambda id args block span) := by
  refine .bind (.read fun _ hs ↦ hs.lambda? id) fun l hl ↦ ?_
  cases l with
  | some l => exact .runBlock hid hl hargs hblock
  | none => exact .pure trivial

theorem visitResult {v : Visit} {list : ListId} (hv : Known n v) : KeepsTo n (v.result list) := by
  cases v with
  | map results => exact .newList hv.reverse
  | filter keep kept => exact .newList hv.reverse
  | reduce result => exact .pure hv
  | _ => exact .pure trivial

theorem visitStep {v : Visit} {item answer : Value} (hv : Known n v) (hitem : Known n item)
    (ha : Known n answer) : (v.step item answer).elim (Known n) (Known n) := by
  cases v with
  | map results => exact .cons ha hv
  | filter keep kept =>
    change Known n (if answer.isTruthy == keep then item :: kept else kept)
    split
    · exact .cons hitem hv
    · exact hv
  | reduce result => exact ha
  | find =>
    unfold Visit.step
    dsimp only
    split
    · exact hitem
    · exact trivial
  | decide wanted =>
    unfold Visit.step
    dsimp only
    split <;> exact trivial
  | _ => exact trivial

theorem visitRound {v : Visit} {list : ListId} {index : Nat} (hv : Known n v)
    (hblock : Known n block) : KeepsTo n (visitRound v list block span index) := by
  refine .bind (.read fun _ hs ↦ (hs.items list).at? index) fun item hitem ↦ ?_
  cases item with
  | none => exact .bind (.visitResult hv) fun _ hr ↦ .pure hr
  | some item =>
    cases block with
    | some b =>
      have hargs : Known n (v.args index item) := by
        cases v with
        | eachWithIndex => exact .cons hitem (.single trivial)
        | reduce result => exact .cons hv (.single hitem)
        | _ => exact .single hitem
      have hheld : Known n (v.held item) := by
        cases v with
        | map results => exact .cons hitem hv
        | filter keep kept => exact .cons hitem hv
        | each | find => exact .single hitem
        | _ => exact .nil
      refine .bind (.holding hheld (.callValue hblock hargs trivial)) fun answer ha ↦ ?_
      have hstep := visitStep hv hitem ha
      dsimp only
      cases hr : v.step item answer with
      | inl v => exact .pure ⟨by rwa [hr] at hstep, hblock⟩
      | inr result => exact .pure (by rwa [hr] at hstep)
    | none =>
      refine .bind (.pure hitem) fun answer ha ↦ ?_
      have hstep := visitStep hv hitem ha
      dsimp only
      cases hr : v.step item answer with
      | inl v => exact .pure ⟨by rwa [hr] at hstep, hblock⟩
      | inr result => exact .pure (by rwa [hr] at hstep)

theorem timesRound {left index : Nat} {b : Value} (hb : Known n b) :
    KeepsTo n (timesRound left index b span) := by
  cases left with
  | zero => exact .pure trivial
  | succ left => exact .bind (.callValue hb (.single trivial) trivial) fun _ _ ↦ .pure hb

theorem answering {work : Eval Value} (h : KeepsTo n work) : KeepsTo n (answering work) :=
  .bind h fun _ hv ↦ .pure hv

end Eval.KeepsTo

end Quill
