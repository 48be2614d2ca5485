import Quill.Eval.Define
import Quill.Eval.Invoke
import Quill.Eval.Place

namespace Quill

namespace Eval

/-- What a round of a loop leads to: `next` ends the round, and `break` the loop. -/
def afterRound (o : Outcome Value) (again : Task) : Eval Reply :=
  match o with
  | .ok _ | .error (.next _) => return .task again
  | .error (.break_ v) => return .value v
  | .error u => unwind u

def loopRound (condition : Expr) (body : List Expr) (ctx : Context) : Eval Reply := do
  if (← eval condition ctx).isTruthy then
    afterRound (← attempt (statements ctx body)) (.loop condition body ctx)
  else return .value .nil

def destructure (p : Pattern) (v : Value) (ctx : Context) (span : Span) : Eval Unit := do
  match ← matchPattern ctx [] p v with
  | some found => assignAll ctx.scope found
  | none => raiseNoMatch p v span

def forRound (p : Pattern) (body : List Expr) (ctx : Context) (span : Span) (list : ListId)
    (index : Nat) : Eval Reply := do
  -- The list is asked in every round, for the body may change it.
  match ← read fun s => (s.items list)[index]? with
  | some item =>
    holding [item] (destructure p item ctx span)
    let outcome ← attempt (holding [item] (statements ctx body))
    afterRound outcome (.forEach p body ctx span list (index + 1))
  | none => return .value (.list list)

def choose (ctx : Context) (subject : Value) (otherwise : Eval Value) : List Arm → Eval Value
  | [] => otherwise
  | arm :: rest => do
    match ← matchPattern ctx [] arm.pattern subject with
    | none => choose ctx subject otherwise rest
    | some found =>
      -- The guard needs the names. They stay bound when it does not hold.
      assignAll ctx.scope found
      if ← guardHolds arm.guard ctx then statements ctx arm.body
      else choose ctx subject otherwise rest

def select (subject : Expr) (arms : List Arm) (elseBody : Option (List Expr)) (ctx : Context)
    (span : Span) : Eval Value := do
  let v ← eval subject ctx
  let otherwise := match elseBody with
    | some es => statements ctx es
    | none => do fault (.noChoice (← inspectAnyway v)) span
  holding [v] (choose ctx v otherwise arms)

/-- The block of a call, and which lambda it is if it is written with the call. -/
def blockOf (b : Option BlockArg) (ctx : Context) : Eval (Option Value × Option LambdaId) := do
  match b with
  | none => return (none, none)
  | some (.literal b) =>
    let l ← newLambda b ctx
    return (some (.lambda l), some l)
  | some (.pass e) =>
    match ← eval e ctx with
    | .nil => return (none, none)
    | .lambda l => return (some (.lambda l), none)
    | v => fault (.badBlock (← inspectAnyway v)) e.span

/-- A `break` in the block that is written with a call gives the call its value. -/
def catchingBreak (block : Option LambdaId) (work : Eval Value) : Eval Value := do
  match ← attempt work with
  | .error (.blockBreak id v) =>
    -- A `break` meant for another call passes by.
    if block = some id then return v else unwind (.blockBreak id v)
  | outcome => ofOutcome outcome

def callNamed (name : String) (args : List Value) (block : Option Value) (ctx : Context)
    (span : Span) : Eval Value := do
  match ← read (·.scopes.get? ctx.scope name) with
  | some (.lambda l) => perform (.callLambda l args block span)
  | some v => holding [v] (send ctx.self name args block span)
  | none => send ctx.self name args block span

def operands (args : List Expr) (block : Option BlockArg) (ctx : Context) :
    Eval (List Value × Option Value × Option LambdaId) := do
  let args ← values args ctx
  return (args, ← holding args (blockOf block ctx))

def call (receiver : Option Expr) (name : String) (args : List Expr) (block : Option BlockArg)
    (ctx : Context) (span : Span) : Eval Value := do
  match receiver with
  | some e =>
    let v ← eval e ctx
    let (args, block, literal) ← holding [v] (operands args block ctx)
    catchingBreak literal (send v name args block span)
  | none =>
    let (args, block, literal) ← operands args block ctx
    catchingBreak literal (callNamed name args block ctx span)

/-- The block to hand on: the one of the running method, if the call has none of its own. -/
def superBlock (block : Option BlockArg) (frame : MethodFrame) (ctx : Context) :
    Eval (Option Value × Option LambdaId) :=
  match block with
  | some _ => blockOf block ctx
  | none => return (frame.block, none)

def callSuper (args : Option (List Expr)) (block : Option BlockArg) (ctx : Context)
    (span : Span) : Eval Value := do
  match ctx.method with
  | none => fault .superOutside span
  | some frame =>
    let args ← match args with
      | some es => values es ctx
      | none => pure frame.args
    let (block, literal) ← holding args (superBlock block frame ctx)
    catchingBreak literal (perform (.super frame ⟨ctx.self, args, block, span⟩))

def yield (args : List Expr) (ctx : Context) (span : Span) : Eval Value := do
  match ctx.method.bind (·.block) with
  | none => fault .noBlock span
  | some block =>
    let args ← values args ctx
    callValue block args none span

def binary (op : Operator) (left right : Expr) (ctx : Context) (span : Span) : Eval Value := do
  let left ← eval left ctx
  let right ← holding [left] (eval right ctx)
  let v ← send left op.method [right] none span
  return if op = .notEq then .bool (!v.isTruthy) else v

def unary (op : PrefixOp) (operand : Expr) (ctx : Context) (span : Span) : Eval Value := do
  let v ← eval operand ctx
  match op with
  | .not => return .bool (!v.isTruthy)
  | .neg => send v "-@" [] none span

def logical (op : Connective) (left right : Expr) (ctx : Context) : Eval Value := do
  let v ← eval left ctx
  if decides op v then return v else holding [v] (eval right ctx)

def test (value : Expr) (p : Pattern) (ctx : Context) : Eval Value := do
  let v ← eval value ctx
  match ← holding [v] (matchPattern ctx [] p v) with
  | some found =>
    assignAll ctx.scope found
    return .bool true
  | none => return .bool false

def cond (condition : Expr) (thenBody : List Expr) (elseBody : Option (List Expr))
    (ctx : Context) : Eval Value := do
  if (← eval condition ctx).isTruthy then statements ctx thenBody
  else match elseBody with
    | some es => statements ctx es
    | none => return .nil

/-- Raises the value of an expression, or without one the value that is being dealt with. -/
def raising (value : Option Expr) (ctx : Context) (span : Span) : Eval Value := do
  match value with
  | some e => raise (← eval e ctx) span
  | none => match (← read (·.rescuing)).head? with
    | some r => unwind (.raise r)
    | none => fault .nothingRaised span

def jump (j : Jump) (value : Option Expr) (ctx : Context) (span : Span) : Eval Value :=
  match j with
  | .raise => raising value ctx span
  | .return_ => do unwind (.return_ (← optional value ctx))
  | .break_ => do unwind (.break_ (← optional value ctx))
  | .next => do unwind (.next (← optional value ctx))

def named (name : String) (ctx : Context) (span : Span) : Eval Value := do
  match ← read (·.scopes.get? ctx.scope name) with
  | some v => return v
  | none => send ctx.self name [] none span

def loopItems (p : Pattern) (items : Expr) (body : List Expr) (ctx : Context) (span : Span) :
    Eval Value := do
  match ← eval items ctx with
  | .list l => holding [.list l] (perform (.forEach p body ctx span l 0))
  | v => fault (.badItems (← inspectAnyway v)) items.span

def expression (e : Expr) (ctx : Context) : Eval Value :=
  match e.kind with
  | .literal v => return .ofLiteral v
  | .list items => do newList (← values items ctx)
  | .self => return ctx.self
  | .name name => named name ctx e.span
  | .constant name => constant ctx name e.span
  | .attr name => read (·.attr ctx.self name)
  | .call receiver method args block => call receiver method.name args block ctx e.span
  | .super args block => callSuper args block ctx e.span
  | .yield args => yield args ctx e.span
  | .block b => return .lambda (← newLambda b ctx)
  | .binary op left right => binary op left right ctx e.span
  | .unary op operand => unary op operand ctx e.span
  | .logical op left right => logical op left right ctx
  | .fits value p => test value p ctx
  | .assign t value => assignment t value ctx e.span
  | .compound op t value => compoundAssignment op t value ctx e.span
  | .destructure p value => do
    let v ← eval value ctx
    holding [v] (destructure p v ctx e.span)
    return v
  | .cond _ condition thenBody elseBody => cond condition thenBody elseBody ctx
  | .loop _ condition body => perform (.loop condition body ctx)
  | .forEach span p items body => loopItems p items body ctx span
  | .select span subject arms elseBody => select subject arms elseBody ctx span
  | .protect b => body b ctx
  | .jump j value => jump j value ctx e.span
  | .method d => defineMethod d ctx
  | .type d => defineType d ctx
  | .include_ m => includeInto m ctx

end Eval

end Quill
