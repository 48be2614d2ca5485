import Quill.Builtin
import Quill.Eval.Body

/-!
# Calling methods and blocks

A message finds a method, and the first clause of it that takes the arguments runs. A call ends what
`return`, `break` and `next` can end inside of it: `return` gives a method its value, and a block
has its value from `return` or `next`, while `break` in a block ends the call that the block was
written for.
-/

namespace Quill

namespace Params

def takes (p : Params) (given : Nat) : Bool :=
  if p.isVariadic then p.required ≤ given else given == p.required

/-- The arguments that a block with these parameters makes of those it is given: missing ones are
`nil` and extra ones are dropped. -/
def fit (p : Params) (args : List Value) : List Value :=
  let padded := args ++ List.replicate (p.required - args.length) Value.nil
  if p.isVariadic then padded else padded.take p.required

end Params

namespace State

/-- The arguments of a block. A list that is the only one is spread over several parameters. -/
def blockArgs (s : State) (p : Params) (args : List Value) : List Value :=
  match args with
  | [.list l] => p.fit (if 1 < p.items.length then (s.items l).toList else args)
  | args => p.fit args

end State

namespace Eval

def defineBlock (p : Params) (block : Option Value) (scope : ScopeId) : Eval Unit :=
  match p.block with
  | some name => define scope name.name (block.getD .nil)
  | none => return ()

def admits (guard : Option Expr) (ctx : Context) : Eval Bool := do
  match guard with
  | some e => return (← perform (.guard e ctx)).isTruthy
  | none => return true

def bindParams (d : MethodDef) (c : Call) (ctx : Context) : Eval Bool := do
  match ← matchSequence ctx d.params.items c.args with
  | some found =>
    defineAll ctx.scope found
    defineBlock d.params c.block ctx.scope
    admits d.guard ctx
  | none => return false

/-- Where the body of a clause runs, if the clause takes the arguments. -/
def bindClause (d : MethodDef) (m : Method) (c : Call) : Eval (Option Context) := do
  if d.params.takes c.args.length then
    -- Methods see no variables but those that are seen everywhere.
    let scope ← newScope Scopes.root
    let ctx : Context := ⟨scope, c.receiver, m.owner, some (m.frame c.args c.block)⟩
    return if ← within ctx [] (bindParams d c ctx) then some ctx else none
  else return none

def runClause (d : MethodDef) (ctx : Context) (label : String) (span : Span) : Eval Value := do
  match ← attempt (within ctx [] (perform (.framed ⟨label, span⟩ (.body d.body ctx)))) with
  | .error (.return_ v) => return v
  -- Nothing inside the method was there for these to end.
  | .error (.break_ _) => fault .breakOutside span
  | .error (.next _) => fault .nextOutside span
  | outcome => ofOutcome outcome

def runNative (n : NativeMethod) (c : Call) : Eval Value :=
  perform (.framed ⟨n.label, c.span⟩ (.native n c))

def inspectAllAnyway (done : List String) : List Value → Eval (List String)
  | [] => return done.reverse
  | v :: rest => do inspectAllAnyway ((← inspectAnyway v) :: done) rest

/-- Raises the error that no clause takes the arguments. For methods that are all built-in it tells
what the first of them misses. -/
def raiseNoClause (m : Method) (c : Call) (mismatch : Option Mismatch) : Eval Value := do
  let label ← read (·.methodLabel m)
  if m.clauses.all Clause.isNative then
    match mismatch with
    | some reason => fault (.badCall label reason) c.span
    | none => fault (.noSignature label) c.span
  else
    let shown ← holding (.type m.owner :: c.values) (inspectAllAnyway [] c.args)
    missing (.noClause label shown) c.receiver m.name c.span

/-- Runs the first of the clauses that takes the arguments; `mismatch` is what a built-in one
before them missed. -/
def runClauses (m : Method) (c : Call) (mismatch : Option Mismatch) : List Clause → Eval Value
  | [] => raiseNoClause m c mismatch
  | .native n :: rest => do
    match ← read fun s => n.signature.mismatch s.types.sort c.receiver c.args c.block.isSome with
    | none => holding [.type m.owner] (runNative n c)
    -- The first mismatch is the one that is told of.
    | some reason => runClauses m c (mismatch.or (some reason)) rest
  | .user d :: rest => do
    match ← bindClause d m c with
    | some ctx => runClause d ctx (← read (·.methodLabel m)) c.span
    | none => runClauses m c mismatch rest

def invoke (m : Method) (c : Call) : Eval Value := runClauses m c none m.clauses

def deliver (name : String) (c : Call) : Eval Value := do
  match ← read (·.answer c.receiver name (c.args.isEmpty && c.block.isNone)) with
  | .method m => invoke m c
  | .constant v => return v
  | .nothing =>
    let receiver ← read (·.describe c.receiver)
    missing (.undefinedMethod name receiver) c.receiver name c.span

def deliverSuper (frame : MethodFrame) (c : Call) : Eval Value := do
  match ← read (·.superMethod? frame c.receiver) with
  | some m => invoke m c
  | none => missing (.noSuper frame.name) c.receiver frame.name c.span

def blockLabel (home : Context) : String :=
  match home.method with
  | some frame => "block in " ++ frame.name
  | none => "block"

def runBlock (id : LambdaId) (l : Lambda) (args : List Value) (block : Option Value)
    (span : Span) : Eval Value := do
  let ctx ← inNewScope l.home
  let params := l.block.params
  let args ← read (·.blockArgs params args)
  within ctx (block.toList ++ args) do
    match ← matchSequence ctx params.items args with
    | none =>
      let shown ← inspectAnyway (← newList args)
      fault (.blockParams params.text shown) span
    | some found =>
      defineAll ctx.scope found
      defineBlock params block ctx.scope
      let frame : CallFrame := ⟨blockLabel l.home, span⟩
      match ← attempt (perform (.framed frame (.statements l.block.body ctx))) with
      | .error (.next v) | .error (.return_ v) => return v
      -- The lambda tells the call to end from all others in progress.
      | .error (.break_ v) => unwind (.blockBreak id v)
      | outcome => ofOutcome outcome

def callLambda (id : LambdaId) (args : List Value) (block : Option Value) (span : Span) :
    Eval Value := do
  match ← read (·.lambda? id) with
  | some l => runBlock id l args block span
  | none => return .nil

end Eval

end Quill
