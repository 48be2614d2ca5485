import Quill.Eval.Match

/-!
# Statements and what protects them

A body is a list of statements; it may have clauses for values that are raised, and a part that runs
however the rest ends, unless a limit was hit.
-/

namespace Quill

namespace Eval

/-- The value of the last statement, `last` if there is none. Each value is held until the next
statement has its own. -/
def statementsAfter (ctx : Context) (last : Value) : List Expr → Eval Value
  | [] => return last
  | [e] => holding [last] (eval e ctx)
  | e :: rest => do statementsAfter ctx (← holding [last] (eval e ctx)) rest

def statements (ctx : Context) : List Expr → Eval Value
  | [] => return .nil
  | [e] => eval e ctx
  | e :: rest => do statementsAfter ctx (← eval e ctx) rest

def valuesOnto (ctx : Context) (done : List Value) : List Expr → Eval (List Value)
  | [] => return done.reverse
  | e :: rest => do valuesOnto ctx ((← holding done (eval e ctx)) :: done) rest

def values (es : List Expr) (ctx : Context) : Eval (List Value) := valuesOnto ctx [] es

def optional (e : Option Expr) (ctx : Context) : Eval Value :=
  match e with
  | some e => eval e ctx
  | none => return .nil

def guardHolds (guard : Option Expr) (ctx : Context) : Eval Bool := do
  match guard with
  | some e => return (← eval e ctx).isTruthy
  | none => return true

def inNewScope (ctx : Context) : Eval Context := do
  let scope ← newScope ctx.scope
  return { ctx with scope }

/-- What a `rescue` clause makes of a raised value: the names it binds, if it is meant. -/
def rescueMatch (pattern : Option Pattern) (ctx : Context) (v : Value) : Eval (Option Matched) :=
  match pattern with
  | some p => matchPattern ctx [] p v
  | none => return some []

def bindsRescued (clause : Rescue) (v : Value) (ctx : Context) : Eval Bool := do
  match ← rescueMatch clause.pattern ctx v with
  | none => return false
  | some found =>
    defineAll ctx.scope found
    guardHolds clause.guard ctx

/-- Leaves a raised value to the first clause that is meant, or raises it again. -/
def rescue (ctx : Context) (r : Raised) : List Rescue → Eval Value
  | [] => unwind (.raise r)
  | clause :: rest => do
    -- Each clause has a scope of its own: one that is not meant leaves no names behind.
    let inner ← inNewScope ctx
    if ← within inner [r.value] (bindsRescued clause r.value inner) then
      within inner [] (perform (.handling r (.statements clause.body inner)))
    else rescue ctx r rest

def afterStatements (b : Body) (ctx : Context) (o : Outcome Value) : Eval Value :=
  match o with
  | .error (.raise r) => rescue ctx r b.rescues
  | .error u => unwind u
  | .ok v => match b.elseBody with
    | some es => holding [v] (statements ctx es)
    | none => return v

def outcomeValues : Outcome Value → List Value
  | .ok v | .error (.return_ v) | .error (.break_ v) | .error (.blockBreak _ v)
  | .error (.next v) => [v]
  | .error (.raise r) => [r.value]
  | .error (.halt _) => []

/-- What follows all other parts: how that ends, counts unless it unwinds itself. -/
def ensuring (ensure : Option (List Expr)) (ctx : Context) (o : Outcome Value) : Eval Value :=
  match ensure, o with
  -- After a limit was hit nothing is run any longer.
  | none, o | some _, o@(.error (.halt _)) => ofOutcome o
  | some es, o => do
    let _ ← holding (outcomeValues o) (statements ctx es)
    ofOutcome o

def body (b : Body) (ctx : Context) : Eval Value :=
  if b.isProtected then do
    let first ← attempt (statements ctx b.statements)
    let outcome ← attempt (afterStatements b ctx first)
    ensuring b.ensure ctx outcome
  else statements ctx b.statements

end Eval

end Quill
