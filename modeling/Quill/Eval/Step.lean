import Quill.State

/-!
# Evaluation in steps

Evaluating an expression, sending a message and the like are *tasks*. The work on a task is a
`Step`: it is done, or it waits for another task and goes on with the outcome of that. Work is
written in the monad `Eval`, in which an unwind passes everything by until it is caught with
`attempt`. That the tasks waiting for each other are data keeps them off the stack of the host.
-/

namespace Quill

inductive Limit where
  | steps (limit : Nat)
  | depth (limit : Nat)
  deriving DecidableEq, Inhabited, Repr

namespace Limit

def text : Limit → String
  | steps n => "step limit of " ++ toString n ++ " exceeded"
  | depth n => "call depth limit of " ++ toString n ++ " exceeded"

end Limit

inductive Unwind where
  | raise (raised : Raised)
  /-- Ends the method or block it is in. -/
  | return_ (value : Value)
  /-- Ends the loop it is in. -/
  | break_ (value : Value)
  /-- Ends the call that the block was written for. -/
  | blockBreak (block : LambdaId) (value : Value)
  /-- Ends the round of a loop, or the block, that it is in. -/
  | next (value : Value)
  /-- Ends the program. -/
  | halt (limit : Limit)
  deriving Inhabited, Repr

abbrev Outcome (α : Type) := Except Unwind α

structure Call where
  receiver : Value
  args : List Value
  block : Option Value
  span : Span
  deriving Inhabited, Repr

namespace Call

def values (c : Call) : List Value := c.receiver :: (c.block.toList ++ c.args)

end Call

/-- What is done with the elements of a list one after the other, and what came of it so far. -/
inductive Visit where
  | each
  | eachWithIndex
  /-- The answers so far, last one first. -/
  | map (results : List Value)
  /-- The elements that passed, last one first. -/
  | filter (keep : Bool) (kept : List Value)
  | reduce (result : Value)
  | find
  /-- Looks for an element that passes, or fails, the test. -/
  | decide (wanted : Bool)
  | count (passed : Nat)
  deriving Inhabited, Repr

/-- A piece of work that others may wait for. -/
inductive Task where
  | eval (e : Expr) (ctx : Context)
  | statements (es : List Expr) (ctx : Context)
  | body (b : Body) (ctx : Context)
  /-- The guard of a clause that might answer a message. -/
  | guard (e : Expr) (ctx : Context)
  | send (name : String) (call : Call)
  /-- Sends the message of the running method again, to what the method hides. -/
  | super (frame : MethodFrame) (call : Call)
  | callLambda (lambda : LambdaId) (args : List Value) (block : Option Value) (span : Span)
  | native (n : NativeMethod) (call : Call)
  /-- Does a task as a call. -/
  | framed (frame : CallFrame) (t : Task)
  /-- Does a task while a raised value is being dealt with. -/
  | handling (r : Raised) (t : Task)
  /-- Finds a text of a value for an error message. -/
  | describe (v : Value)
  /-- Finds the text of a value that calls no method, which has no end if the value contains
  itself. -/
  | rawText (v : Value)
  /-- The rounds of a loop, from the next test of its condition on. -/
  | loop (condition : Expr) (body : List Expr) (ctx : Context)
  /-- The rounds of a loop over a list, from the element `index` on. -/
  | forEach (pattern : Pattern) (body : List Expr) (ctx : Context) (span : Span) (list : ListId)
      (index : Nat)
  /-- A visit to the elements of a list, from the element `index` on. -/
  | visit (v : Visit) (list : ListId) (block : Option Value) (span : Span) (index : Nat)
  /-- Calls of a block with the numbers from `index` on, `left` of them. -/
  | times (left index : Nat) (block : Value) (span : Span)

/-- What becomes of a task: it has its value, or another task has. -/
inductive Reply where
  | value (v : Value)
  | task (t : Task)

/-- Work on a task, together with the state of the interpreter. -/
inductive Step (α : Type) where
  | done (outcome : Outcome α) (s : State)
  | wait (t : Task) (s : State) (resume : Outcome Value → State → Step α)

namespace Step

variable {α β : Type}

def bind (x : Step α) (f : α → State → Step β) : Step β :=
  match x with
  | done (.ok a) s => f a s
  | done (.error u) s => done (.error u) s
  | wait t s resume => wait t s fun o s => (resume o s).bind f

/-- The same as `bind`. What is done already goes on at once. -/
@[inline]
def andThen (x : Step α) (f : α → State → Step β) : Step β :=
  match x with
  | done (.ok a) s => f a s
  | done (.error u) s => done (.error u) s
  | wait t s resume => (wait t s resume).bind f

theorem andThen_eq_bind (x : Step α) (f : α → State → Step β) : x.andThen f = x.bind f := by
  rcases x with ⟨_ | _, _⟩ | _ <;> rfl

def attempt : Step α → Step (Outcome α)
  | done o s => done (.ok o) s
  | wait t s resume => wait t s fun o s => (resume o s).attempt

/-- Ends with what was held `before`, whatever the work held itself. -/
def restoring (before : List Held) : Step α → Step α
  | done o s => done o { s with held := before }
  | wait t s resume => wait t s fun o s => (resume o s).restoring before

end Step

def Eval (α : Type) := State → Step α

namespace Eval

variable {α β : Type}

@[always_inline]
instance : Monad Eval where
  pure a := fun s => .done (.ok a) s
  bind x f := fun s => (x s).andThen f

@[always_inline]
instance : MonadStateOf State Eval where
  get := fun s => .done (.ok s) s
  set s := fun _ => .done (.ok ()) s
  modifyGet f := fun s => match f s with
    | (a, s) => .done (.ok a) s

@[inline]
def read (f : State → α) : Eval α := fun s => .done (.ok (f s)) s

def unwind (u : Unwind) : Eval α := fun s => .done (.error u) s

def ofOutcome (o : Outcome α) : Eval α := fun s => .done o s

/-- Work that cannot unwind: it tells how `x` ended. -/
def attempt (x : Eval α) : Eval (Outcome α) := fun s => (x s).attempt

def perform (t : Task) : Eval Value := fun s => .wait t s .done

/-- Does the work while `h` is held for what comes after it. -/
def keeping (h : Held) (x : Eval α) : Eval α := fun s =>
  (x { s with held := h :: s.held }).restoring s.held

def holding (vs : List Value) (x : Eval α) : Eval α := keeping ⟨vs, none⟩ x

/-- Does the work of code that runs in `ctx`, with the values of the call that it belongs to. -/
def within (ctx : Context) (vs : List Value) (x : Eval α) : Eval α := keeping ⟨vs, some ctx⟩ x

def eval (e : Expr) (ctx : Context) : Eval Value := perform (.eval e ctx)

def send (receiver : Value) (name : String) (args : List Value) (block : Option Value)
    (span : Span) : Eval Value :=
  perform (.send name ⟨receiver, args, block, span⟩)

def callValue (callee : Value) (args : List Value) (block : Option Value) (span : Span) :
    Eval Value :=
  match callee with
  | .lambda l => perform (.callLambda l args block span)
  | v => send v "call" args block span

def tick : Eval Unit := fun s =>
  let s := { s with steps := s.steps + 1 }
  match s.config.stepLimit with
  | some limit => if limit < s.steps then .done (.error (.halt (.steps limit))) s
    else .done (.ok ()) s
  | none => .done (.ok ()) s

def pushFrame (frame : CallFrame) : Eval Unit := fun s =>
  if s.config.maxCallDepth ≤ s.frames.size then
    .done (.error (.halt (.depth s.config.maxCallDepth))) s
  else .done (.ok ()) { s with frames := s.frames.push frame }

def popFrame : Eval Unit := modify fun s => { s with frames := s.frames.pop }

def inFrame (frame : CallFrame) (t : Task) : Eval Value := do
  pushFrame frame
  let outcome ← attempt (perform t)
  popFrame
  ofOutcome outcome

def whileRescuing (r : Raised) (t : Task) : Eval Value := do
  modify fun s => { s with rescuing := r :: s.rescuing }
  let outcome ← attempt (perform t)
  modify fun s => { s with rescuing := s.rescuing.tail }
  ofOutcome outcome

def newList (items : List Value) : Eval Value := modifyGet (·.newList items.toArray)

def newObject (t : TypeId) : Eval Value := modifyGet (·.newObject t .empty)

def newScope (outer : ScopeId) : Eval ScopeId := modifyGet (·.newScope outer)

def newLambda (b : Block) (ctx : Context) : Eval LambdaId := modifyGet (·.newLambda ⟨b, ctx⟩)

def define (scope : ScopeId) (name : String) (v : Value) : Eval Unit :=
  modify (·.define scope name v)

def assign (scope : ScopeId) (name : String) (v : Value) : Eval Unit :=
  modify (·.assign scope name v)

end Eval

end Quill
