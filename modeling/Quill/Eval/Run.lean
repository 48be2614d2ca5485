import Quill.Eval.Expr

/-!
# Running tasks

`Task.work` is the work on each task. A `Machine` does it: the tasks that wait for another are kept
in a list. `Machine.run` ends with a result unless it runs out of fuel first, for a program need not
end.
-/

namespace Quill

namespace Eval

/-- Calls the block for the next element of a list. Without a block the element itself counts as
the answer. -/
def visitRound (v : Visit) (list : ListId) (block : Option Value) (span : Span) (index : Nat) :
    Eval Reply := do
  match ← read fun s => (s.items list)[index]? with
  | none => return .value (← v.result list)
  | some item =>
    let answer ← match block with
      | some b => holding (v.held item) (callValue b (v.args index item) none span)
      | none => pure item
    match v.step item answer with
    | .inl v => return .task (.visit v list block span (index + 1))
    | .inr result => return .value result

def timesRound (left index : Nat) (block : Value) (span : Span) : Eval Reply := do
  match left with
  | 0 => return .value .nil
  | left + 1 =>
    let _ ← callValue block [.int (Int64.ofNat index)] none span
    return .task (.times left (index + 1) block span)

def answering (work : Eval Value) : Eval Reply := return .value (← work)

end Eval

namespace Task

open Eval

def work : Task → Eval Reply
  | eval e ctx => answering do
    tick
    expression e ctx
  | statements es ctx => answering (Eval.statements ctx es)
  | body b ctx => answering (Eval.body b ctx)
  | guard e ctx => answering (Eval.eval e ctx)
  | send name c => answering (deliver name c)
  | super frame c => answering (deliverSuper frame c)
  | callLambda l args block span => answering (Eval.callLambda l args block span)
  | native n c => answering (n.routine.run c)
  | framed frame t => answering (inFrame frame t)
  | handling r t => answering (whileRescuing r t)
  | describe v => Eval.describe v
  | rawText v => Eval.rawText v
  | loop condition es ctx => loopRound condition es ctx
  | forEach p es ctx span list index => forRound p es ctx span list index
  | visit v list block span index => visitRound v list block span index
  | times left index block span => timesRound left index block span

end Task

abbrev Resume (α : Type) := Outcome Value → State → Step α

structure Pending where
  task : Task
  resume : Resume Reply

/-- Tasks in progress: one that is worked on, and those that wait for it, the innermost first. -/
structure Machine where
  task : Task
  work : Step Reply
  waiting : List Pending

namespace Machine

def start (t : Task) (s : State) : Machine := ⟨t, t.work s, []⟩

/-- Starts a task, goes on with one that waited, or comes to the end of all. -/
def next (m : Machine) : Machine ⊕ (Outcome Value × State) :=
  match m.work, m.waiting with
  | .wait t s resume, waiting => .inl ⟨t, t.work s, ⟨m.task, resume⟩ :: waiting⟩
  -- The new task takes the place of this one, so the rounds of a loop do not pile up.
  | .done (.ok (.task t)) s, waiting => .inl ⟨t, t.work s, waiting⟩
  | .done (.ok (.value v)) s, p :: waiting => .inl ⟨p.task, p.resume (.ok v) s, waiting⟩
  | .done (.error u) s, p :: waiting => .inl ⟨p.task, p.resume (.error u) s, waiting⟩
  | .done (.ok (.value v)) s, [] => .inr (.ok v, s)
  | .done (.error u) s, [] => .inr (.error u, s)

def run : Nat → Machine → Option (Outcome Value × State)
  | 0, _ => none
  | n + 1, m => match m.next with
    | .inl m => run n m
    | .inr r => some r

end Machine

/-- Goes on with work that has a result of its own. Each task it waits for has the same fuel. -/
def Step.finish {α : Type} (fuel : Nat) : Nat → Step α → Option (Outcome α × State)
  | _, .done o s => some (o, s)
  | 0, .wait .. => none
  | n + 1, .wait t s resume => do
    let (o, s) ← (Machine.start t s).run fuel
    finish fuel n (resume o s)

namespace Eval

def run {α : Type} (work : Eval α) (fuel : Nat) (s : State) : Option (Outcome α × State) :=
  (work s).finish fuel fuel

end Eval

end Quill
