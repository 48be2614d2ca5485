import Quill.Eval.Run
import Quill.Prelude

/-!
# Running programs

An interpreter keeps its state from one program to the next: types, variables at top level, and what
was written. Programs need not end, so all that runs them takes fuel and gives nothing when that is
used up.
-/

namespace Quill

inductive RunError where
  | malformed (e : SyntaxError)
  /-- A raised value that nothing rescued: the name of its type, its text, where it was raised and
  the calls in progress there. -/
  | uncaught (type text : String) (span : Span) (backtrace : List String)
  | limit (l : Limit)
  deriving Inhabited, Repr

namespace RunError

def message : RunError → String
  | malformed e => e.text
  | uncaught type text span _ => span.text ++ ": " ++ type ++ ": " ++ text
  | limit l => l.text

def span? : RunError → Option Span
  | malformed e => some e.span
  | uncaught _ _ span _ => some span
  | limit _ => none

end RunError

abbrev Result := Except RunError Value

structure Interpreter where
  state : State
  deriving Inhabited

namespace Interpreter

def perform {α : Type} (i : Interpreter) (work : Eval α) (fuel : Nat) :
    Option (Outcome α × Interpreter) :=
  (work.run fuel i.state).map fun (o, s) => (o, ⟨s⟩)

/-- The text that `shown` gives a value, or its raw text if that unwinds. A value that contains
itself has no raw text, and looking for it no end. -/
def textBy (i : Interpreter) (shown : Value → Eval String) (v : Value) (fuel : Nat) :
    Option (String × Interpreter) := do
  let (o, i) ← i.perform (shown v) fuel
  match o with
  | .ok text => return (text, i)
  | .error _ => return (← i.state.rawText? v, i)

/-- The text of a raised value that nothing rescued: for errors their message, if there is one. -/
def uncaughtText (i : Interpreter) (v : Value) (fuel : Nat) : Option (String × Interpreter) :=
  if v.object?.isSome && i.state.isInstance v CoreType.error.id then
    match i.state.attr v "message" with
    | .nil => some (i.state.typeName v, i)
    | message => i.textBy (Eval.holding [v] <| Eval.display ·) message fuel
  else i.textBy Eval.inspect v fuel

def strayJump (message : String) (span : Span) : RunError :=
  .uncaught CoreType.runtimeError.name message span []

def result (i : Interpreter) (o : Outcome Value) (span : Span) (fuel : Nat) :
    Option (Result × Interpreter) :=
  match o with
  | .ok v | .error (.return_ v) => some (.ok v, i)
  | .error (.raise r) => do
    let (text, i) ← i.uncaughtText r.value fuel
    return (.error (.uncaught (i.state.typeName r.value) text r.span r.backtrace), i)
  | .error (.halt l) => some (.error (.limit l), i)
  | .error (.break_ _) => some (.error (strayJump Fault.breakOutside.message span), i)
  | .error (.next _) => some (.error (strayJump Fault.nextOutside.message span), i)
  | .error (.blockBreak ..) =>
    some (.error (strayJump "break from a block whose call has returned" span), i)

/-- Nothing left of an earlier program but types, variables and output. -/
def rested (i : Interpreter) : Interpreter :=
  ⟨{ i.state with steps := 0, frames := #[], rescuing := [] }⟩

def run (i : Interpreter) (p : Program) (fuel : Nat) : Option (Result × Interpreter) := do
  let (o, i) ← i.rested.perform (Eval.perform (.statements p.body State.topContext)) fuel
  let (r, i) ← i.result o p.span fuel
  return (r, ⟨{ i.state with frames := #[] }⟩)

/-- Runs the program that a text spells. A text that spells none changes nothing. -/
def runText (i : Interpreter) (text : String) (fuel : Nat) : Option (Result × Interpreter) :=
  match Program.ofText? text with
  | .ok p => i.run p fuel
  | .error e => some (.error (.malformed e), i)

def withPrelude (prelude : Except SyntaxError Program) (config : Config) (fuel : Nat) :
    Option (Except RunError Interpreter) :=
  match prelude with
  | .error e => some (.error (.malformed e))
  | .ok p => do match ← (Interpreter.mk (.initial config)).run p fuel with
    -- What the prelude wrote is no output of a program.
    | (.ok _, i) => return .ok ⟨{ i.state with output := "" }⟩
    | (.error e, _) => return .error e

/-- A new interpreter, which has run the prelude. The limits hold for the prelude, too. -/
def new (config : Config) (fuel : Nat) : Option (Except RunError Interpreter) :=
  withPrelude Prelude.program config fuel

def keep (i : Interpreter) (v : Value) : Interpreter :=
  ⟨{ i.state with held := ⟨[v], none⟩ :: i.state.held }⟩

def letGo (i : Interpreter) : Interpreter := ⟨{ i.state with held := [] }⟩

def takeOutput (i : Interpreter) : String × Interpreter :=
  (i.state.output, ⟨{ i.state with output := "" }⟩)

def steps (i : Interpreter) : Nat := i.state.steps

def type? (i : Interpreter) (path : String) : Option TypeId :=
  i.state.types.follow CoreType.object.id (path.splitOn ".")

def defineGlobal (i : Interpreter) (name : String) (v : Value) : Interpreter :=
  ⟨i.state.define Scopes.root name v⟩

def globals (i : Interpreter) : List String := i.state.scopes.names Scopes.root

def locals (i : Interpreter) : List String := i.state.scopes.names State.mainScope

def addNative (i : Interpreter) (t : TypeId) (classSide : Bool) (name : String)
    (signature : Signature) (routine : Routine) : Interpreter :=
  ⟨{ i.state with types := i.state.types.addNative t classSide name signature routine }⟩

end Interpreter

namespace State

/-- Whether two values are equal without a method being asked: lists item by item, and all else if
it is identical. It stays open where more than `n` lists would be compared inside of each other. -/
def equalWithin (s : State) (n : Nat) (a b : Value) : Option Bool :=
  match n, a, b with
  | 0, .list l, .list m => if l == m then some true else none
  | n + 1, .list l, .list m =>
    if l == m then some true
    else if (s.items l).size != (s.items m).size then some false
    else equalItems s n (s.items l).toList (s.items m).toList
  | _, a, b => some (a.identical b)
where
  equalItems (s : State) (n : Nat) : List Value → List Value → Option Bool
    | a :: as, b :: bs =>
      (equalWithin s n a b).bind fun same => if same then equalItems s n as bs else some false
    | _, _ => some true

/-- A comparison that comes to the same two lists again inside of each other has no end. Any other
meets each pair of lists once at most on its way down. -/
def equal? (s : State) (a b : Value) : Option Bool :=
  s.equalWithin (s.lists.size * s.lists.size) a b

/-- What a comparison that ends says. -/
def equal (s : State) (a b : Value) : Bool := (s.equal? a b).getD false

end State

end Quill
