import Quill.Arithmetic

namespace Quill

namespace Call

def arg (c : Call) (i : Nat) : Value := c.args.getD i .nil

end Call

namespace Eval

variable {α : Type}

def calculated (r : Except Fault α) (span : Span) : Eval α :=
  match r with
  | .ok a => return a
  | .error f => fault f span

end Eval

namespace NumberRoutine

open Eval

def run (r : NumberRoutine) (c : Call) : Eval Value :=
  match r with
  | arithmetic op => calculated (op.onValues c.receiver (c.arg 0)) c.span
  | compare r => return .bool (r.holds (compareNumbers c.receiver (c.arg 0)))
  | equal => return .bool ((c.receiver.scalarEq? (c.arg 0)).getD false)
  | negate => match c.receiver with
    | .int n => return .int (← calculated (checkedInt (-n.toInt)) c.span)
    | .float x => return .float (-x)
    | _ => fault (.unexpected "a number") c.span
  | abs => match c.receiver with
    | .int n => return .int (← calculated (checkedInt n.toInt.natAbs) c.span)
    | .float x => return .float x.abs
    | _ => fault (.unexpected "a number") c.span
  | toText => match c.receiver with
    | .int n => return .str (toString n.toInt)
    | .float x => return .str (FloatNotation.spoken.write x)
    | _ => fault (.unexpected "a number") c.span
  | toInt => match c.receiver with
    | .int n => return .int n
    | .float x => match Float.truncated? x with
      | some n => return .int n
      | none => fault (.noWholeNumber (FloatNotation.spoken.write x)) c.span
    | _ => fault (.unexpected "a number") c.span
  | toFloat => match c.receiver.number? with
    | some x => return .float x
    | none => fault (.unexpected "a number") c.span
  | times => match c.receiver, c.block with
    | .int n, some block => do
      let _ ← holding c.values (perform (.times n.toInt.toNat 0 block c.span))
      return .int n
    | _, _ => fault (.unexpected "an Int and a block") c.span

end NumberRoutine

end Quill
