import Quill.Builtin.Object

namespace Quill

namespace HostRoutine

open Eval

def run (r : HostRoutine) (c : Call) : Eval Value :=
  match r with
  | echo => do
    let args ← newList c.args
    newList [c.receiver, args, .bool c.block.isSome]
  | apply =>
    let callee := c.block.getD (c.arg 0)
    holding [callee, c.receiver] (callValue callee c.args none c.span)
  | forward =>
    Eval.send c.receiver ((c.arg 0).name?.getD "inspect") (c.args.drop 1) c.block c.span
  | fail => match c.arg 0 with
    | .str text => raiseError .runtimeError text c.span
    | .symbol text => raiseError .argumentTypeError text c.span
    | v => raise v c.span

end HostRoutine

end Quill
