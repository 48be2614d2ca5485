import Quill.Builtin.Number
import Quill.Text.Blank
import Quill.Text.Case
import Quill.Text.Split

namespace Quill

/-- The most bytes of a string, or elements of a list, that are made because of a number. -/
def maxBuildLength : Nat := 1 <<< 24

def compareTexts (a b : String) : Ordering := if a < b then .lt else if a = b then .eq else .gt

namespace TextRoutine

open Eval

def pieces (parts : List (List Char)) : Eval Value :=
  newList (parts.map fun p => .str (String.ofList p))

def repeated (text : String) (n : Nat) : String :=
  if text.isEmpty then "" else Nat.repeat (· ++ text) n ""

def run (r : TextRoutine) (c : Call) : Eval Value :=
  let text := c.receiver.name?.getD ""
  let other := (c.arg 0).str?.getD ""
  match r with
  | concat => return .str (text ++ other)
  | repeat_ =>
    let count := ((c.arg 0).int?.getD 0).toInt
    if count < 0 then fault .negativeRepeat c.span
    else if maxBuildLength < text.utf8ByteSize * count.toNat then fault .tooLarge c.span
    else return .str (repeated text count.toNat)
  | equal => return .bool ((c.receiver.scalarEq? (c.arg 0)).getD false)
  | compare r => return .bool (r.holds (compareTexts text other))
  | size => return .int (Int64.ofNat text.length)
  | isEmpty => return .bool text.isEmpty
  | upcase => return .str (String.ofList (Text.upper text.toList))
  | downcase => return .str (String.ofList (Text.lower text.toList))
  | includes => return .bool (Text.occursIn other.toList text.toList)
  | words => pieces (Text.words text.toList)
  | split => pieces (Text.split other.toList text.toList)
  | chars => pieces (Text.split [] text.toList)
  | strip => return .str (String.ofList (Text.strip text.toList))
  | itself => return c.receiver
  | toSymbol => return .symbol text
  | toText => return .str text
  | inspect => do
    match ← read (·.inspectText? c.receiver) with
    | some shown => return .str shown
    | none => fault (.unexpected "a string or symbol") c.span
  | at_ =>
    let cs := text.toList
    match (Text.place? cs.length ((c.arg 0).int?.getD 0).toInt).bind (cs[·]?) with
    | some ch => return .str ch.toString
    | none => return .nil

end TextRoutine

end Quill
