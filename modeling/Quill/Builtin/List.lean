import Quill.Builtin.Text
import Quill.Sort

/-!
# What lists can do

A visit reads the list anew for every element, so a block may change the list it is called for.
Elements are compared with `==` and `<`.
-/

namespace Quill

open Eval

namespace Visit

def args (v : Visit) (index : Nat) (item : Value) : List Value :=
  match v with
  | eachWithIndex => [item, .int (Int64.ofNat index)]
  | reduce result => [result, item]
  | _ => [item]

def held (v : Visit) (item : Value) : List Value :=
  match v with
  | each | find => [item]
  | map results => item :: results
  | filter _ kept => item :: kept
  | _ => []

/-- What comes of an element and the answer of the block: the visit goes on, or ends with a
value. -/
def step (v : Visit) (item answer : Value) : Visit ⊕ Value :=
  match v with
  | each => .inl each
  | eachWithIndex => .inl eachWithIndex
  | map results => .inl (map (answer :: results))
  | filter keep kept =>
    .inl (filter keep (if answer.isTruthy == keep then item :: kept else kept))
  | reduce _ => .inl (reduce answer)
  | find => if answer.isTruthy then .inr item else .inl find
  | decide wanted => if answer.isTruthy == wanted then .inr (.bool wanted) else .inl (decide wanted)
  | count passed => .inl (count (if answer.isTruthy then passed + 1 else passed))

def result (v : Visit) (list : ListId) : Eval Value :=
  match v with
  | each | eachWithIndex => return .list list
  | map results => newList results.reverse
  | filter _ kept => newList kept.reverse
  | reduce result => return result
  | find => return .nil
  | decide wanted => return .bool (!wanted)
  | count passed => return .int (Int64.ofNat passed)

end Visit

namespace ListRoutine

def containsItem (needle : Value) : List Value → Eval Bool
  | [] => return false
  | item :: rest => do
    if ← valuesEqual item needle then return true else containsItem needle rest

/-- The position of the first item that is equal to `needle`, counted from `index`. -/
def positionOf (needle : Value) (index : Nat) : List Value → Eval (Option Nat)
  | [] => return none
  | item :: rest => do
    if ← valuesEqual item needle then return some index else positionOf needle (index + 1) rest

/-- The position of the first candidate that `item` is equal to, counted from `index`. -/
def matchFor (item : Value) (index : Nat) : List Value → Eval (Option Nat)
  | [] => return none
  | candidate :: rest => do
    if ← valuesEqual item candidate then return some index else matchFor item (index + 1) rest

def equalItems : List Value → List Value → Eval Bool
  | a :: as, b :: bs => do if ← valuesEqual a b then equalItems as bs else return false
  | _, _ => return true

/-- Whether the first items that differ are in order, or the first list is a beginning of the
second and shorter. -/
def lessItems (span : Span) : List Value → List Value → Eval Bool
  | a :: as, b :: bs => do
    -- The pair that is not equal decides.
    if ← valuesEqual a b then lessItems span as bs
    else return (← send a "<" [b] none span).isTruthy
  | [], _ :: _ => return true
  | _, [] => return false

def subsetOf (other : List Value) : List Value → Eval Bool
  | [] => return true
  | item :: rest => do
    if ← containsItem item other then subsetOf other rest else return false

/-- The items without the one at a position, whose place the last one takes. -/
def swapRemove (items : Array Value) (i : Nat) : Array Value :=
  (items.setIfInBounds i (items.back?.getD .nil)).pop

/-- Whether every one of the items has an equal one of its own among the candidates. -/
def pairUp (candidates : Array Value) : List Value → Eval Bool
  | [] => return true
  | item :: rest => do
    match ← holding candidates.toList (matchFor item 0 candidates.toList) with
    | some i => pairUp (swapRemove candidates i) rest
    | none => return false

/-- The texts of the items for a reader of output, after those in `done`, last one first. -/
def displayItems (done : List String) : List Value → Eval (List String)
  | [] => return done.reverse
  | item :: rest => do displayItems ((← holding rest (display item)) :: done) rest

/-- The texts of the items of the list `l`, after those in `done`, last one first. The list itself
is shown as `[...]`. -/
def inspectItems (l : ListId) (done : List String) : List Value → Eval (List String)
  | [] => return done.reverse
  | item :: rest => do
    let text ← if item.list? = some l then pure "[...]" else holding rest (Eval.inspect item)
    inspectItems l (text :: done) rest

/-- Whether `a` belongs before `b`: as the block says, or else because it is less. -/
def sortsBefore (block : Option Value) (span : Span) (a b : Value) : Eval Bool := do
  match block with
  | some block => return (← callValue block [a, b] none span).isTruthy
  | none => return (← send a "<" [b] none span).isTruthy

/-- The elements with the one at a position set, after as many `nil`s as are missing. -/
def assignAt (items : Array Value) (i : Nat) (v : Value) : Array Value :=
  if i < items.size then items.setIfInBounds i v
  else (items ++ Array.replicate (i - items.size) Value.nil).push v

def withArgument (c : Call) (use : ListId → Eval Value) : Eval Value :=
  match c.arg 0 with
  | .list other => use other
  | _ => fault (.unexpected "a List argument") c.span

def joined (l : ListId) (separator : String) : Eval Value := do
  let items ← read (·.items l)
  let texts ← displayItems [] items.toList
  return .str (separator.intercalate texts)

def itemsOf (l m : ListId) : Eval (List Value × List Value) :=
  read fun s => ((s.items l).toList, (s.items m).toList)

def filled (c : Call) : Eval Value :=
  let size := ((c.arg 0).int?.getD 0).toInt
  if 2 < c.args.length then fault (.tooManyForList c.args.length) c.span
  else if size < 0 then fault .negativeSize c.span
  else if maxBuildLength < size.toNat then fault .tooLarge c.span
  else modifyGet (·.newList (Array.replicate size.toNat (c.arg 1)))

/-- Sets an element, whose index may be past the end. -/
def setItem (l : ListId) (c : Call) : Eval Value := do
  let size ← read fun s => (s.items l).size
  let index := (c.arg 0).int?.getD 0
  match Text.place? size index.toInt with
  | none => fault (.indexOutOfRange index) c.span
  | some i =>
    -- Only an index past the end makes the list longer.
    if size ≤ i && maxBuildLength < i + 1 then fault .tooLarge c.span
    else
      modify (·.modifyList l fun items => assignAt items i (c.arg 1))
      return c.arg 1

def visit? (r : ListRoutine) (c : Call) (first : Option Value) : Option (Visit × Nat) :=
  match r with
  | each => some (.each, 0)
  | eachWithIndex => some (.eachWithIndex, 0)
  | map => some (.map [], 0)
  | filter keep => some (.filter keep [], 0)
  | reduceFirst => first.map fun v => (.reduce v, 1)
  | reduce => some (.reduce (c.arg 0), 0)
  | find => some (.find, 0)
  | any => some (.decide true, 0)
  | all => some (.decide false, 0)
  | count => if c.block.isSome then some (.count 0, 0) else none
  | _ => none

def runOn (r : ListRoutine) (l : ListId) (c : Call) : Eval Value :=
  match r with
  | size | count => return .int (Int64.ofNat (← read fun s => (s.items l).size))
  | isEmpty => return .bool (← read fun s => (s.items l).isEmpty)
  | push => do
    modify (·.modifyList l fun items => items ++ c.args.toArray)
    return c.receiver
  | pop => do
    let last ← read fun s => (s.items l).back?
    modify (·.modifyList l Array.pop)
    return last.getD .nil
  | first => return (← read fun s => (s.items l)[0]?).getD .nil
  | last => return (← read fun s => (s.items l).back?).getD .nil
  | get => read fun s =>
    let items := s.items l
    ((Text.place? items.size ((c.arg 0).int?.getD 0).toInt).bind (items[·]?)).getD .nil
  | set => setItem l c
  | includes => do
    let items ← read fun s => (s.items l).toList
    return .bool (← holding items (containsItem (c.arg 0) items))
  | indexOf => do
    let items ← read fun s => (s.items l).toList
    match ← holding items (positionOf (c.arg 0) 0 items) with
    | some i => return .int (Int64.ofNat i)
    | none => return .nil
  | concat => withArgument c fun other => do
    let more ← read (·.items other)
    modify (·.modifyList l (· ++ more))
    return c.receiver
  | plus => withArgument c fun other =>
    modifyGet fun s => s.newList (s.items l ++ s.items other)
  | reverse => modifyGet fun s => s.newList (s.items l).reverse
  | joinPlain => joined l ""
  | join => joined l ((c.arg 0).str?.getD "")
  | sort => do
    let items ← read fun s => (s.items l).toList
    newList (← holding items (mergeSort (sortsBefore c.block c.span) items))
  | equal => match c.arg 0 with
    | .list other => do
      if l = other then return .bool true
      else
        let (as, bs) ← itemsOf l other
        if as.length = bs.length then
          return .bool (← holding as (holding bs (equalItems as bs)))
        else return .bool false
    | _ => return .bool false
  | less => withArgument c fun other => do
    let (as, bs) ← itemsOf l other
    return .bool (← holding as (holding bs (lessItems c.span as bs)))
  | isSubset => withArgument c fun other => do
    let (as, bs) ← itemsOf l other
    return .bool (← holding as (holding bs (subsetOf bs as)))
  | sameElements => withArgument c fun other => do
    let (as, bs) ← itemsOf l other
    if as.length = bs.length then return .bool (← holding as (pairUp bs.toArray as))
    else return .bool false
  | inspect => do
    let items ← read (·.items l)
    let texts ← inspectItems l [] items.toList
    return .str ("[" ++ ", ".intercalate texts ++ "]")
  | _ => return .nil

def needsBlock : ListRoutine → Bool
  | each | eachWithIndex | map | filter _ | reduceFirst | reduce | find => true
  | _ => false

def run (r : ListRoutine) (c : Call) : Eval Value :=
  match r, c.receiver with
  | newEmpty, _ => newList []
  | newFilled, _ => filled c
  | r, .list l =>
    if r.needsBlock && c.block.isNone then fault (.unexpected "a block") c.span
    else do
      let first ← read fun s => (s.items l)[0]?
      holding c.values (match r.visit? c first with
        | some (v, index) => perform (.visit v l c.block c.span index)
        | none => r.runOn l c)
  | _, _ => fault (.unexpected "a List") c.span

end ListRoutine

end Quill
