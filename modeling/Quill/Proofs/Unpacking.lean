import Quill.Builtin

/-!
# Reading calls strictly

A built-in method takes a call apart leniently: a missing argument is `nil`, what is no whole number
is `0` and what is no text is empty, and a receiver or block it cannot do without raises an error.
`Routine.strict` is the same work with none of that: it has no answer where a part of the call is
missing or of another shape. Main statements: `Routine.run_of_strict`, that it is the same work, and
`Routine.isSome_strict`, which parts of a call are enough for it.
-/

namespace Quill

open Eval

namespace Call

/-- What the argument at a position is, if there is one and it is of that shape. -/
def argAs? {α : Type} (c : Call) (i : Nat) (shape : Value → Option α) : Option α :=
  c.args[i]?.bind shape

end Call

namespace NumberRoutine

def strict (r : NumberRoutine) (c : Call) : Option (Eval Value) :=
  match r with
  | arithmetic op => (c.argAs? 0 some).bind fun other =>
    match c.receiver, other with
    | .int a, .int b => some (calculated ((op.onInts a b).map .int) c.span)
    | a, b => a.number?.bind fun x => b.number?.map fun y =>
      calculated ((op.onFloats x y).map .float) c.span
  | compare r => (c.argAs? 0 some).bind fun other =>
    match c.receiver, other with
    | .int a, .int b => some (return .bool (r.holds (some (Ord.compare a.toInt b.toInt))))
    | a, b => a.number?.bind fun x => b.number?.map fun y =>
      return .bool (r.holds (compareFloats x y))
  | equal => c.receiver.number?.bind fun _ => (c.argAs? 0 some).map fun other =>
    return .bool (c.receiver.scalarEq? other == some true)
  | negate => match c.receiver with
    | .int n => some do return .int (← calculated (checkedInt (-n.toInt)) c.span)
    | .float x => some (return .float (-x))
    | _ => none
  | abs => match c.receiver with
    | .int n => some do return .int (← calculated (checkedInt n.toInt.natAbs) c.span)
    | .float x => some (return .float x.abs)
    | _ => none
  | toText => match c.receiver with
    | .int n => some (return .str (toString n.toInt))
    | .float x => some (return .str (FloatNotation.spoken.write x))
    | _ => none
  | toInt => match c.receiver with
    | .int n => some (return .int n)
    | .float x => some (match Float.truncated? x with
      | some n => return .int n
      | none => fault (.noWholeNumber (FloatNotation.spoken.write x)) c.span)
    | _ => none
  | toFloat => c.receiver.number?.map fun x => return .float x
  | times => c.receiver.int?.bind fun n => c.block.map fun block => do
    let _ ← holding c.values (perform (.times n.toInt.toNat 0 block c.span))
    return .int n

end NumberRoutine

namespace TextRoutine

def strict (r : TextRoutine) (c : Call) : Option (Eval Value) :=
  c.receiver.name?.bind fun text =>
  match r with
  | concat => (c.argAs? 0 Value.str?).map fun other => return .str (text ++ other)
  | repeat_ => (c.argAs? 0 Value.int?).map fun count =>
    if count.toInt < 0 then fault .negativeRepeat c.span
    else if maxBuildLength < text.utf8ByteSize * count.toInt.toNat then fault .tooLarge c.span
    else return .str (repeated text count.toInt.toNat)
  | equal => (c.argAs? 0 some).map fun other =>
    return .bool (c.receiver.scalarEq? other == some true)
  | compare r => (c.argAs? 0 Value.str?).map fun other =>
    return .bool (r.holds (compareTexts text other))
  | size => some (return .int (Int64.ofNat text.length))
  | isEmpty => some (return .bool text.isEmpty)
  | upcase => some (return .str (String.ofList (Text.upper text.toList)))
  | downcase => some (return .str (String.ofList (Text.lower text.toList)))
  | includes => (c.argAs? 0 Value.str?).map fun other =>
    return .bool (Text.occursIn other.toList text.toList)
  | words => some (pieces (Text.words text.toList))
  | split => (c.argAs? 0 Value.str?).map fun other => pieces (Text.split other.toList text.toList)
  | chars => some (pieces (Text.split [] text.toList))
  | strip => some (return .str (String.ofList (Text.strip text.toList)))
  | itself => some (return c.receiver)
  | toSymbol => some (return .symbol text)
  | toText => some (return .str text)
  | inspect => match c.receiver with
    | .symbol _ => some (return .str (":" ++ text))
    | _ => some (return .str (Text.quote text))
  | at_ => (c.argAs? 0 Value.int?).map fun index =>
    match (Text.place? text.toList.length index.toInt).bind (text.toList[·]?) with
    | some ch => return .str ch.toString
    | none => return .nil

end TextRoutine

namespace ListRoutine

def onList (c : Call) (work : ListId → Eval Value) : Option (Eval Value) :=
  c.receiver.list?.map fun l => holding c.values (work l)

def withArg {α : Type} (c : Call) (shape : Value → Option α) (work : ListId → α → Eval Value) :
    Option (Eval Value) :=
  c.receiver.list?.bind fun l => (c.argAs? 0 shape).map fun a => holding c.values (work l a)

def withBlock (c : Call) (work : ListId → Value → Eval Value) : Option (Eval Value) :=
  c.receiver.list?.bind fun l => c.block.map fun block => holding c.values (work l block)

def strict (r : ListRoutine) (c : Call) : Option (Eval Value) :=
  match r with
  | newEmpty => some (newList [])
  | newFilled => (c.argAs? 0 Value.int?).map fun size =>
    if 2 < c.args.length then fault (.tooManyForList c.args.length) c.span
    else if size.toInt < 0 then fault .negativeSize c.span
    else if maxBuildLength < size.toInt.toNat then fault .tooLarge c.span
    -- The elements may be left out: then they are `nil`.
    else modifyGet (·.newList (Array.replicate size.toInt.toNat (c.arg 1)))
  | size => onList c fun l => do return .int (Int64.ofNat (← read fun s => (s.items l).size))
  | isEmpty => onList c fun l => do return .bool (← read fun s => (s.items l).isEmpty)
  | push => onList c fun l => do
    modify (·.modifyList l fun items => items ++ c.args.toArray)
    return c.receiver
  | pop => onList c fun l => do
    let last ← read fun s => (s.items l).back?
    modify (·.modifyList l Array.pop)
    return last.getD .nil
  | first => onList c fun l => do return (← read fun s => (s.items l)[0]?).getD .nil
  | last => onList c fun l => do return (← read fun s => (s.items l).back?).getD .nil
  | get => withArg c Value.int? fun l index => read fun s =>
    let items := s.items l
    ((Text.place? items.size index.toInt).bind (items[·]?)).getD .nil
  | set => (c.argAs? 1 some).bind fun v => withArg c Value.int? fun l index => do
    let size ← read fun s => (s.items l).size
    match Text.place? size index.toInt with
    | none => fault (.indexOutOfRange index) c.span
    | some i =>
      if size ≤ i && maxBuildLength < i + 1 then fault .tooLarge c.span
      else
        modify (·.modifyList l fun items => assignAt items i v)
        return v
  | each => withBlock c fun l block => perform (.visit .each l (some block) c.span 0)
  | eachWithIndex => withBlock c fun l block =>
    perform (.visit .eachWithIndex l (some block) c.span 0)
  | map => withBlock c fun l block => perform (.visit (.map []) l (some block) c.span 0)
  | filter keep => withBlock c fun l block =>
    perform (.visit (.filter keep []) l (some block) c.span 0)
  | reduceFirst => withBlock c fun l block => do
    match ← read fun s => (s.items l)[0]? with
    | some v => perform (.visit (.reduce v) l (some block) c.span 1)
    | none => return .nil
  | reduce => (c.argAs? 0 some).bind fun v => withBlock c fun l block =>
    perform (.visit (.reduce v) l (some block) c.span 0)
  | find => withBlock c fun l block => perform (.visit .find l (some block) c.span 0)
  -- The block of these may be left out: then the elements themselves are tested, or counted.
  | any => onList c fun l => perform (.visit (.decide true) l c.block c.span 0)
  | all => onList c fun l => perform (.visit (.decide false) l c.block c.span 0)
  | count => onList c fun l => match c.block with
    | some block => perform (.visit (.count 0) l (some block) c.span 0)
    | none => do return .int (Int64.ofNat (← read fun s => (s.items l).size))
  | includes => withArg c some fun l needle => do
    let items ← read fun s => (s.items l).toList
    return .bool (← holding items (containsItem needle items))
  | indexOf => withArg c some fun l needle => do
    let items ← read fun s => (s.items l).toList
    match ← holding items (positionOf needle 0 items) with
    | some i => return .int (Int64.ofNat i)
    | none => return .nil
  | concat => withArg c Value.list? fun l other => do
    let more ← read (·.items other)
    modify (·.modifyList l (· ++ more))
    return c.receiver
  | plus => withArg c Value.list? fun l other =>
    modifyGet fun s => s.newList (s.items l ++ s.items other)
  | reverse => onList c fun l => modifyGet fun s => s.newList (s.items l).reverse
  | joinPlain => onList c fun l => joined l ""
  | join => withArg c Value.str? joined
  -- So may the block of this one: then the elements are compared with `<`.
  | sort => onList c fun l => do
    let items ← read fun s => (s.items l).toList
    newList (← holding items (mergeSort (sortsBefore c.block c.span) items))
  | equal => withArg c some fun l other => match other with
    | .list other => do
      if l = other then return .bool true
      else
        let (as, bs) ← itemsOf l other
        if as.length = bs.length then
          return .bool (← holding as (holding bs (equalItems as bs)))
        else return .bool false
    | _ => return .bool false
  | less => withArg c Value.list? fun l other => do
    let (as, bs) ← itemsOf l other
    return .bool (← holding as (holding bs (lessItems c.span as bs)))
  | isSubset => withArg c Value.list? fun l other => do
    let (as, bs) ← itemsOf l other
    return .bool (← holding as (holding bs (subsetOf bs as)))
  | sameElements => withArg c Value.list? fun l other => do
    let (as, bs) ← itemsOf l other
    if as.length = bs.length then return .bool (← holding as (pairUp bs.toArray as))
    else return .bool false
  | inspect => onList c fun l => do
    let items ← read (·.items l)
    let texts ← inspectItems l [] items.toList
    return .str ("[" ++ ", ".intercalate texts ++ "]")

end ListRoutine

namespace ObjectRoutine

def strict (r : ObjectRoutine) (c : Call) : Option (Eval Value) :=
  match r with
  | nothing => some (return .nil)
  | identical => (c.argAs? 0 some).map fun other => return .bool (c.receiver.identical other)
  | notEqual => some do
    let equal ← holding c.block.toList (Eval.send c.receiver "==" c.args none c.span)
    return .bool (!equal.isTruthy)
  | class_ => some do return .type (← read (·.typeOf c.receiver))
  | isA => (c.argAs? 0 Value.type?).map fun t => do
    return .bool (← read (·.isInstance c.receiver t))
  | respondTo => (c.argAs? 0 Value.name?).map fun name => do
    return .bool (← read (·.respondsTo c.receiver name))
  | isNil => some (return .bool c.receiver.isNil)
  | toText => some do
    let own ← read (·.plainText? c.receiver)
    return .str (own.getD ("#<" ++ (← read (·.typeName c.receiver)) ++ ">"))
  | inspect => some (holding c.values (inspectObject c.receiver))
  | send => match c.args with
    | [] => none
    | name :: rest => some (match name.name? with
      | some name => Eval.send c.receiver name rest c.block c.span
      | none => fault .badMethodName c.span)
  | print => some do
    holding c.values (printAll c.args)
    return .nil
  | puts => some do
    if c.args.isEmpty then write "\n"
    holding c.values (putAll c.args)
    return .nil
  | p => some do
    holding c.values (showAll c.args)
    match c.args with
    | [] => return .nil
    | [v] => return v
    | vs => newList vs
  | lambda => c.block.map fun block => return block

end ObjectRoutine

namespace ErrorRoutine

def strict (r : ErrorRoutine) (c : Call) : Option (Eval Value) :=
  c.receiver.object?.map fun o =>
  match r with
  -- The message may be left out: then it is `nil`.
  | init => do
    modify (·.setObjectAttr o "message" (c.arg 0))
    return .nil
  | message => read (·.attr (.object o) "message")

end ErrorRoutine

namespace LambdaRoutine

def strict (r : LambdaRoutine) (c : Call) : Option (Eval Value) :=
  c.receiver.lambda?.map fun l =>
  match r with
  | call => holding [.lambda l] (perform (.callLambda l c.args c.block c.span))
  | arity => do
    match ← read (·.lambda? l) with
    | some l => return .int (Int64.ofInt l.arity)
    | none => return .nil

end LambdaRoutine

namespace TypeRoutine

def strict (r : TypeRoutine) (c : Call) : Option (Eval Value) :=
  c.receiver.type?.bind fun t =>
  match r with
  | name => some do return .str (← read (·.types.name t))
  | ancestors => some do newList ((← read (·.types.ancestors t)).map .type)
  | instanceMethods => some do symbols (← about t [] (·.methods.names))
  | classMethods => some do symbols (← about t [] (·.classMethods.names))
  | constants => some do symbols (← about t [] (·.constants.names))
  | doc => some do return ((← about t none (·.doc)).map .str).getD .nil
  | methodDoc => (c.argAs? 0 Value.name?).map fun method => do
    return ((← read (·.types.methodDoc t method)).map .str).getD .nil
  | includes => (c.argAs? 0 Value.type?).map fun m => do
    return .bool (← read (·.types.includesModule t m))
  | superclass => some do return ((← read (·.types.superclass t)).map .type).getD .nil
  | new => some (instantiate t c)

end TypeRoutine

namespace Routine

def isHost : Routine → Bool
  | host _ => true
  | _ => false

/-- The work on a call if all parts that it is done with are there and as they should be. What a
host adds has no signature to rely on. -/
def strict : Routine → Call → Option (Eval Value)
  | object r => r.strict
  | error r => r.strict
  | lambda r => r.strict
  | number r => r.strict
  | text r => r.strict
  | list r => r.strict
  | type r => r.strict
  | host _ => fun _ => none

end Routine

/-! ## The same work -/

namespace Call

variable {α : Type} {c : Call} {i : Nat} {shape : Value → Option α} {a : α}

theorem arg_of_argAs? (h : c.argAs? i shape = some a) : shape (c.arg i) = some a := by
  obtain ⟨v, hv, ha⟩ := Option.bind_eq_some_iff.mp h
  rw [arg, List.getD_eq_getElem?_getD, hv]
  exact ha

theorem arg_eq {v : Value} (h : c.argAs? i some = some v) : c.arg i = v :=
  Option.some.inj (arg_of_argAs? h)

theorem argAs?_eq_none (h : shape (c.arg i) = none) : c.argAs? i shape = none := by
  cases ha : c.argAs? i shape with
  | none => rfl
  | some a =>
    rw [arg_of_argAs? ha] at h
    cases h

end Call

namespace Value

variable {v : Value}

theorem int?_eq_some {n : Int64} : v.int? = some n ↔ v = .int n := by
  cases v <;> simp [int?]

theorem list?_eq_some {l : ListId} : v.list? = some l ↔ v = .list l := by
  cases v <;> simp [list?]

theorem lambda?_eq_some {l : LambdaId} : v.lambda? = some l ↔ v = .lambda l := by
  cases v <;> simp [lambda?]

theorem type?_eq_some {t : TypeId} : v.type? = some t ↔ v = .type t := by
  cases v <;> simp [type?]

theorem object?_eq_some {o : ObjectId} : v.object? = some o ↔ v = .object o := by
  cases v <;> simp [object?]

theorem scalarEq?_getD (a b : Value) : 
    (a.scalarEq? b).getD false = (a.scalarEq? b == some true) := by
  rcases a.scalarEq? b with _ | _ | _ <;> rfl

end Value

variable {c : Call} {x : Eval Value}

namespace NumberRoutine

theorem onValues_floats (op : Arithmetic) {a b : Value} {x y : Float} (ha : a.number? = some x)
    (hb : b.number? = some y) (h : ∀ m n, a = .int m → b ≠ .int n) :
    op.onValues a b = (op.onFloats x y).map .float := by
  unfold Arithmetic.onValues
  split
  · exact absurd rfl (h _ _ rfl)
  · rw [ha, hb]

theorem compareNumbers_floats {a b : Value} {x y : Float} (ha : a.number? = some x)
    (hb : b.number? = some y) (h : ∀ m n, a = .int m → b ≠ .int n) :
    compareNumbers a b = compareFloats x y := by
  unfold compareNumbers
  split
  · exact absurd rfl (h _ _ rfl)
  · rw [ha, hb]

theorem run_of_strict {r : NumberRoutine} (h : r.strict c = some x) : r.run c = x := by
  cases r with
  | arithmetic op =>
    obtain ⟨other, hother, h⟩ := Option.bind_eq_some_iff.mp h
    rw [run, Call.arg_eq hother]
    split at h
    · rename_i m n hm
      rw [hm]
      exact Option.some.inj h
    · rename_i hints
      obtain ⟨x, hx, h⟩ := Option.bind_eq_some_iff.mp h
      obtain ⟨y, hy, rfl⟩ := Option.map_eq_some_iff.mp h
      rw [onValues_floats op hx hy fun m n hm hn ↦ hints m n hm hn]
  | compare r =>
    obtain ⟨other, hother, h⟩ := Option.bind_eq_some_iff.mp h
    rw [run, Call.arg_eq hother]
    split at h
    · rename_i m n hm
      rw [hm]
      exact Option.some.inj h
    · rename_i hints
      obtain ⟨x, hx, h⟩ := Option.bind_eq_some_iff.mp h
      obtain ⟨y, hy, rfl⟩ := Option.map_eq_some_iff.mp h
      rw [compareNumbers_floats hx hy fun m n hm hn ↦ hints m n hm hn]
  | equal =>
    obtain ⟨_, -, h⟩ := Option.bind_eq_some_iff.mp h
    obtain ⟨other, hother, rfl⟩ := Option.map_eq_some_iff.mp h
    rw [run, Call.arg_eq hother, Value.scalarEq?_getD]
  | toFloat =>
    obtain ⟨y, hy, rfl⟩ := Option.map_eq_some_iff.mp h
    rw [run, hy]
  | times =>
    obtain ⟨n, hn, h⟩ := Option.bind_eq_some_iff.mp h
    obtain ⟨block, hblock, rfl⟩ := Option.map_eq_some_iff.mp h
    rw [run, Value.int?_eq_some.mp hn, hblock]
  | negate | abs | toText | toInt =>
    unfold strict at h
    unfold run
    cases hreceiver : c.receiver with
    | int n =>
      rw [hreceiver] at h
      exact Option.some.inj h
    | float y =>
      rw [hreceiver] at h
      exact Option.some.inj h
    | _ =>
      rw [hreceiver] at h
      cases h

end NumberRoutine

namespace TextRoutine

theorem run_of_strict {r : TextRoutine} (h : r.strict c = some x) : r.run c = x := by
  obtain ⟨text, htext, h⟩ := Option.bind_eq_some_iff.mp h
  unfold run
  rw [htext]
  cases r with
  | concat | compare | includes | split =>
    obtain ⟨other, hother, rfl⟩ := Option.map_eq_some_iff.mp h
    rw [Call.arg_of_argAs? hother]
    rfl
  | repeat_ =>
    obtain ⟨count, hcount, rfl⟩ := Option.map_eq_some_iff.mp h
    rw [Call.arg_of_argAs? hcount]
    rfl
  | at_ =>
    obtain ⟨index, hindex, rfl⟩ := Option.map_eq_some_iff.mp h
    rw [Call.arg_of_argAs? hindex]
    rfl
  | equal =>
    obtain ⟨other, hother, rfl⟩ := Option.map_eq_some_iff.mp h
    dsimp only
    rw [Call.arg_eq hother, Value.scalarEq?_getD]
  | inspect =>
    dsimp only at h ⊢
    cases hreceiver : c.receiver with
    | str s =>
      rw [hreceiver] at h htext
      cases htext
      exact Option.some.inj h
    | symbol s =>
      rw [hreceiver] at h htext
      cases htext
      exact Option.some.inj h
    | _ =>
      rw [hreceiver] at htext
      cases htext
  | _ => exact Option.some.inj h

end TextRoutine

namespace ObjectRoutine

theorem run_of_strict {r : ObjectRoutine} (h : r.strict c = some x) : r.run c = x := by
  cases r with
  | identical =>
    obtain ⟨other, hother, rfl⟩ := Option.map_eq_some_iff.mp h
    rw [run, Call.arg_eq hother]
  | isA =>
    obtain ⟨t, ht, rfl⟩ := Option.map_eq_some_iff.mp h
    rw [run, Value.type?_eq_some.mp (Call.arg_of_argAs? ht)]
  | respondTo =>
    obtain ⟨name, hname, rfl⟩ := Option.map_eq_some_iff.mp h
    rw [run, Call.arg_of_argAs? hname]
  | send =>
    rw [strict] at h
    rw [run]
    cases hargs : c.args with
    | nil =>
      rw [hargs] at h
      cases h
    | cons name rest =>
      rw [hargs] at h
      exact Option.some.inj h
  | lambda =>
    obtain ⟨block, hblock, rfl⟩ := Option.map_eq_some_iff.mp h
    rw [run, hblock]
  | _ => exact Option.some.inj h

end ObjectRoutine

theorem ErrorRoutine.run_of_strict {r : ErrorRoutine} (h : r.strict c = some x) : r.run c = x := by
  obtain ⟨o, ho, rfl⟩ := Option.map_eq_some_iff.mp h
  cases r <;> rw [run, Value.object?_eq_some.mp ho]

theorem LambdaRoutine.run_of_strict {r : LambdaRoutine} (h : r.strict c = some x) :
    r.run c = x := by
  obtain ⟨l, hl, rfl⟩ := Option.map_eq_some_iff.mp h
  unfold run
  rw [Value.lambda?_eq_some.mp hl]
  cases r <;> rfl

theorem TypeRoutine.run_of_strict {r : TypeRoutine} (h : r.strict c = some x) : r.run c = x := by
  obtain ⟨t, ht, h⟩ := Option.bind_eq_some_iff.mp h
  rw [run, Value.type?_eq_some.mp ht]
  cases r with
  | methodDoc =>
    obtain ⟨method, hmethod, rfl⟩ := Option.map_eq_some_iff.mp h
    dsimp only
    rw [runOn, Call.arg_of_argAs? hmethod]
  | includes =>
    obtain ⟨m, hm, rfl⟩ := Option.map_eq_some_iff.mp h
    dsimp only
    rw [runOn, Value.type?_eq_some.mp (Call.arg_of_argAs? hm)]
  | _ => exact Option.some.inj h

namespace ListRoutine

variable {r : ListRoutine} {l : ListId} {v : Value}

/-- What the methods of lists do with a list, once they have looked at its first element. -/
theorem run_apply (hr : r ≠ .newEmpty ∧ r ≠ .newFilled) (hl : c.receiver = .list l)
    (hb : (r.needsBlock && c.block.isNone) = false) (s : State) :
    r.run c s = holding c.values (match r.visit? c (s.items l)[0]? with
      | some (v, index) => perform (.visit v l c.block c.span index)
      | none => r.runOn l c) s := by
  have hrun : r.run c = Eval.read (fun s ↦ (s.items l)[0]?) >>= fun first ↦
      holding c.values (match r.visit? c first with
        | some (v, index) => perform (.visit v l c.block c.span index)
        | none => r.runOn l c) := by
    unfold run
    rw [hl]
    split
    · exact absurd rfl hr.1
    · exact absurd rfl hr.2
    · rename_i hlist
      cases hlist
      exact if_neg (by rw [hb]; exact Bool.false_ne_true)
    · rename_i hother
      exact absurd rfl (hother l)
  rw [hrun]
  rfl

theorem run_list (hr : r ≠ .newEmpty ∧ r ≠ .newFilled) (hblock : r.needsBlock = false)
    (hvisit : ∀ first, r.visit? c first = none) (hl : c.receiver = .list l) (s : State) :
    r.run c s = holding c.values (r.runOn l c) s := by
  rw [run_apply hr hl (by rw [hblock, Bool.false_and]), hvisit]

theorem run_of_strict (h : r.strict c = some x) : r.run c = x := by
  cases r with
  | newEmpty => exact Option.some.inj h
  | newFilled =>
    obtain ⟨size, hsize, rfl⟩ := Option.map_eq_some_iff.mp h
    unfold run filled
    rw [Call.arg_of_argAs? hsize]
    rfl
  | size | isEmpty | push | pop | first | last | any | all | reverse | joinPlain | sort | inspect =>
    obtain ⟨l, hl, rfl⟩ := Option.map_eq_some_iff.mp h
    funext s
    rw [run_apply (by decide) (Value.list?_eq_some.mp hl) rfl]
    rfl
  | count =>
    obtain ⟨l, hl, rfl⟩ := Option.map_eq_some_iff.mp h
    funext s
    rw [run_apply (by decide) (Value.list?_eq_some.mp hl) rfl, visit?]
    cases c.block <;> rfl
  | each | eachWithIndex | map | filter | find =>
    obtain ⟨l, hl, h⟩ := Option.bind_eq_some_iff.mp h
    obtain ⟨block, hblock, rfl⟩ := Option.map_eq_some_iff.mp h
    funext s
    rw [run_apply (by simp) (Value.list?_eq_some.mp hl) (by rw [hblock]; rfl), hblock]
    rfl
  | reduceFirst =>
    obtain ⟨l, hl, h⟩ := Option.bind_eq_some_iff.mp h
    obtain ⟨block, hblock, rfl⟩ := Option.map_eq_some_iff.mp h
    funext s
    rw [run_apply (by decide) (Value.list?_eq_some.mp hl) (by rw [hblock]; rfl), hblock]
    change _ = holding c.values (match (s.items l)[0]? with
      | some v => perform (.visit (.reduce v) l (some block) c.span 1)
      | none => pure .nil) s
    cases hfirst : (s.items l)[0]? with
    | some v => simp only [visit?, Option.map_some]
    | none => rfl
  | reduce =>
    obtain ⟨v, hv, h⟩ := Option.bind_eq_some_iff.mp h
    obtain ⟨l, hl, h⟩ := Option.bind_eq_some_iff.mp h
    obtain ⟨block, hblock, rfl⟩ := Option.map_eq_some_iff.mp h
    funext s
    rw [run_apply (by decide) (Value.list?_eq_some.mp hl) (by rw [hblock]; rfl), hblock, visit?,
      Call.arg_eq hv]
  | get | join =>
    obtain ⟨l, hl, h⟩ := Option.bind_eq_some_iff.mp h
    obtain ⟨a, ha, rfl⟩ := Option.map_eq_some_iff.mp h
    funext s
    rw [run_list (by decide) rfl (fun _ ↦ rfl) (Value.list?_eq_some.mp hl), runOn,
      Call.arg_of_argAs? ha]
    rfl
  | set =>
    obtain ⟨v, hv, h⟩ := Option.bind_eq_some_iff.mp h
    obtain ⟨l, hl, h⟩ := Option.bind_eq_some_iff.mp h
    obtain ⟨index, hindex, rfl⟩ := Option.map_eq_some_iff.mp h
    funext s
    rw [run_list (by decide) rfl (fun _ ↦ rfl) (Value.list?_eq_some.mp hl), runOn, setItem,
      Call.arg_of_argAs? hindex, Call.arg_eq hv]
    rfl
  | includes =>
    obtain ⟨l, hl, h⟩ := Option.bind_eq_some_iff.mp h
    obtain ⟨needle, hneedle, rfl⟩ := Option.map_eq_some_iff.mp h
    funext s
    rw [run_list (by decide) rfl (fun _ ↦ rfl) (Value.list?_eq_some.mp hl), runOn,
      Call.arg_eq hneedle]
  | indexOf | equal =>
    obtain ⟨l, hl, h⟩ := Option.bind_eq_some_iff.mp h
    obtain ⟨other, hother, rfl⟩ := Option.map_eq_some_iff.mp h
    funext s
    rewrite [run_list (by decide) rfl (fun _ ↦ rfl) (Value.list?_eq_some.mp hl), runOn,
      Call.arg_eq hother]
    rfl
  | concat | plus | less | isSubset | sameElements =>
    obtain ⟨l, hl, h⟩ := Option.bind_eq_some_iff.mp h
    obtain ⟨m, hm, rfl⟩ := Option.map_eq_some_iff.mp h
    funext s
    rw [run_list (by decide) rfl (fun _ ↦ rfl) (Value.list?_eq_some.mp hl), runOn, withArgument,
      Value.list?_eq_some.mp (Call.arg_of_argAs? hm)]

end ListRoutine

theorem Routine.run_of_strict {r : Routine} (h : r.strict c = some x) : r.run c = x := by
  cases r with
  | object r => exact r.run_of_strict h
  | error r => exact r.run_of_strict h
  | lambda r => exact r.run_of_strict h
  | number r => exact r.run_of_strict h
  | text r => exact r.run_of_strict h
  | list r => exact r.run_of_strict h
  | type r => exact r.run_of_strict h
  | host r => cases h

/-! ## What has to be there -/

/-- A part of a call that a built-in method takes, and the shapes that it may be of. -/
inductive Need where
  | receiver (shapes : List Expect)
  /-- The argument with this position, counted from 0. -/
  | argument (position : Nat) (shapes : List Expect)
  | block
  deriving DecidableEq, Repr

def Need.metBy (sortOf : TypeId → TypeSort) (c : Call) : Need → Bool
  | receiver shapes => shapes.any (·.accepts sortOf c.receiver)
  | argument i shapes => c.args[i]?.any fun v => shapes.any (·.accepts sortOf v)
  | block => c.block.isSome

def NumberRoutine.needs : NumberRoutine → List Need
  | arithmetic _ | compare _ => [.receiver [.number], .argument 0 [.number]]
  | equal => [.receiver [.number], .argument 0 [.any]]
  | times => [.receiver [.int], .block]
  | _ => [.receiver [.number]]

def TextRoutine.needs : TextRoutine → List Need
  | concat | compare _ | includes | split => [.receiver [.string, .symbol], .argument 0 [.string]]
  | repeat_ | at_ => [.receiver [.string, .symbol], .argument 0 [.int]]
  | equal => [.receiver [.string, .symbol], .argument 0 [.any]]
  | _ => [.receiver [.string, .symbol]]

def ListRoutine.needs : ListRoutine → List Need
  | newEmpty => []
  | newFilled => [.argument 0 [.int]]
  | get => [.receiver [.list], .argument 0 [.int]]
  | set => [.argument 1 [.any], .receiver [.list], .argument 0 [.int]]
  | each | eachWithIndex | map | filter _ | reduceFirst | find => [.receiver [.list], .block]
  | reduce => [.argument 0 [.any], .receiver [.list], .block]
  | includes | indexOf | equal => [.receiver [.list], .argument 0 [.any]]
  | concat | plus | less | isSubset | sameElements => [.receiver [.list], .argument 0 [.list]]
  | join => [.receiver [.list], .argument 0 [.string]]
  | _ => [.receiver [.list]]

def ObjectRoutine.needs : ObjectRoutine → List Need
  | identical | send => [.argument 0 [.any]]
  | isA => [.argument 0 [.module]]
  | respondTo => [.argument 0 [.string, .symbol]]
  | lambda => [.block]
  | _ => []

def TypeRoutine.needs : TypeRoutine → List Need
  | methodDoc => [.receiver [.module], .argument 0 [.string, .symbol]]
  | includes => [.receiver [.module], .argument 0 [.module]]
  | _ => [.receiver [.module]]

/-- The parts of a call that the work is done with, apart from those that may be left out. -/
def Routine.needs : Routine → List Need
  | object r => r.needs
  | error _ => [.receiver [.object]]
  | lambda _ => [.receiver [.lambda]]
  | number r => r.needs
  | text r => r.needs
  | list r => r.needs
  | type r => r.needs
  | host _ => []

section

variable {sortOf : TypeId → TypeSort} {v : Value}

namespace Expect

theorem any_any : [any].any (·.accepts sortOf v) = (some v).isSome := by cases v <;> rfl

theorem any_int : [int].any (·.accepts sortOf v) = v.int?.isSome := by cases v <;> rfl

theorem any_number : [number].any (·.accepts sortOf v) = v.number?.isSome := by cases v <;> rfl

theorem any_string : [string].any (·.accepts sortOf v) = v.str?.isSome := by cases v <;> rfl

theorem any_name : [string, symbol].any (·.accepts sortOf v) = v.name?.isSome := by
  cases v <;> rfl

theorem any_list : [list].any (·.accepts sortOf v) = v.list?.isSome := by cases v <;> rfl

theorem any_lambda : [lambda].any (·.accepts sortOf v) = v.lambda?.isSome := by cases v <;> rfl

theorem any_module : [module].any (·.accepts sortOf v) = v.type?.isSome := by cases v <;> rfl

theorem any_object : [object].any (·.accepts sortOf v) = v.object?.isSome := by cases v <;> rfl

end Expect

theorem isSome_bind_const {α β : Type} {o : Option α} {f : α → Option β} {b : Bool}
    (h : ∀ a, (f a).isSome = b) : (o.bind f).isSome = (o.isSome && b) := by
  cases o with
  | none => rfl
  | some a => exact h a

theorem isSome_bind_some {α β : Type} {o : Option α} {f : α → Option β}
    (h : ∀ a, (f a).isSome = true) : (o.bind f).isSome = o.isSome := by
  rw [isSome_bind_const h, Bool.and_true]

namespace Need

variable {α : Type} {shapes : List Expect} {shape : Value → Option α}

theorem receiver_metBy (h : ∀ v, shapes.any (·.accepts sortOf v) = (shape v).isSome) :
    (receiver shapes).metBy sortOf c = (shape c.receiver).isSome := h _

theorem argument_metBy (i : Nat) (h : ∀ v, shapes.any (·.accepts sortOf v) = (shape v).isSome) :
    (argument i shapes).metBy sortOf c = (c.argAs? i shape).isSome := by
  rw [metBy, Call.argAs?]
  cases c.args[i]? with
  | none => rfl
  | some v => exact h v

theorem block_metBy : block.metBy sortOf c = c.block.isSome := rfl

end Need

theorem NumberRoutine.isSome_strict (r : NumberRoutine) (c : Call) :
    (r.strict c).isSome = r.needs.all (·.metBy sortOf c) := by
  cases r with
  | arithmetic op | compare r =>
    simp only [strict, needs, Call.argAs?, Need.metBy, List.all_cons, List.any_cons]
    cases c.args[0]? with
    | none => cases c.receiver <;> rfl
    | some v => cases c.receiver <;> cases v <;> rfl
  | equal =>
    simp only [needs, List.all_cons, List.all_nil, Bool.and_true,
      Need.receiver_metBy fun _ ↦ Expect.any_number, Need.argument_metBy 0 fun _ ↦ Expect.any_any]
    exact isSome_bind_const fun _ ↦ Option.isSome_map
  | times =>
    simp only [needs, List.all_cons, List.all_nil, Bool.and_true,
      Need.receiver_metBy fun _ ↦ Expect.any_int, Need.block_metBy]
    exact isSome_bind_const fun _ ↦ Option.isSome_map
  | _ =>
    simp only [strict, needs, Need.metBy, List.all_cons, List.any_cons]
    cases c.receiver <;> rfl

theorem TextRoutine.isSome_strict (r : TextRoutine) (c : Call) :
    (r.strict c).isSome = r.needs.all (·.metBy sortOf c) := by
  cases r with
  | inspect =>
    simp only [strict, needs, Need.metBy, List.all_cons, List.any_cons]
    cases c.receiver <;> rfl
  | _ =>
    simp only [needs, List.all_cons, List.all_nil, Bool.and_true,
      Need.receiver_metBy fun _ ↦ Expect.any_name, Need.argument_metBy 0 fun _ ↦ Expect.any_string,
      Need.argument_metBy 0 fun _ ↦ Expect.any_int, Need.argument_metBy 0 fun _ ↦ Expect.any_any]
    first
    | exact isSome_bind_const fun _ ↦ Option.isSome_map
    | exact isSome_bind_some fun _ ↦ rfl

namespace ListRoutine

theorem isSome_withArg {α : Type} {shape : Value → Option α} {work : ListId → α → Eval Value} :
    (withArg c shape work).isSome = (c.receiver.list?.isSome && (c.argAs? 0 shape).isSome) :=
  isSome_bind_const fun _ ↦ Option.isSome_map

theorem isSome_withBlock {work : ListId → Value → Eval Value} :
    (withBlock c work).isSome = (c.receiver.list?.isSome && c.block.isSome) :=
  isSome_bind_const fun _ ↦ Option.isSome_map

theorem isSome_strict (r : ListRoutine) (c : Call) :
    (r.strict c).isSome = r.needs.all (·.metBy sortOf c) := by
  cases r <;> simp only [needs, List.all_cons, List.all_nil, Bool.and_true,
    Need.receiver_metBy fun _ ↦ Expect.any_list, Need.argument_metBy 0 fun _ ↦ Expect.any_any,
    Need.argument_metBy 0 fun _ ↦ Expect.any_int, Need.argument_metBy 0 fun _ ↦ Expect.any_string,
    Need.argument_metBy 0 fun _ ↦ Expect.any_list, Need.argument_metBy 1 fun _ ↦ Expect.any_any,
    Need.block_metBy]
  case newEmpty => rfl
  case newFilled => exact Option.isSome_map
  case set => exact isSome_bind_const fun _ ↦ isSome_withArg
  case reduce => exact isSome_bind_const fun _ ↦ isSome_withBlock
  case each | eachWithIndex | map | filter | reduceFirst | find => exact isSome_withBlock
  case get | includes | indexOf | concat | plus | join | equal | less | isSubset | sameElements =>
    exact isSome_withArg
  all_goals exact Option.isSome_map

theorem strict_of_unmet {r : ListRoutine} {n : Need} (hn : n ∈ r.needs)
    (h : n.metBy sortOf c = false) : r.strict c = none := by
  refine Option.not_isSome_iff_eq_none.mp fun hsome ↦ ?_
  rw [r.isSome_strict c, List.all_eq_true] at hsome
  rw [hsome n hn] at h
  cases h

theorem needs_list {r : ListRoutine} (hr : r ≠ .newEmpty ∧ r ≠ .newFilled) :
    .receiver [.list] ∈ r.needs := by
  cases r <;> simp_all [needs]

theorem needs_block {r : ListRoutine} (h : r.needsBlock = true) : .block ∈ r.needs := by
  cases r <;> simp_all [needs, needsBlock]

end ListRoutine

theorem ObjectRoutine.isSome_strict (r : ObjectRoutine) (c : Call) :
    (r.strict c).isSome = r.needs.all (·.metBy sortOf c) := by
  cases r with
  | identical | isA | respondTo =>
    simp only [needs, List.all_cons, List.all_nil, Bool.and_true,
      Need.argument_metBy 0 fun _ ↦ Expect.any_any, Need.argument_metBy 0 fun _ ↦ Expect.any_name,
      Need.argument_metBy 0 fun _ ↦ Expect.any_module]
    exact Option.isSome_map
  | send =>
    simp only [needs, List.all_cons, List.all_nil, Bool.and_true,
      Need.argument_metBy 0 fun _ ↦ Expect.any_any]
    rw [strict, Call.argAs?]
    cases c.args <;> rfl
  | lambda =>
    simp only [needs, List.all_cons, List.all_nil, Bool.and_true, Need.block_metBy]
    exact Option.isSome_map
  | _ => rfl

theorem TypeRoutine.isSome_strict (r : TypeRoutine) (c : Call) :
    (r.strict c).isSome = r.needs.all (·.metBy sortOf c) := by
  cases r <;> simp only [needs, List.all_cons, List.all_nil, Bool.and_true,
    Need.receiver_metBy fun _ ↦ Expect.any_module, Need.argument_metBy 0 fun _ ↦ Expect.any_name,
    Need.argument_metBy 0 fun _ ↦ Expect.any_module]
  case methodDoc | includes => exact isSome_bind_const fun _ ↦ Option.isSome_map
  all_goals exact isSome_bind_some fun _ ↦ rfl

theorem Routine.isSome_strict {r : Routine} (h : r.isHost = false) (c : Call) :
    (r.strict c).isSome = r.needs.all (·.metBy sortOf c) := by
  cases r with
  | object r => exact r.isSome_strict c
  | error r =>
    simp only [needs, List.all_cons, List.all_nil, Bool.and_true,
      Need.receiver_metBy fun _ ↦ Expect.any_object]
    exact Option.isSome_map
  | lambda r =>
    simp only [needs, List.all_cons, List.all_nil, Bool.and_true,
      Need.receiver_metBy fun _ ↦ Expect.any_lambda]
    exact Option.isSome_map
  | number r => exact r.isSome_strict c
  | text r => exact r.isSome_strict c
  | list r => exact r.isSome_strict c
  | type r => exact r.isSome_strict c
  | host r => cases h

end

end Quill
