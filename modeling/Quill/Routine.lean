import Quill.Signature

/-!
# Built-in methods

The methods that come with the language, as a table: on which type, under which name, with which
signature, and what each of them does. What a host adds comes from a few more routines.
-/

namespace Quill

inductive Arithmetic where
  | add | sub | mul | div | mod
  deriving DecidableEq, Inhabited, Repr

inductive Relation where
  | less | lessEq | greater | greaterEq
  deriving DecidableEq, Inhabited, Repr

namespace Relation

def holds : Relation → Option Ordering → Bool
  | less, some .lt => true
  | lessEq, some .lt | lessEq, some .eq => true
  | greater, some .gt => true
  | greaterEq, some .gt | greaterEq, some .eq => true
  | _, _ => false

end Relation

inductive ObjectRoutine where
  | nothing | identical | notEqual | class_ | isA | respondTo | isNil | toText | inspect | send
  | print | puts | p | lambda
  deriving DecidableEq, Inhabited, Repr

inductive ErrorRoutine where
  | init | message
  deriving DecidableEq, Inhabited, Repr

inductive LambdaRoutine where
  | call | arity
  deriving DecidableEq, Inhabited, Repr

inductive NumberRoutine where
  | arithmetic (op : Arithmetic)
  | compare (r : Relation)
  | equal | negate | abs | toText | toInt | toFloat | times
  deriving DecidableEq, Inhabited, Repr

inductive TextRoutine where
  | concat | repeat_ | equal
  | compare (r : Relation)
  | size | isEmpty | upcase | downcase | includes | words | split | chars | strip | itself
  | toSymbol | toText | inspect | at_
  deriving DecidableEq, Inhabited, Repr

inductive ListRoutine where
  | newEmpty | newFilled | size | isEmpty | push | pop | first | last | get | set
  | each | eachWithIndex | map
  | filter (keep : Bool)
  | reduceFirst | reduce | find | any | all | count | includes | indexOf
  | concat | plus | reverse | joinPlain | join | sort | equal | less | isSubset | sameElements
  | inspect
  deriving DecidableEq, Inhabited, Repr

inductive TypeRoutine where
  | name | ancestors | instanceMethods | classMethods | constants | doc | methodDoc | includes
  | superclass | new
  deriving DecidableEq, Inhabited, Repr

/-- Methods for a host to add to a type. -/
inductive HostRoutine where
  /-- Lists the receiver, the arguments and whether there is a block. -/
  | echo
  /-- Calls the block, or else the first argument, with all arguments. -/
  | apply
  /-- Sends on what the first argument names. -/
  | forward
  /-- Raises its argument: a text as a runtime error, a symbol as an argument error. -/
  | fail
  deriving DecidableEq, Inhabited, Repr

inductive Routine where
  | object (r : ObjectRoutine)
  | error (r : ErrorRoutine)
  | lambda (r : LambdaRoutine)
  | number (r : NumberRoutine)
  | text (r : TextRoutine)
  | list (r : ListRoutine)
  | type (r : TypeRoutine)
  | host (r : HostRoutine)
  deriving DecidableEq, Inhabited, Repr

namespace Routine

structure Entry where
  owner : CoreType
  /-- Found on the type itself and not on its instances. -/
  classSide : Bool
  name : String
  signature : Signature
  routine : Routine
  deriving DecidableEq, Inhabited, Repr

def fixed (owner : CoreType) (receiver : Expect) (name : String) (params : List Expect)
    (routine : Routine) : Entry :=
  ⟨owner, false, name, ⟨receiver, params, none, .ignored⟩, routine⟩

def andMore (e : Entry) : Entry :=
  { e with signature := { e.signature with rest := some .any } }

def withBlock (e : Entry) (use : BlockUse) : Entry :=
  { e with signature := { e.signature with block := use } }

def objectEntries : List Entry :=
  let m := fun name params r => fixed .object .any name params (.object r)
  [m "initialize" [] .nothing,
    m "==" [.any] .identical,
    m "!=" [.any] .notEqual,
    m "equal?" [.any] .identical,
    m "class" [] .class_,
    m "is_a?" [.module] .isA,
    m "respond_to?" [.any] .respondTo,
    m "nil?" [] .isNil,
    m "to_s" [] .toText,
    m "inspect" [] .inspect,
    withBlock (andMore (m "send" [.any] .send)) .optional,
    andMore (m "print" [] .print),
    andMore (m "puts" [] .puts),
    andMore (m "p" [] .p),
    withBlock (m "lambda" [] .lambda) .required]

def errorEntries : List Entry :=
  let m := fun name r => fixed .error .object name [] (.error r)
  [andMore (m "initialize" .init), m "message" .message]

def lambdaEntries : List Entry :=
  let m := fun name r => fixed .lambda .lambda name [] (.lambda r)
  [withBlock (andMore (m "call" .call)) .optional, m "arity" .arity]

def numberEntries : List Entry :=
  let m := fun name params r => fixed .number .number name params (.number r)
  [m "+" [.number] (.arithmetic .add),
    m "-" [.number] (.arithmetic .sub),
    m "*" [.number] (.arithmetic .mul),
    m "/" [.number] (.arithmetic .div),
    m "%" [.number] (.arithmetic .mod),
    m "<" [.number] (.compare .less),
    m "<=" [.number] (.compare .lessEq),
    m ">" [.number] (.compare .greater),
    m ">=" [.number] (.compare .greaterEq),
    m "==" [.any] .equal,
    m "-@" [] .negate,
    m "abs" [] .abs,
    m "to_s" [] .toText,
    m "to_i" [] .toInt,
    m "to_f" [] .toFloat,
    withBlock (fixed .int .int "times" [] (.number .times)) .required]

def stringEntries : List Entry :=
  let m := fun name params r => fixed .string .string name params (.text r)
  [m "+" [.string] .concat,
    m "*" [.int] .repeat_,
    m "==" [.any] .equal,
    m "<" [.string] (.compare .less),
    m "<=" [.string] (.compare .lessEq),
    m ">" [.string] (.compare .greater),
    m ">=" [.string] (.compare .greaterEq),
    m "size" [] .size,
    m "length" [] .size,
    m "empty?" [] .isEmpty,
    m "upcase" [] .upcase,
    m "downcase" [] .downcase,
    m "include?" [.string] .includes,
    m "split" [] .words,
    m "split" [.string] .split,
    m "chars" [] .chars,
    m "strip" [] .strip,
    m "to_s" [] .itself,
    m "to_sym" [] .toSymbol,
    m "inspect" [] .inspect,
    m "[]" [.int] .at_]

def symbolEntries : List Entry :=
  let m := fun name params r => fixed .symbol .symbol name params (.text r)
  [m "==" [.any] .equal, m "to_s" [] .toText, m "to_sym" [] .itself, m "inspect" [] .inspect]

def listEntries : List Entry :=
  let m := fun name params r => fixed .list .list name params (.list r)
  let each := fun name params r => withBlock (m name params r) .required
  let maybe := fun name r => withBlock (m name [] r) .optional
  [⟨.list, true, "new", ⟨.type, [], none, .ignored⟩, .list .newEmpty⟩,
    ⟨.list, true, "new", ⟨.type, [.int], some .any, .ignored⟩, .list .newFilled⟩,
    m "size" [] .size,
    m "length" [] .size,
    m "empty?" [] .isEmpty,
    andMore (m "push" [] .push),
    m "pop" [] .pop,
    m "first" [] .first,
    m "last" [] .last,
    m "[]" [.int] .get,
    m "[]=" [.int, .any] .set,
    each "each" [] .each,
    each "each_with_index" [] .eachWithIndex,
    each "map" [] .map,
    each "select" [] (.filter true),
    each "reject" [] (.filter false),
    each "reduce" [] .reduceFirst,
    each "reduce" [.any] .reduce,
    each "find" [] .find,
    maybe "any?" .any,
    maybe "all?" .all,
    maybe "count" .count,
    m "include?" [.any] .includes,
    m "index_of" [.any] .indexOf,
    m "concat" [.list] .concat,
    m "+" [.list] .plus,
    m "reverse" [] .reverse,
    m "join" [] .joinPlain,
    m "join" [.string] .join,
    maybe "sort" .sort,
    m "==" [.any] .equal,
    m "<" [.list] .less,
    m "subset?" [.list] .isSubset,
    m "same_elements?" [.list] .sameElements,
    m "to_s" [] .inspect,
    m "inspect" [] .inspect]

def typeEntries : List Entry :=
  let m := fun name params r => fixed .module .module name params (.type r)
  [m "name" [] .name,
    m "to_s" [] .name,
    m "inspect" [] .name,
    m "ancestors" [] .ancestors,
    m "instance_methods" [] .instanceMethods,
    m "class_methods" [] .classMethods,
    m "constants" [] .constants,
    m "doc" [] .doc,
    m "method_doc" [.any] .methodDoc,
    m "include?" [.module] .includes,
    m "superclass" [] .superclass,
    withBlock (andMore (fixed .type .type "new" [] (.type .new))) .optional]

/-- All built-in methods, in the order in which they are there from the start. -/
def catalogue : List Entry :=
  objectEntries ++ errorEntries ++ lambdaEntries ++ numberEntries ++ stringEntries ++
    symbolEntries ++ listEntries ++ typeEntries

end Routine

end Quill
