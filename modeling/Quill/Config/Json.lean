import Quill.Config

/-!
# Settings as JSON

Settings are read from a JSON object with a member for each of them, or from an array that lists
them in order. All of them may be left out, and anything else is refused: members that are no
setting or come twice, values of the wrong kind, and numbers that do not fit in 64 bits.
-/

namespace Quill.Config

inductive Setting where
  | null
  | bool (value : Bool)
  | whole (n : Nat)
  deriving DecidableEq, Inhabited, Repr

def names : List String := ["step_limit", "max_call_depth", "echo_output"]

/-- The settings with one of them changed, if it has a value of the right kind. -/
def with? (c : Config) : String × Setting → Option Config
  | ("step_limit", .null) => some { c with stepLimit := none }
  | ("step_limit", .whole n) =>
    if n < UInt64.size then some { c with stepLimit := some n } else none
  | ("max_call_depth", .whole n) =>
    if n < UInt64.size then some { c with maxCallDepth := n } else none
  | ("echo_output", .bool b) => some { c with echoOutput := b }
  | _ => none

/-- The settings that a list of members gives, each of which may come once. -/
def ofMembers? (members : List (String × Setting)) : Option Config :=
  if (members.map (·.1)).Nodup then members.foldlM with? standard else none

def ofItems? (items : List Setting) : Option Config :=
  if items.length ≤ names.length then ofMembers? (names.zip items) else none

namespace Json

def isBlank (c : Char) : Bool := c == ' ' || c == '\n' || c == '\t' || c == '\r'

def skip (cs : List Char) : List Char := cs.dropWhile isBlank

/-- The number that decimal digits stand for, behind those that make up `n`. -/
def wholeFrom (n : Nat) : List Char → Nat × List Char
  | c :: cs => if c.isDigit then wholeFrom (10 * n + (c.toNat - '0'.toNat)) cs else (n, c :: cs)
  | [] => (n, [])

/-- A value at the front of the text, and what comes after it. A number has no leading zeros. -/
def value? : List Char → Option (Setting × List Char)
  | 'n' :: 'u' :: 'l' :: 'l' :: cs => some (.null, cs)
  | 't' :: 'r' :: 'u' :: 'e' :: cs => some (.bool true, cs)
  | 'f' :: 'a' :: 'l' :: 's' :: 'e' :: cs => some (.bool false, cs)
  -- Nothing may follow a leading zero but what ends the value.
  | '0' :: cs => some (.whole 0, cs)
  | c :: cs =>
    if c.isDigit then
      let (n, rest) := wholeFrom 0 (c :: cs)
      some (.whole n, rest)
    else none
  | [] => none

def hexDigit? (c : Char) : Option Nat :=
  if c.isDigit then some (c.toNat - '0'.toNat)
  else if 'a' ≤ c ∧ c ≤ 'f' then some (c.toNat - 'a'.toNat + 10)
  else if 'A' ≤ c ∧ c ≤ 'F' then some (c.toNat - 'A'.toNat + 10)
  else none

def hexChar? (digits : List Char) : Option Char := do
  let ds ← digits.mapM hexDigit?
  return Char.ofNat (ds.foldl (fun n d => 16 * n + d) 0)

/-- The rest of a name after its opening quote, behind the characters in `done`, last one first.
Names of settings have no characters with an escape other than the one that gives a number. -/
def nameRest? (done : List Char) : List Char → Option (String × List Char)
  | '"' :: cs => some (String.ofList done.reverse, cs)
  | '\\' :: 'u' :: a :: b :: c :: d :: cs => do nameRest? ((← hexChar? [a, b, c, d]) :: done) cs
  | '\\' :: _ => none
  | c :: cs => nameRest? (c :: done) cs
  | [] => none

def member? : List Char → Option ((String × Setting) × List Char)
  | '"' :: cs => do
    let (name, cs) ← nameRest? [] cs
    match skip cs with
    | ':' :: cs => do
      let (v, cs) ← value? (skip cs)
      return ((name, v), cs)
    | _ => none
  | _ => none

/-- At most `n` entries with commas between them, up to the closing bracket. -/
def entries? {α : Type} (single? : List Char → Option (α × List Char)) (closing : Char) :
    Nat → List Char → Option (List α × List Char)
  | 0, _ => none
  | n + 1, cs => do
    let (first, cs) ← single? cs
    match skip cs with
    | [] => none
    | c :: cs =>
      if c = closing then return ([first], cs)
      else if c = ',' then do
        let (more, cs) ← entries? single? closing n (skip cs)
        return (first :: more, cs)
      else none

/-- All entries after the opening bracket, which have to end the text. -/
def enclosed? {α : Type} (single? : List Char → Option (α × List Char)) (closing : Char)
    (cs : List Char) : Option (List α) := do
  let (found, rest) ← match skip cs with
    | [] => none
    | c :: cs =>
      if c = closing then some ([], cs)
      else entries? single? closing (cs.length + 1) (c :: cs)
  if (skip rest).isEmpty then return found else none

end Json

def ofJson? (text : String) : Option Config :=
  match Json.skip text.toList with
  | '\x7b' :: cs => (Json.enclosed? Json.member? '\x7d' cs).bind ofMembers?
  | '[' :: cs => (Json.enclosed? Json.value? ']' cs).bind ofItems?
  | _ => none

end Quill.Config
