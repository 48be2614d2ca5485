import Quill.Grammar.Pattern

/-!
# Statements, blocks and arguments

```text
Body   = { Expr Sep }                       up to `end`, `else`, …, a closing brace or the end
Block  = "{" ["|" Params "|"] Body "}" | "do" ["|" Params "|"] Body "end"
Args   = [Arg { "," Arg } [","]]
Arg    = Expr | "&" Expr                    the block last
Suffix = ["(" Args ")"] [Block]
```

Everything here is read with the help of a parser for what is nested inside, see `Nested`.
-/

namespace Quill.Grammar

open Parse

/-- What can be nested in an expression: any expression, or an operand with its postfix
operators. -/
inductive Entry where
  | expression | operand

abbrev Nested := Entry → Parse Expr

def endsBody : Token.Kind → Bool
  | .keyword .end_ | .keyword .else_ | .keyword .elsif | .keyword .rescue | .keyword .ensure
  | .keyword .when | .mark .rBrace | .eof => true
  | _ => false

def statementStep (nested : Nested) (done : List Expr) : Parse (List Expr ⊕ List Expr) := do
  skipSeparators
  if endsBody (← kind) then return .inr done
  else
    let statement ← nested .expression
    -- A statement ends with its line, or with the body around it.
    let k ← kind
    if Cursor.isSeparator k || endsBody k then return .inl (statement :: done)
    else unexpected .separator

def statements (nested : Nested) : Parse (List Expr) := do
  return (← iterate (statementStep nested) []).reverse

def startsBlock : Token.Kind → Bool
  | .mark .lBrace | .keyword .do_ => true
  | _ => false

/-- The parameters of a block between bars; two bars in a row hold none. -/
def blockParams : Parse Params := do
  if ← eatMark .orOr then return .none
  else if ← eatMark .pipe then
    let params ← paramList .pipe
    let _ ← expect .pipe
    return params
  else return .none

def block (nested : Nested) : Parse Block := do
  let braced ← atMark .lBrace
  let start ← advance
  let params ← blockParams
  let body ← statements nested
  let close ← if braced then expect .rBrace else endOf .do_
  return ⟨params, body, start.merge close⟩

structure Arguments where
  args : List Expr
  block : Option BlockArg

namespace Arguments

def none : Arguments := ⟨[], .none⟩

end Arguments

def argumentStep (nested : Nested) (closing : Mark) (done : Arguments) :
    Parse (Arguments ⊕ Arguments) := do
  if ← atMark closing then return .inr done
  else if done.block.isSome then unexpected (.afterBlockArgument closing)
  else if ← eatMark .amp then
    let value ← nested .expression
    let done := { done with block := some (.pass value) }
    comma done done
  else
    let value ← nested .expression
    let done := { done with args := value :: done.args }
    comma done done

def arguments (nested : Nested) (closing : Mark) : Parse Arguments := do
  skipNewlines
  let done ← iterate (argumentStep nested closing) .none
  let _ ← expect closing
  return ⟨done.args.reverse, done.block⟩

/-- Arguments among which no block may be: where one is, an `expected` was wanted at `place`. -/
def plainArguments (nested : Nested) (closing : Mark) (expected : Expected) (place : Span) :
    Parse (List Expr) := do
  let a ← arguments nested closing
  match a.block with
  | some _ => failAt expected .blockArgument place
  | none => return a.args

/-- The arguments of a call in parentheses and its block, either of which may be missing. -/
def callSuffix (nested : Nested) : Parse Arguments := do
  let a ← if ← eatMark .lParen then arguments nested .rParen else pure .none
  if startsBlock (← kind) then
    let here ← span
    let literal ← block nested
    -- A second block is read to its end before it is refused.
    match a.block with
    | some _ => failAt .singleBlock .secondBlock here
    | none => return ⟨a.args, some (.literal literal)⟩
  else return a

def namesMethod : Mark → Bool
  | .plus | .minus | .star | .slash | .percent | .less | .lessEqual | .greater | .greaterEqual
  | .equalEqual | .minusAt => true
  | _ => false

/-- The name of a method that is called: a name, a reserved word, an operator or a pair of
brackets. -/
def methodName : Parse Ident := do
  match ← kind with
  | .identifier name | .constant name => return ⟨name, ← advance⟩
  | .keyword k => return ⟨k.text, ← advance⟩
  | .mark .lBracket =>
    match (← get).second with
    | .mark .rBracket =>
      let start ← advance
      return ⟨"[]", start.merge (← advance)⟩
    | _ => unexpected .methodName
  | .mark m => if namesMethod m then return ⟨m.text, ← advance⟩ else unexpected .methodName
  | _ => unexpected .methodName

/-- The name of a method that is defined: one that can be called, or that of an assignment. -/
def definedName : Parse Ident := do
  let c ← get
  match c.kind, c.second, c.third with
  | .identifier name, .mark .assign, _ =>
    let start ← advance
    return ⟨name ++ "=", start.merge (← advance)⟩
  | .mark .lBracket, .mark .rBracket, .mark .assign =>
    let start ← advance
    let _ ← advance
    return ⟨"[]=", start.merge (← advance)⟩
  | _, _, _ => methodName

end Quill.Grammar
