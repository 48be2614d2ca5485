import Quill.Grammar.Operators

/-!
# Constructs that end with `end`

```text
"if" Expr Sep Body { "elsif" Expr Sep Body } ["else" Body] "end"
"while" Expr Sep Body "end"
"for" Pattern "in" Expr Sep Body "end"
"case" Expr Sep { "when" Pattern ["if" Expr] Sep Body } ["else" Body] "end"
"begin" Protected "end"
"def" ["self" "."] Name ["(" Params ")"] ["if" Expr] Sep Protected "end"
"type" Constant ["<" Operand] Sep Body "end"
"module" Constant Sep Body "end"
Protected = Body { "rescue" [Pattern] ["if" Expr] Sep Body } ["else" Body] ["ensure" Body]
```
-/

namespace Quill.Grammar

open Parse

def guard? (nested : Nested) : Parse (Option Expr) := do
  if ← eatKeyword .if_ then return some (← nested .expression) else return none

def part? (nested : Nested) (word : Keyword) : Parse (Option (List Expr)) := do
  if ← eatKeyword word then return some (← statements nested) else return none

structure Branch where
  first : Span
  condition : Expr
  body : List Expr

def branch (nested : Nested) : Parse Branch := do
  let first ← advance
  let condition ← nested .expression
  separator
  return ⟨first, condition, ← statements nested⟩

def branchStep (nested : Nested) (done : List Branch) :
    Parse (List Branch ⊕ (List Branch × Option (List Expr))) := do
  if ← atKeyword .elsif then return .inl ((← branch nested) :: done)
  else return .inr (done, ← part? nested .else_)

/-- Every branch but the first is the else part of the one before it. All of them end at `last`. -/
def chain (last : Span) (otherwise : Option (List Expr)) : List Branch → Option (List Expr)
  | [] => otherwise
  | b :: before =>
    let span := b.first.merge last
    chain last (some [⟨.cond span b.condition b.body otherwise, span⟩]) before

def conditional (nested : Nested) : Parse Expr := do
  let first ← branch nested
  let (later, otherwise) ← iterate (branchStep nested) []
  -- The choice ends with its last part; only the expression goes on to the `end`.
  let last ← previous
  let close ← endOf .if_
  let span := first.first.merge last
  return ⟨.cond span first.condition first.body (chain last otherwise later), span.merge close⟩

def loop (nested : Nested) : Parse Expr := do
  let start ← advance
  let condition ← nested .expression
  separator
  let body ← statements nested
  let span := start.merge (← endOf .while_)
  return ⟨.loop span condition body, span⟩

def forEach (nested : Nested) : Parse Expr := do
  let start ← advance
  let p ← pattern
  if ← eatKeyword .in_ then pure () else unexpected (.token (.keyword .in_))
  let items ← nested .expression
  separator
  let body ← statements nested
  let span := start.merge (← endOf .for_)
  return ⟨.forEach span p items body, span⟩

def armStep (nested : Nested) (done : List Arm) : Parse (List Arm ⊕ List Arm) := do
  if ← atKeyword .when then
    let start ← advance
    let p ← pattern
    let guard ← guard? nested
    separator
    let body ← statements nested
    return .inl (⟨p, guard, body, start.merge (← previous)⟩ :: done)
  else return .inr done

def select (nested : Nested) : Parse Expr := do
  let start ← advance
  let subject ← nested .expression
  separator
  let arms ← iterate (armStep nested) []
  if arms.isEmpty then unexpected .choice
  else
    let otherwise ← part? nested .else_
    let span := start.merge (← endOf .case)
    return ⟨.select span subject arms.reverse otherwise, span⟩

def rescuePattern : Parse (Option Pattern) := do
  let k ← kind
  -- Without a pattern the clause goes on with its guard or ends its line.
  if Cursor.isSeparator k || k == .keyword .if_ then return none else return some (← pattern)

def rescueStep (nested : Nested) (done : List Rescue) : Parse (List Rescue ⊕ List Rescue) := do
  if ← atKeyword .rescue then
    let start ← advance
    let p ← rescuePattern
    let guard ← guard? nested
    separator
    let body ← statements nested
    return .inl (⟨p, guard, body, start.merge (← previous)⟩ :: done)
  else return .inr done

/-- The statements of a construct that starts at `start`, with their `rescue`, `else` and `ensure`
parts. -/
def protectedBody (nested : Nested) (start : Span) (construct : Keyword) : Parse Body := do
  let body ← statements nested
  let rescues ← iterate (rescueStep nested) []
  let otherwise ← part? nested .else_
  let ensure ← part? nested .ensure
  let close ← endOf construct
  return ⟨body, rescues.reverse, otherwise, ensure, start.merge close⟩

def protect (nested : Nested) : Parse Expr := do
  let start ← advance
  let body ← protectedBody nested start .begin_
  return ⟨.protect body, body.span⟩

def methodParams : Parse Params := do
  if ← eatMark .lParen then
    let params ← paramList .rParen
    let _ ← expect .rParen
    return params
  else return .none

def singleton : Parse Bool := do
  match (← get).kind, (← get).second with
  | .keyword .self, .mark .dot =>
    let _ ← advance
    let _ ← advance
    return true
  | _, _ => return false

def methodDef (nested : Nested) : Parse Expr := do
  -- The documentation belongs to the first token, which is read next.
  let doc := (← get).doc
  let start ← advance
  let singleton ← singleton
  let name ← definedName
  let params ← methodParams
  let guard ← guard? nested
  separator
  let body ← protectedBody nested start .def_
  return ⟨.method ⟨name, singleton, params, guard, body, doc, body.span⟩, body.span⟩

def superclass (nested : Nested) : TypeSort → Parse (Option Expr)
  | .module => return none
  | .type => do
    if ← eatMark .less then return some (← nested .operand) else return none

def sortKeyword : TypeSort → Keyword
  | .type => .type
  | .module => .module

def typeDef (nested : Nested) (sort : TypeSort) : Parse Expr := do
  let doc := (← get).doc
  let start ← advance
  let name ← constantName
  let super ← superclass nested sort
  separator
  let body ← statements nested
  let span := start.merge (← endOf (sortKeyword sort))
  return ⟨.type ⟨sort, name, super, body, doc, span⟩, span⟩

end Quill.Grammar
