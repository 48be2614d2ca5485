import Quill.Grammar.Cursor

/-!
# Patterns and parameter lists

```text
Pattern  = Name [":" TypePath] | TypePath | Literal | "-" Number | "[" [Item { "," Item }] "]"
Item     = Pattern | Splat                         at most one splat in a list
Splat    = "*" [Name]
TypePath = Constant { "." Constant }
Params   = [Param { "," Param }]
Param    = Pattern | Splat | "&" Name              at most one splat, the block last
```
-/

namespace Quill.Grammar

open Parse

def literalOf : Token.Kind → Option Literal
  | .int n => some (.int n)
  | .float x => some (.float x)
  | .str s => some (.str s)
  | .symbol s => some (.symbol s)
  | .keyword .nil => some .nil
  | .keyword .true_ => some (.bool true)
  | .keyword .false_ => some (.bool false)
  | _ => none

def negatedLiteral : Token.Kind → Option Literal
  | .int n => some (.int (-n))
  | .float x => some (.float (-x))
  | _ => none

def typePathStep (path : TypePath) : Parse (TypePath ⊕ TypePath) := do
  match (← get).kind, (← get).second with
  | .mark .dot, .constant _ =>
    let _ ← advance
    let segment ← constantName
    return .inl ⟨path.segments ++ [segment], path.span.merge segment.span⟩
  | _, _ => return .inr path

def typePath : Parse TypePath := do
  let first ← constantName
  iterate typePathStep ⟨[first], first.span⟩

def splat : Parse Pattern := do
  let star ← advance
  match ← kind with
  | .identifier _ =>
    let name ← identifier
    return .splat (if name.name == "_" then none else some name) (star.merge name.span)
  | _ => return .splat none star

/-- After one item of a comma-separated list: either `more` is read on, or the list is `done`. -/
def comma {α β : Type} (more : α) (done : β) : Parse (α ⊕ β) := do
  skipNewlines
  if ← eatMark .comma then
    skipNewlines
    return .inl more
  else return .inr done

def listPatternStep (pattern : Parse Pattern) (items : List Pattern) :
    Parse (List Pattern ⊕ List Pattern) := do
  if ← atMark .rBracket then return .inr items
  else if ← atMark .star then
    if items.any (·.isSplat) then unexpected .singleSplatInPattern
    else
      let items := (← splat) :: items
      comma items items
  else
    let items := (← pattern) :: items
    comma items items

def listPattern (pattern : Parse Pattern) : Parse Pattern := do
  let start ← advance
  skipNewlines
  let items ← iterate (listPatternStep pattern) []
  let close ← expect .rBracket
  return .list items.reverse (start.merge close)

def patternWith (pattern : Parse Pattern) : Parse Pattern := do
  let k ← kind
  let here ← span
  match k with
  | .identifier name =>
    let _ ← advance
    if ← eatMark .colon then return .bind ⟨name, here⟩ (some (← typePath))
    else if name == "_" then return .wildcard here
    else return .bind ⟨name, here⟩ none
  | .constant _ => return .const (← typePath)
  | .mark .minus =>
    let _ ← advance
    match negatedLiteral (← kind) with
    | some number => return .literal number (here.merge (← advance))
    | none => unexpected .numberAfterMinus
  | .mark .lBracket => listPattern pattern
  | .mark .star => failAt .pattern .splatOutsideList here
  | k => match literalOf k with
    | some value =>
      let _ ← advance
      return .literal value here
    | none => unexpected .pattern

def patternUpTo : Nat → Parse Pattern
  | 0 => unexpected .progress
  | n + 1 => patternWith (patternUpTo n)

/-- A pattern. It is nested less deep than there are tokens. -/
def pattern : Parse Pattern := do patternUpTo (← get).limit

def paramStep (closing : Mark) (params : Params) : Parse (Params ⊕ Params) := do
  if ← atMark closing then return .inr params
  else if params.block.isSome then unexpected (.afterBlockParameter closing)
  else if ← eatMark .amp then
    let params := { params with block := some (← identifier) }
    comma params params
  else if ← atMark .star then
    if params.isVariadic then unexpected .singleSplatParameter
    else
      let params := { params with items := params.items ++ [← splat] }
      comma params params
  else
    let params := { params with items := params.items ++ [← pattern] }
    comma params params

def paramList (closing : Mark) : Parse Params := do
  skipNewlines
  iterate (paramStep closing) .none

end Quill.Grammar
