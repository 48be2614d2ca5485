import Quill.Grammar.Construct
import Quill.Token.Lexer

/-!
# Operands and whole programs

An operand is a literal, a name, something in brackets, a block, a jump or a construct. The parser
for what is nested inside an expression is the parser of expressions itself, one level deeper.
-/

namespace Quill.Grammar

open Parse

/-- Where no value of a jump can start. -/
def endsStatement (k : Token.Kind) : Bool :=
  Cursor.isSeparator k || endsBody k ||
    match k with
    | .mark .rParen | .mark .rBracket | .mark .comma => true
    | _ => false

def jump (nested : Nested) (j : Jump) : Parse Expr := do
  let start ← advance
  if endsStatement (← kind) then return ⟨.jump j none, start⟩
  else
    let value ← nested .expression
    return ⟨.jump j (some value), start.merge value.span⟩

def parenthesized (nested : Nested) : Parse Expr := do
  let start ← advance
  skipNewlines
  let inner ← nested .expression
  skipNewlines
  return { inner with span := start.merge (← expect .rParen) }

def listLiteral (nested : Nested) : Parse Expr := do
  let start ← advance
  let items ← plainArguments nested .rBracket .listElement start
  return ⟨.list items, start.merge (← previous)⟩

def nameOrCall (nested : Nested) (name : String) : Parse Expr := do
  let here ← advance
  let k ← kind
  if k == .mark .lParen || startsBlock k then
    let a ← callSuffix nested
    return ⟨.call none ⟨name, here⟩ a.args a.block, here.merge (← previous)⟩
  else return ⟨.name name, here⟩

def yieldCall (nested : Nested) : Parse Expr := do
  let start ← advance
  let args ← if ← eatMark .lParen then plainArguments nested .rParen .yieldArgument start
    else pure []
  return ⟨.yield args, start.merge (← previous)⟩

def superCall (nested : Nested) : Parse Expr := do
  let start ← advance
  let explicit ← atMark .lParen
  let a ← callSuffix nested
  let args := if explicit then some a.args else none
  return ⟨.super args a.block, start.merge (← previous)⟩

def includeModule (nested : Nested) : Parse Expr := do
  let start ← advance
  let module ← nested .expression
  return ⟨.include_ module, start.merge module.span⟩

def blockValue (nested : Nested) : Parse Expr := do
  let b ← block nested
  return ⟨.block b, b.span⟩

def atom (kind : Expr.Kind) : Parse Expr := return ⟨kind, ← advance⟩

def keywordOperand (nested : Nested) : Keyword → Parse Expr
  | .nil => atom (.literal .nil)
  | .true_ => atom (.literal (.bool true))
  | .false_ => atom (.literal (.bool false))
  | .self => atom .self
  | .do_ => blockValue nested
  | .if_ => conditional nested
  | .while_ => loop nested
  | .for_ => forEach nested
  | .case => select nested
  | .begin_ => protect nested
  | .raise => jump nested .raise
  | .return_ => jump nested .return_
  | .break_ => jump nested .break_
  | .next => jump nested .next
  | .yield => yieldCall nested
  | .super => superCall nested
  | .def_ => methodDef nested
  | .type => typeDef nested .type
  | .module => typeDef nested .module
  | .include_ => includeModule nested
  | _ => unexpected .expression

def primary (nested : Nested) : Parse Expr := do
  match ← kind with
  | .int n => atom (.literal (.int n))
  | .float x => atom (.literal (.float x))
  | .str s => atom (.literal (.str s))
  | .symbol s => atom (.literal (.symbol s))
  | .identifier name => nameOrCall nested name
  | .constant name => atom (.constant name)
  | .attr name => atom (.attr name)
  | .mark .lBracket => listLiteral nested
  | .mark .lParen => parenthesized nested
  | .mark .lBrace => blockValue nested
  | .keyword k => keywordOperand nested k
  | _ => unexpected .expression

def operand (nested : Nested) : Parse Expr := do
  let e ← primary nested
  postfixOps nested e

def parserUpTo : Nat → Nested
  | 0, _ => unexpected .progress
  | n + 1, .expression => expression (parserUpTo n)
  | n + 1, .operand => operand (parserUpTo n)

/-- The parser of what can stand in a program. Each level of nesting reads a token of its own, so
there are no more levels than tokens; an operand is one level below its expression. -/
def parser : Nested := fun entry => do parserUpTo (2 * (← get).limit) entry

def program : Parse Program := do
  let start ← span
  let body ← statements parser
  if (← kind) == .eof then
    match body.getLast? with
    | some last => return ⟨body, start.merge last.span⟩
    | none => return ⟨body, start⟩
  else unexpected .expressionOrEnd

end Quill.Grammar

namespace Quill.Program

def ofTokens? (tokens : List Token) : Except ParseError Program :=
  match Grammar.program (Grammar.Cursor.ofTokens tokens) with
  | .ok (p, _) => .ok p
  | .error e => .error e

def ofText? (text : String) : Except SyntaxError Program :=
  match Token.ofText? text with
  | .error e => .error (.lex e)
  | .ok tokens => match ofTokens? tokens.toList with
    | .ok p => .ok p
    | .error e => .error (.parse e)

end Quill.Program
