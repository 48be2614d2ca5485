import Quill.Grammar.Call

/-!
# Operators and assignments

From the tightest to the loosest: postfix calls and indexing, unary `-` and `!`, then `*` `/` `%`,
`+` `-`, the order relations, equality and matching, `&&`, `||`, and last assignment. Binary
operators associate to the left; equality and matching do not chain; assignment associates to the
right.
-/

namespace Quill.Grammar

open Parse

/-- What a token does between two operands. -/
inductive Infix where
  | binary (op : Operator)
  | logical (op : Connective)
  | fits
  deriving DecidableEq, Repr

namespace Infix

def ofMark? : Mark → Option Infix
  | .plus => some (.binary .add)
  | .minus => some (.binary .sub)
  | .star => some (.binary .mul)
  | .slash => some (.binary .div)
  | .percent => some (.binary .mod)
  | .less => some (.binary .less)
  | .lessEqual => some (.binary .lessEq)
  | .greater => some (.binary .greater)
  | .greaterEqual => some (.binary .greaterEq)
  | .equalEqual => some (.binary .eq)
  | .bangEqual => some (.binary .notEq)
  | .andAnd => some (.logical .and)
  | .orOr => some (.logical .or)
  | .matchOp => some .fits
  | _ => none

def ofKind? : Token.Kind → Option Infix
  | .mark m => ofMark? m
  | _ => none

def level : Infix → Nat
  | logical .or => 1
  | logical .and => 2
  | fits | binary .eq | binary .notEq => 3
  | binary .less | binary .lessEq | binary .greater | binary .greaterEq => 4
  | binary .add | binary .sub => 5
  | binary .mul | binary .div | binary .mod => 6

def equality : Nat := 3

def tightest : Nat := 6

def join (op : Infix) (left right : Expr) : Expr :=
  let span := left.span.merge right.span
  match op with
  | binary o => ⟨.binary o left right, span⟩
  | logical o => ⟨.logical o left right, span⟩
  | fits => left

end Infix

/-- The next token that is no line break is a dot, so the chain of calls goes on. -/
def chainContinues (c : Cursor) : Bool :=
  match (c.rest.dropWhile (·.kind == .newline)).head? with
  | some t => t.kind == .mark .dot
  | none => false

def postfixStep (nested : Nested) (e : Expr) : Parse (Expr ⊕ Expr) := do
  match ← kind with
  | .mark .dot =>
    let _ ← advance
    skipNewlines
    let method ← methodName
    let a ← callSuffix nested
    return .inl ⟨.call (some e) method a.args a.block, e.span.merge (← previous)⟩
  | .mark .lBracket =>
    let here ← advance
    let args ← plainArguments nested .rBracket .indexArgument here
    return .inl ⟨.call (some e) ⟨"[]", here⟩ args none, e.span.merge (← previous)⟩
  | .newline =>
    -- The next line belongs to the expression if it starts with a dot.
    if chainContinues (← get) then
      skipNewlines
      return .inl e
    else return .inr e
  | _ => return .inr e

def postfixOps (nested : Nested) (e : Expr) : Parse Expr := iterate (postfixStep nested) e

def prefixOp? : Token.Kind → Option PrefixOp
  | .mark .minus => some .neg
  | .mark .bang => some .not
  | _ => none

/-- An operand under the operators in front of it, the innermost of which comes first. -/
def underPrefixes (operand : Expr) (ops : List (PrefixOp × Span)) : Expr :=
  ops.foldl (fun e op => ⟨.unary op.1 e, op.2.merge e.span⟩) operand

/-- The negative of the number that directly follows a minus at `minus`. -/
def touchingNumber (op : PrefixOp) (minus : Span) (c : Cursor) : Option Literal :=
  match op with
  | .neg =>
    if c.span.first = minus.last.nextColumn then negatedLiteral c.kind
    else none
  | .not => none

/-- Reads one more operator in front of an operand, or the operand itself. The operators come
innermost first. A minus that touches a number belongs to the number. -/
def unaryStep (nested : Nested) (ops : List (PrefixOp × Span)) :
    Parse (List (PrefixOp × Span) ⊕ Expr) := do
  match prefixOp? (← kind) with
  | none => return .inr (underPrefixes (← nested .operand) ops)
  | some op =>
    let here ← advance
    match touchingNumber op here (← get) with
    | none => return .inl ((op, here) :: ops)
    | some number =>
      -- Postfix operators apply to the negative number: `-1.abs` is a call on `-1`.
      let literal : Expr := ⟨.literal number, here.merge (← advance)⟩
      return .inr (underPrefixes (← postfixOps nested literal) ops)

def unary (nested : Nested) : Parse Expr := iterate (unaryStep nested) []

/-- What was read so far, and the tightest level at which it can still be a left operand. -/
structure Left where
  expr : Expr
  level : Nat

/-- Reads one more operator that binds at `floor` or tighter, and its right operand. -/
def infixStep (right : Nat → Parse Expr) (floor : Nat) (left : Left) : Parse (Left ⊕ Expr) := do
  match Infix.ofKind? (← kind) with
  | none => return .inr left.expr
  | some op =>
    if op.level < floor || left.level < op.level then return .inr left.expr
    else
      let _ ← advance
      skipNewlines
      match op with
      | .fits =>
        let p ← pattern
        let e : Expr := ⟨.fits left.expr p, left.expr.span.merge p.span⟩
        return .inl ⟨e, Infix.equality - 1⟩
      | op =>
        -- The right operand binds tighter, so operators of one level group to the left.
        let e := op.join left.expr (← right (op.level + 1))
        if op.level = Infix.equality then
          match (Infix.ofKind? (← kind)).map Infix.level with
          -- Neither another equality nor a match may follow.
          | some 3 => unexpected .unchainedEquality
          | _ => return .inl ⟨e, Infix.equality - 1⟩
        else return .inl ⟨e, op.level⟩

/-- An expression of operators that bind at `floor` or tighter, of which there are at most `n`
levels. -/
def infixFrom (nested : Nested) : Nat → Nat → Parse Expr
  | 0, _ => unary nested
  | n + 1, floor => do
    let first ← unary nested
    iterate (infixStep (infixFrom nested n) floor) ⟨first, Infix.tightest⟩

def operators (nested : Nested) : Parse Expr := infixFrom nested Infix.tightest 1

/-- How a token assigns: by replacing the old value or by combining with it. -/
def assignment? : Token.Kind → Option (Option Compound)
  | .mark .assign => some none
  | .mark .plusAssign => some (some (.arith .add))
  | .mark .minusAssign => some (some (.arith .sub))
  | .mark .starAssign => some (some (.arith .mul))
  | .mark .slashAssign => some (some (.arith .div))
  | .mark .percentAssign => some (some (.arith .mod))
  | .mark .andAndAssign => some (some (.logic .and))
  | .mark .orOrAssign => some (some (.logic .or))
  | _ => none

/-- Only plain names have an assigning counterpart: no operators, no constants, none that ends in a
question or exclamation mark. -/
def hasSetter (name : String) : Bool :=
  let cs := name.toList
  cs.head?.any Token.startsName && !cs.getLast?.any fun c => c == '?' || c == '!'

def target (e : Expr) : Parse Target :=
  match e.kind with
  | .name n => return .local_ ⟨n, e.span⟩
  | .attr n => return .attr ⟨n, e.span⟩
  | .constant n => return .constant ⟨n, e.span⟩
  | .call (some receiver) method args none =>
    if method.name == "[]" then return .index receiver args
    else if args.isEmpty && hasSetter method.name then return .member receiver method
    else failAt .assignable .methodCall e.span
  | .call .. => failAt .assignable .methodCall e.span
  | _ => failAt .assignable .expression e.span

def assigned (nested : Nested) : Parse Expr := do
  let _ ← advance
  skipNewlines
  nested .expression

/-- The pattern of a destructuring assignment, if one starts here: a list pattern before an
assignment. Otherwise nothing is read. -/
def destructured : Parse (Option Pattern) := fun c =>
  match pattern c with
  | .ok (p, c') => if c'.kind == .mark .assign then .ok (some p, c') else .ok (none, c)
  -- What fails as a pattern may still be a list, so it is read once more as an expression.
  | .error e => match e.expected with
    | .progress => .error e
    | _ => .ok (none, c)

theorem destructured_cases (c : Cursor) :
    (∃ p c', pattern c = .ok (p, c') ∧ c'.kind = .mark .assign ∧
      destructured c = .ok (some p, c')) ∨
    (∃ p c', pattern c = .ok (p, c') ∧ (c'.kind == .mark .assign) = false ∧
      destructured c = .ok (none, c)) ∨
    ∃ e, pattern c = .error e ∧ (e.expected = .progress ∧ destructured c = .error e ∨
      e.expected ≠ .progress ∧ destructured c = .ok (none, c)) := by
  unfold destructured
  cases pattern c with
  | ok r =>
    obtain ⟨p, c'⟩ := r
    dsimp only
    cases hk : c'.kind == .mark .assign with
    | true => exact .inl ⟨p, c', rfl, eq_of_beq_mark hk, rfl⟩
    | false => exact .inr (.inl ⟨p, c', rfl, hk, rfl⟩)
  | error e =>
    refine .inr (.inr ⟨e, rfl, ?_⟩)
    dsimp only
    split
    · exact .inl ⟨‹_›, rfl⟩
    · exact .inr ⟨‹_›, rfl⟩

/-- An assignment whose left side is no list pattern, or an expression without assignment. -/
def simpleAssignment (nested : Nested) : Parse Expr := do
  let left ← operators nested
  match assignment? (← kind) with
  | none => return left
  | some op =>
    let _ ← advance
    skipNewlines
    let t ← target left
    let value ← nested .expression
    let span := left.span.merge value.span
    match op with
    | none => return ⟨.assign t value, span⟩
    | some op => return ⟨.compound op t value, span⟩

def expression (nested : Nested) : Parse Expr := do
  let here ← span
  match ← if ← atMark .lBracket then destructured else pure none with
  | some p =>
    let value ← assigned nested
    return ⟨.destructure p value, here.merge value.span⟩
  | none => simpleAssignment nested

end Quill.Grammar
