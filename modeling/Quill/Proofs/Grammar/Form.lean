import Quill.Proofs.Grammar.Node
import Quill.Proofs.Token.Order

/-!
# The forms of a program

`Form` says of which tokens and smaller nodes a node
is made, one constructor for each way to write it. A list of parts is `Laid` on cells when its
tokens are among them in this order and the span of every node is that of the cells under it.
-/

namespace Quill

namespace Grammar

inductive Ending where
  /-- With the last token that belongs to it. -/
  | tight
  /-- With the last token before what follows, be it a line break. -/
  | loose
  deriving DecidableEq

inductive Part where
  | token (k : Token.Kind)
  /-- The word that a definition starts with, and the documentation above it. -/
  | definer (k : Keyword) (doc : Option String)
  | node (e : Ending) (n : Node)

namespace Part

abbrev mark (m : Mark) : Part := token (.mark m)

abbrev word (k : Keyword) : Part := token (.keyword k)

abbrev expr (e : Expr) : Part := node .tight (.expr e)

abbrev pattern (p : Pattern) : Part := node .tight (.pattern p)

abbrev ident (i : Ident) : Part := node .tight (.ident i)

end Part

def Newlines (ps : List Part) : Prop := ∀ p ∈ ps, p = .token .newline

def Separators (ps : List Part) : Prop := ∀ p ∈ ps, ∃ k, p = .token k ∧ Cursor.isSeparator k = true

/-- What stands between the head of a construct and its statements. -/
structure Break (ps : List Part) : Prop where
  separators : Separators ps
  ne_nil : ps ≠ []

def Parted (ps : List Part) : Prop :=
  ∀ p ∈ ps.getLast?, ∃ k, p = .token k ∧ Cursor.isSeparator k = true

/-- Statements with separators before, between and after them. -/
inductive Sequence : List Expr → List Part → Prop
  | nil : Sequence [] []
  | separators {es : List Expr} {ps qs : List Part} : Sequence es ps → Separators qs →
      Sequence es (ps ++ qs)
  | statement {es : List Expr} {ps : List Part} {e : Expr} : Sequence es ps → Parted ps →
      Sequence (es ++ [e]) (ps ++ [.expr e])

/-- Items with a comma after each. -/
inductive Opened : List (List Part) → List Part → Prop
  | start {ps : List Part} : Newlines ps → Opened [] ps
  | comma {is : List (List Part)} {i ps ns ms : List Part} : Opened is ps → Newlines ns →
      Newlines ms → Opened (is ++ [i]) (ps ++ (i ++ (ns ++ .mark .comma :: ms)))

/-- Items with commas between them; one may come after the last. -/
inductive Listed : List (List Part) → List Part → Prop
  | opened {is : List (List Part)} {ps : List Part} : Opened is ps → Listed is ps
  | last {is : List (List Part)} {i ps ns : List Part} : Opened is ps → Newlines ns →
      Listed (is ++ [i]) (ps ++ (i ++ ns))

def argItems (args : List Expr) (pass : Option Expr) : List (List Part) :=
  args.map ([.expr ·]) ++ pass.toList.map ([.mark .amp, .expr ·])

def paramItems (p : Params) : List (List Part) :=
  p.items.map ([.pattern ·]) ++ p.block.toList.map ([.mark .amp, .ident ·])

/-- The arguments of a call, in parentheses if `explicit`, and its block. -/
inductive Suffix : Bool → Arguments → List Part → Prop
  | none : Suffix false .none []
  | block {b : Block} : Suffix false ⟨[], some (.literal b)⟩ [.node .tight (.block b)]
  | list {args : List Expr} {pass : Option Expr} {ps : List Part} : Listed (argItems args pass) ps →
      Suffix true ⟨args, pass.map .pass⟩ (.mark .lParen :: (ps ++ [.mark .rParen]))
  | both {args : List Expr} {b : Block} {ps : List Part} : Listed (argItems args .none) ps →
      Suffix true ⟨args, some (.literal b)⟩
        (.mark .lParen :: (ps ++ [.mark .rParen, .node .tight (.block b)]))

inductive Parameters (first last : Mark) : Params → List Part → Prop
  | none : Parameters first last .none []
  | list {p : Params} {ps : List Part} : Listed (paramItems p) ps →
      Parameters first last p (.mark first :: (ps ++ [.mark last]))

inductive Bars : Params → List Part → Prop
  | list {p : Params} {ps : List Part} : Parameters .pipe .pipe p ps → Bars p ps
  | empty : Bars .none [.mark .orOr]

def guardParts : Option Expr → List Part
  | none => []
  | some e => [.word .if_, .expr e]

def superParts : Option Expr → List Part
  | none => []
  | some e => [.mark .less, .expr e]

/-- The statements after a word of their own, both of which may be missing. -/
inductive Tail (word : Keyword) : Option (List Expr) → List Part → Prop
  | none : Tail word none []
  | some {es : List Expr} {ps : List Part} : Sequence es ps → Tail word (some es) (.word word :: ps)

inductive Otherwise : Option (List Expr) → List Part → Prop
  | tail {es : Option (List Expr)} {ps : List Part} : Tail .else_ es ps → Otherwise es ps
  | branch {e : Expr} : Otherwise (some [e]) [.node .loose (.expr e)]

/-- The statements of a construct with its other parts, up to its end. -/
inductive Protected (b : Body) : List Part → Prop
  | mk {ps qs rs : List Part} : Sequence b.statements ps → Tail .else_ b.elseBody qs →
      Tail .ensure b.ensure rs →
      Protected b (ps ++ (b.rescues.map (.node .loose <| .rescue ·) ++
        (qs ++ (rs ++ [.word .end_]))))

inductive Head (d : MethodDef) : List Part → Prop
  | mk {ps qs : List Part} : Parameters .lParen .rParen d.params ps → Break qs →
      Head d (.definer .def_ d.doc :: ((if d.singleton then [.word .self, .mark .dot] else []) ++
        .ident d.name :: (ps ++ (guardParts d.guard ++ qs))))

def jumpWord : Jump → Keyword
  | .raise => .raise
  | .return_ => .return_
  | .break_ => .break_
  | .next => .next

def Names (kind : Expr.Kind) (name : String) : Prop :=
  kind = .name name ∨ kind = .attr name ∨ kind = .constant name

def NameTarget (i : Ident) (t : Target) : Prop := t = .local_ i ∨ t = .attr i ∨ t = .constant i

def CallTarget (receiver : Expr) (m : Ident) (args : List Expr) (t : Target) : Prop :=
  (m.name = "[]" ∧ t = .index receiver args) ∨
    (args = [] ∧ hasSetter m.name = true ∧ t = .member receiver m)

def assignmentKind (op : Option Compound) (t : Target) (e : Expr) : Expr.Kind :=
  match op with
  | none => .assign t e
  | some op => .compound op t e

/-- The node is made of the parts. Parentheses around an expression belong to it. -/
inductive Form : Ending → Node → List Part → Prop
  | identifier {i : Ident} : Form .tight (.ident i) [.token (.identifier i.name)]
  | constantName {i : Ident} : Form .tight (.ident i) [.token (.constant i.name)]
  | wordName {k : Keyword} {s : Span} : Form .tight (.ident ⟨k.text, s⟩) [.word k]
  | operatorName {m : Mark} {s : Span} : namesMethod m = true →
      Form .tight (.ident ⟨m.text, s⟩) [.mark m]
  | indexName {s : Span} : Form .tight (.ident ⟨"[]", s⟩) [.mark .lBracket, .mark .rBracket]
  | bracket {s : Span} : Form .tight (.ident ⟨"[]", s⟩) [.mark .lBracket]
  | setterName {name : String} {s : Span} :
      Form .tight (.ident ⟨name ++ "=", s⟩) [.token (.identifier name), .mark .assign]
  | indexSetterName {s : Span} :
      Form .tight (.ident ⟨"[]=", s⟩) [.mark .lBracket, .mark .rBracket, .mark .assign]
  | targetName {k : Expr.Kind} {name : String} {s s' : Span} {ps : List Part} :
      Form .tight (.expr ⟨k, s'⟩) ps → Names k name → Form .tight (.ident ⟨name, s⟩) ps
  | path {i : Ident} {is : List Ident} {s : Span} :
      Form .tight (.path ⟨i :: is, s⟩) (.ident i :: is.flatMap ([.mark .dot, .ident ·]))
  | wildcard {s : Span} : Form .tight (.pattern (.wildcard s)) [.token (.identifier "_")]
  | bind {i : Ident} : i.name ≠ "_" → Form .tight (.pattern (.bind i none)) [.ident i]
  | typed {i : Ident} {p : TypePath} :
      Form .tight (.pattern (.bind i (some p))) [.ident i, .mark .colon, .node .tight (.path p)]
  | const {p : TypePath} : Form .tight (.pattern (.const p)) [.node .tight (.path p)]
  | literalPattern {k : Token.Kind} {v : Literal} {s : Span} : literalOf k = some v →
      Form .tight (.pattern (.literal v s)) [.token k]
  | negatedPattern {k : Token.Kind} {v : Literal} {s : Span} : negatedLiteral k = some v →
      Form .tight (.pattern (.literal v s)) [.mark .minus, .token k]
  | listPattern {items : List Pattern} {s : Span} {ps : List Part} :
      Listed (items.map ([.pattern ·])) ps →
      Form .tight (.pattern (.list items s)) (.mark .lBracket :: (ps ++ [.mark .rBracket]))
  | splat {s : Span} : Form .tight (.pattern (.splat none s)) [.mark .star]
  | splatUnnamed {s : Span} :
      Form .tight (.pattern (.splat none s)) [.mark .star, .token (.identifier "_")]
  | splatNamed {i : Ident} {s : Span} : i.name ≠ "_" →
      Form .tight (.pattern (.splat (some i) s)) [.mark .star, .ident i]
  | literal {k : Token.Kind} {v : Literal} {s : Span} : literalOf k = some v →
      Form .tight (.expr ⟨.literal v, s⟩) [.token k]
  | negated {k : Token.Kind} {v : Literal} {s : Span} : negatedLiteral k = some v →
      Form .tight (.expr ⟨.literal v, s⟩) [.mark .minus, .token k]
  | self {s : Span} : Form .tight (.expr ⟨.self, s⟩) [.word .self]
  | name {n : String} {s : Span} : Form .tight (.expr ⟨.name n, s⟩) [.token (.identifier n)]
  | constant {n : String} {s : Span} : Form .tight (.expr ⟨.constant n, s⟩) [.token (.constant n)]
  | attr {n : String} {s : Span} : Form .tight (.expr ⟨.attr n, s⟩) [.token (.attr n)]
  | parens {k : Expr.Kind} {s s' : Span} {ps ns ms : List Part} : Form .tight (.expr ⟨k, s'⟩) ps →
      Newlines ns → Newlines ms →
      Form .tight (.expr ⟨k, s⟩) (.mark .lParen :: (ns ++ (ps ++ (ms ++ [.mark .rParen]))))
  | list {items : List Expr} {s : Span} {ps : List Part} : Listed (argItems items none) ps →
      Form .tight (.expr ⟨.list items, s⟩) (.mark .lBracket :: (ps ++ [.mark .rBracket]))
  | nameCall {m : Ident} {explicit : Bool} {a : Arguments} {s : Span} {ps : List Part} :
      Suffix explicit a ps → Form .tight (.expr ⟨.call none m a.args a.block, s⟩) (.ident m :: ps)
  | call {e : Expr} {m : Ident} {explicit : Bool} {a : Arguments} {s : Span}
      {ps ns ms : List Part} : Newlines ns → Newlines ms → Suffix explicit a ps →
      Form .tight (.expr ⟨.call (some e) m a.args a.block, s⟩)
        (.expr e :: (ns ++ .mark .dot :: (ms ++ .ident m :: ps)))
  | index {e : Expr} {args : List Expr} {s s' : Span} {ps : List Part} :
      Listed (argItems args none) ps →
      Form .tight (.expr ⟨.call (some e) ⟨"[]", s'⟩ args none, s⟩)
        (.expr e :: .ident ⟨"[]", s'⟩ :: (ps ++ [.mark .rBracket]))
  | superCall {a : Arguments} {explicit : Bool} {s : Span} {ps : List Part} : Suffix explicit a ps →
      Form .tight (.expr ⟨.super (if explicit then some a.args else none) a.block, s⟩)
        (.word .super :: ps)
  | yieldPlain {s : Span} : Form .tight (.expr ⟨.yield [], s⟩) [.word .yield]
  | yieldCall {args : List Expr} {s : Span} {ps : List Part} : Listed (argItems args none) ps →
      Form .tight (.expr ⟨.yield args, s⟩)
        (.word .yield :: .mark .lParen :: (ps ++ [.mark .rParen]))
  | blockValue {b : Block} {s : Span} : Form .tight (.expr ⟨.block b, s⟩) [.node .tight (.block b)]
  | binary {k : Token.Kind} {op : Operator} {l r : Expr} {s : Span} {ns : List Part} :
      Infix.ofKind? k = some (.binary op) → Newlines ns →
      Form .tight (.expr ⟨.binary op l r, s⟩) (.expr l :: .token k :: (ns ++ [.expr r]))
  | logical {k : Token.Kind} {op : Connective} {l r : Expr} {s : Span} {ns : List Part} :
      Infix.ofKind? k = some (.logical op) → Newlines ns →
      Form .tight (.expr ⟨.logical op l r, s⟩) (.expr l :: .token k :: (ns ++ [.expr r]))
  | fits {k : Token.Kind} {e : Expr} {p : Pattern} {s : Span} {ns : List Part} :
      Infix.ofKind? k = some .fits → Newlines ns →
      Form .tight (.expr ⟨.fits e p, s⟩) (.expr e :: .token k :: (ns ++ [.pattern p]))
  | unary {k : Token.Kind} {op : PrefixOp} {e : Expr} {s : Span} : prefixOp? k = some op →
      Form .tight (.expr ⟨.unary op e, s⟩) [.token k, .expr e]
  | assignName {k : Token.Kind} {op : Option Compound} {i : Ident} {t : Target} {e : Expr}
      {s : Span} {ns : List Part} : assignment? k = some op → NameTarget i t → Newlines ns →
      Form .tight (.expr ⟨assignmentKind op t e, s⟩) (.ident i :: .token k :: (ns ++ [.expr e]))
  | assignCall {k : Token.Kind} {op : Option Compound} {receiver : Expr} {m : Ident}
      {args : List Expr} {t : Target} {e : Expr} {s s' : Span} {ps ns : List Part} :
      assignment? k = some op → CallTarget receiver m args t →
      Form .tight (.expr ⟨.call (some receiver) m args none, s'⟩) ps → Newlines ns →
      Form .tight (.expr ⟨assignmentKind op t e, s⟩) (ps ++ .token k :: (ns ++ [.expr e]))
  | destructure {p : Pattern} {e : Expr} {s : Span} {ns : List Part} : Newlines ns →
      Form .tight (.expr ⟨.destructure p e, s⟩) (.pattern p :: .mark .assign :: (ns ++ [.expr e]))
  | conditional {s s' : Span} {c : Expr} {es : List Expr} {elseBody : Option (List Expr)} :
      Form .tight (.expr ⟨.cond s' c es elseBody, s⟩)
        [.node .loose (.cond s' c es elseBody), .word .end_]
  | laterBranch {s : Span} {c : Expr} {es : List Expr} {elseBody : Option (List Expr)} :
      Form .loose (.expr ⟨.cond s c es elseBody, s⟩) [.node .loose (.cond s c es elseBody)]
  | branch {word : Keyword} {s : Span} {c : Expr} {es : List Expr}
      {elseBody : Option (List Expr)} {bs ps qs : List Part} : word = .if_ ∨ word = .elsif →
      Break bs → Sequence es ps → Otherwise elseBody qs →
      Form .loose (.cond s c es elseBody) (.word word :: .expr c :: (bs ++ (ps ++ qs)))
  | loopValue {s s' : Span} {c : Expr} {es : List Expr} :
      Form .tight (.expr ⟨.loop s' c es, s⟩) [.node .tight (.loop s' c es)]
  | loop {s : Span} {c : Expr} {es : List Expr} {bs ps : List Part} : Break bs → Sequence es ps →
      Form .tight (.loop s c es) (.word .while_ :: .expr c :: (bs ++ (ps ++ [.word .end_])))
  | forEachValue {s s' : Span} {p : Pattern} {e : Expr} {es : List Expr} :
      Form .tight (.expr ⟨.forEach s' p e es, s⟩) [.node .tight (.forEach s' p e es)]
  | forEach {s : Span} {p : Pattern} {e : Expr} {es : List Expr} {bs ps : List Part} : Break bs →
      Sequence es ps →
      Form .tight (.forEach s p e es)
        (.word .for_ :: .pattern p :: .word .in_ :: .expr e :: (bs ++ (ps ++ [.word .end_])))
  | selectValue {s s' : Span} {e : Expr} {as : List Arm} {elseBody : Option (List Expr)} :
      Form .tight (.expr ⟨.select s' e as elseBody, s⟩) [.node .tight (.select s' e as elseBody)]
  | select {s : Span} {e : Expr} {as : List Arm} {elseBody : Option (List Expr)}
      {bs ps : List Part} : Break bs → as ≠ [] → Tail .else_ elseBody ps →
      Form .tight (.select s e as elseBody)
        (.word .case :: .expr e :: (bs ++ (as.map (.node .loose <| .arm ·) ++
          (ps ++ [.word .end_]))))
  | arm {a : Arm} {bs ps : List Part} : Break bs → Sequence a.body ps →
      Form .loose (.arm a)
        (.word .when :: .pattern a.pattern :: (guardParts a.guard ++ (bs ++ ps)))
  | rescue {r : Rescue} {bs ps : List Part} : Break bs → Sequence r.body ps →
      Form .loose (.rescue r)
        (.word .rescue :: (r.pattern.toList.map .pattern ++ (guardParts r.guard ++ (bs ++ ps))))
  | protect {b : Body} {s : Span} : Form .tight (.expr ⟨.protect b, s⟩) [.node .tight (.body b)]
  | body {b : Body} {ps : List Part} : Protected b ps →
      Form .tight (.body b) (.word .begin_ :: ps)
  | methodBody {d : MethodDef} {ps qs : List Part} : Head d ps → Protected d.body qs →
      Form .tight (.body d.body) (ps ++ qs)
  | methodValue {d : MethodDef} {s : Span} :
      Form .tight (.expr ⟨.method d, s⟩) [.node .tight (.method d)]
  | method {d : MethodDef} {ps qs : List Part} : d.body.span = d.span → Head d ps →
      Protected d.body qs → Form .tight (.method d) (ps ++ qs)
  | typeValue {d : TypeDef} {s : Span} :
      Form .tight (.expr ⟨.type d, s⟩) [.node .tight (.type d)]
  | type {d : TypeDef} {bs ps : List Part} : (d.sort = .module → d.superclass = none) →
      Break bs → Sequence d.body ps →
      Form .tight (.type d) (.definer (sortKeyword d.sort) d.doc :: .ident d.name ::
        (superParts d.superclass ++ (bs ++ (ps ++ [.word .end_]))))
  | block {b : Block} {first last : Token.Kind} {ps qs : List Part} :
      (first = .mark .lBrace ∧ last = .mark .rBrace) ∨
        (first = .keyword .do_ ∧ last = .keyword .end_) → Bars b.params ps → Sequence b.body qs →
      Form .tight (.block b) (.token first :: (ps ++ (qs ++ [.token last])))
  | jump {j : Jump} {s : Span} : Form .tight (.expr ⟨.jump j none, s⟩) [.word (jumpWord j)]
  | jumpWith {j : Jump} {e : Expr} {s : Span} :
      Form .tight (.expr ⟨.jump j (some e), s⟩) [.word (jumpWord j), .expr e]
  | include_ {e : Expr} {s : Span} :
      Form .tight (.expr ⟨.include_ e, s⟩) [.word .include_, .expr e]

structure Frames (e : Ending) (s : Span) (cells : List Cell) : Prop where
  first : ∃ c, cells.head? = some c ∧ s.first = c.span.first
  last : ∃ c, cells.getLast? = some c ∧ s.last = c.span.last ∧ (e = .tight → c.kind ≠ .newline)

/-- The parts are spelled by the cells. -/
inductive Laid : List Part → List Cell → Prop
  | nil : Laid [] []
  | token {c : Cell} {ps : List Part} {cells : List Cell} : Laid ps cells →
      Laid (.token c.kind :: ps) (c :: cells)
  | definer {k : Keyword} {c : Cell} {ps : List Part} {cells : List Cell} : c.kind = .keyword k →
      Laid ps cells → Laid (.definer k c.doc :: ps) (c :: cells)
  | node {e : Ending} {n : Node} {ps qs : List Part} {cells more : List Cell} : Form e n qs →
      Laid qs cells → Frames e n.span cells → Laid ps more → Laid (.node e n :: ps) (cells ++ more)

end Grammar

end Quill
