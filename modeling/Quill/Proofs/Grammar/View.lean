import Quill.Grammar.Program

/-!
# Views of trees

A view says how much of the spans and the documentation of a tree is looked at. Two trees that look
the same in it differ in nothing else.
-/

namespace Quill

namespace Grammar

/-- What is seen of spans and documentation. -/
structure View where
  span : Span → Span
  doc : Option String → Option String
  span_merge (a b : Span) : span (a.merge b) = (span a).merge (span b)

namespace View

/-- Sees neither where anything stands nor what documents it. -/
def blank : View := ⟨fun _ => .origin, fun _ => none, fun _ _ => rfl⟩

/-- Sees everything. -/
def full : View := ⟨id, id, fun _ _ => rfl⟩

variable (v : View)

def ident (i : Ident) : Ident := ⟨i.name, v.span i.span⟩

def path (p : TypePath) : TypePath := ⟨p.segments.map v.ident, v.span p.span⟩

mutual

def pattern : Pattern → Pattern
  | .wildcard s => .wildcard (v.span s)
  | .bind name type => .bind (v.ident name) (type.map v.path)
  | .const path => .const (v.path path)
  | .literal value s => .literal value (v.span s)
  | .list items s => .list (patterns items) (v.span s)
  | .splat name s => .splat (name.map v.ident) (v.span s)

def patterns : List Pattern → List Pattern
  | [] => []
  | p :: ps => pattern p :: patterns ps

end

def params (p : Params) : Params := ⟨v.patterns p.items, p.block.map v.ident⟩

mutual

def expr : Expr → Expr
  | ⟨k, s⟩ => ⟨kind k, v.span s⟩

def kind : Expr.Kind → Expr.Kind
  | .literal value => .literal value
  | .list items => .list (exprs items)
  | .self => .self
  | .name n => .name n
  | .constant n => .constant n
  | .attr n => .attr n
  | .call receiver m args b => .call (expr? receiver) (v.ident m) (exprs args) (blockArg? b)
  | .super args b => .super (exprs? args) (blockArg? b)
  | .yield args => .yield (exprs args)
  | .block b => .block (block b)
  | .binary op l r => .binary op (expr l) (expr r)
  | .unary op e => .unary op (expr e)
  | .logical op l r => .logical op (expr l) (expr r)
  | .fits e p => .fits (expr e) (v.pattern p)
  | .assign t e => .assign (target t) (expr e)
  | .compound op t e => .compound op (target t) (expr e)
  | .destructure p e => .destructure (v.pattern p) (expr e)
  | .cond s c thenBody elseBody => .cond (v.span s) (expr c) (exprs thenBody) (exprs? elseBody)
  | .loop s c es => .loop (v.span s) (expr c) (exprs es)
  | .forEach s p items es => .forEach (v.span s) (v.pattern p) (expr items) (exprs es)
  | .select s e as elseBody => .select (v.span s) (expr e) (arms as) (exprs? elseBody)
  | .protect b => .protect (body b)
  | .jump j e => .jump j (expr? e)
  | .method d => .method (methodDef d)
  | .type d => .type (typeDef d)
  | .include_ e => .include_ (expr e)

def exprs : List Expr → List Expr
  | [] => []
  | e :: es => expr e :: exprs es

def expr? : Option Expr → Option Expr
  | none => none
  | some e => some (expr e)

def exprs? : Option (List Expr) → Option (List Expr)
  | none => none
  | some es => some (exprs es)

def blockArg : BlockArg → BlockArg
  | .literal b => .literal (block b)
  | .pass e => .pass (expr e)

def blockArg? : Option BlockArg → Option BlockArg
  | none => none
  | some b => some (blockArg b)

def block : Block → Block
  | ⟨ps, es, s⟩ => ⟨v.params ps, exprs es, v.span s⟩

def target : Target → Target
  | .local_ i => .local_ (v.ident i)
  | .attr i => .attr (v.ident i)
  | .constant i => .constant (v.ident i)
  | .index e args => .index (expr e) (exprs args)
  | .member e i => .member (expr e) (v.ident i)

def arm : Arm → Arm
  | ⟨p, guard, es, s⟩ => ⟨v.pattern p, expr? guard, exprs es, v.span s⟩

def arms : List Arm → List Arm
  | [] => []
  | a :: as => arm a :: arms as

def body : Body → Body
  | ⟨es, rs, elseBody, ensure, s⟩ =>
    ⟨exprs es, rescues rs, exprs? elseBody, exprs? ensure, v.span s⟩

def rescue : Rescue → Rescue
  | ⟨p, guard, es, s⟩ => ⟨p.map v.pattern, expr? guard, exprs es, v.span s⟩

def rescues : List Rescue → List Rescue
  | [] => []
  | r :: rs => rescue r :: rescues rs

def methodDef : MethodDef → MethodDef
  | ⟨name, singleton, ps, guard, b, doc, s⟩ =>
    ⟨v.ident name, singleton, v.params ps, expr? guard, body b, v.doc doc, v.span s⟩

def typeDef : TypeDef → TypeDef
  | ⟨sort, name, superclass, es, doc, s⟩ =>
    ⟨sort, v.ident name, expr? superclass, exprs es, v.doc doc, v.span s⟩

end

theorem exprs_eq_map (es : List Expr) : v.exprs es = es.map v.expr := by
  induction es with
  | nil => rfl
  | cons e es ih => rw [exprs, ih, List.map_cons]

theorem arms_eq_map (as : List Arm) : v.arms as = as.map v.arm := by
  induction as with
  | nil => rfl
  | cons a as ih => rw [arms, ih, List.map_cons]

theorem rescues_eq_map (rs : List Rescue) : v.rescues rs = rs.map v.rescue := by
  induction rs with
  | nil => rfl
  | cons r rs ih => rw [rescues, ih, List.map_cons]

theorem patterns_eq_map (ps : List Pattern) : v.patterns ps = ps.map v.pattern := by
  induction ps with
  | nil => rfl
  | cons p ps ih => rw [patterns, ih, List.map_cons]

theorem span_expr (e : Expr) : (v.expr e).span = v.span e.span := by
  cases e
  rw [expr]

theorem ident_full (i : Ident) : full.ident i = i := rfl

theorem path_full (p : TypePath) : full.path p = p := by
  rw [path, funext ident_full, List.map_id']
  rfl

mutual

theorem pattern_full : (p : Pattern) → full.pattern p = p
  | .wildcard _ | .literal .. => rfl
  | .bind name type => by rw [pattern, funext path_full, Option.map_id', ident_full]
  | .const path => by rw [pattern, path_full]
  | .list items s => by
    rw [pattern, patterns_full items]
    rfl
  | .splat name s => by
    rw [pattern, funext ident_full, Option.map_id']
    rfl

theorem patterns_full : (ps : List Pattern) → full.patterns ps = ps
  | [] => rfl
  | p :: ps => by rw [patterns, pattern_full p, patterns_full ps]

end

theorem params_full (ps : Params) : full.params ps = ps := by
  rw [params, patterns_full, funext ident_full, Option.map_id']

mutual

theorem expr_full : (e : Expr) → full.expr e = e
  | ⟨k, s⟩ => by
    rw [expr, kind_full k]
    rfl

theorem kind_full : (k : Expr.Kind) → full.kind k = k
  | .literal _ | .self | .name _ | .constant _ | .attr _ => by rw [kind]
  | .list items => by rw [kind, exprs_full items]
  | .call e m args b => by
    rw [kind, expr?_full e, ident_full, exprs_full args, blockArg?_full b]
  | .super args b => by rw [kind, exprs?_full args, blockArg?_full b]
  | .yield args => by rw [kind, exprs_full args]
  | .block b => by rw [kind, block_full b]
  | .binary op l r => by rw [kind, expr_full l, expr_full r]
  | .unary op e => by rw [kind, expr_full e]
  | .logical op l r => by rw [kind, expr_full l, expr_full r]
  | .fits e p => by rw [kind, expr_full e, pattern_full]
  | .assign t e => by rw [kind, target_full t, expr_full e]
  | .compound op t e => by rw [kind, target_full t, expr_full e]
  | .destructure p e => by rw [kind, pattern_full, expr_full e]
  | .cond s c es es' => by
    rw [kind, expr_full c, exprs_full es, exprs?_full es']
    rfl
  | .loop s c es => by
    rw [kind, expr_full c, exprs_full es]
    rfl
  | .forEach s p e es => by
    rw [kind, pattern_full, expr_full e, exprs_full es]
    rfl
  | .select s e as es => by
    rw [kind, expr_full e, arms_full as, exprs?_full es]
    rfl
  | .protect b => by rw [kind, body_full b]
  | .jump j e => by rw [kind, expr?_full e]
  | .method d => by rw [kind, methodDef_full d]
  | .type d => by rw [kind, typeDef_full d]
  | .include_ e => by rw [kind, expr_full e]

theorem exprs_full : (es : List Expr) → full.exprs es = es
  | [] => by rw [exprs]
  | e :: es => by rw [exprs, expr_full e, exprs_full es]

theorem expr?_full : (e : Option Expr) → full.expr? e = e
  | none => by rw [expr?]
  | some e => by rw [expr?, expr_full e]

theorem exprs?_full : (es : Option (List Expr)) → full.exprs? es = es
  | none => by rw [exprs?]
  | some es => by rw [exprs?, exprs_full es]

theorem blockArg_full : (b : BlockArg) → full.blockArg b = b
  | .literal b => by rw [blockArg, block_full b]
  | .pass e => by rw [blockArg, expr_full e]

theorem blockArg?_full : (b : Option BlockArg) → full.blockArg? b = b
  | none => by rw [blockArg?]
  | some b => by rw [blockArg?, blockArg_full b]

theorem block_full : (b : Block) → full.block b = b
  | ⟨ps, es, s⟩ => by
    rw [block, params_full, exprs_full es]
    rfl

theorem target_full : (t : Target) → full.target t = t
  | .local_ _ | .attr _ | .constant _ => by rw [target, ident_full]
  | .index e args => by rw [target, expr_full e, exprs_full args]
  | .member e i => by rw [target, expr_full e, ident_full]

theorem arm_full : (a : Arm) → full.arm a = a
  | ⟨p, guard, es, s⟩ => by
    rw [arm, pattern_full, expr?_full guard, exprs_full es]
    rfl

theorem arms_full : (as : List Arm) → full.arms as = as
  | [] => by rw [arms]
  | a :: as => by rw [arms, arm_full a, arms_full as]

theorem body_full : (b : Body) → full.body b = b
  | ⟨es, rs, es', es'', s⟩ => by
    rw [body, exprs_full es, rescues_full rs, exprs?_full es', exprs?_full es'']
    rfl

theorem rescue_full : (r : Rescue) → full.rescue r = r
  | ⟨p, guard, es, s⟩ => by
    rw [rescue, funext pattern_full, Option.map_id', expr?_full guard, exprs_full es]
    rfl

theorem rescues_full : (rs : List Rescue) → full.rescues rs = rs
  | [] => by rw [rescues]
  | r :: rs => by rw [rescues, rescue_full r, rescues_full rs]

theorem methodDef_full : (d : MethodDef) → full.methodDef d = d
  | ⟨name, singleton, ps, guard, b, doc, s⟩ => by
    rw [methodDef, ident_full, params_full, expr?_full guard, body_full b]
    rfl

theorem typeDef_full : (d : TypeDef) → full.typeDef d = d
  | ⟨sort, name, e, es, doc, s⟩ => by
    rw [typeDef, ident_full, expr?_full e, exprs_full es]
    rfl

end

end View

end Grammar

end Quill
