import Mathlib.Logic.Relation
import Quill.Grammar.Program

/-!
# The nodes of a program

Everything in a tree that has a span is a node. What holds of a node and goes over from each node to
its children holds of all nodes inside.
-/

namespace Quill

/-- What has a span in a tree. The constructs between `if`, `while`, `for` or `case` and their end
have one besides that of the expression. -/
inductive Node where
  | program (p : Program)
  | expr (e : Expr)
  | cond (span : Span) (condition : Expr) (thenBody : List Expr) (elseBody : Option (List Expr))
  | loop (span : Span) (condition : Expr) (body : List Expr)
  | forEach (span : Span) (pattern : Pattern) (items : Expr) (body : List Expr)
  | select (span : Span) (subject : Expr) (arms : List Arm) (elseBody : Option (List Expr))
  | block (b : Block)
  | arm (a : Arm)
  | body (b : Body)
  | rescue (r : Rescue)
  | method (d : MethodDef)
  | type (d : TypeDef)
  | pattern (p : Pattern)
  | path (p : TypePath)
  | ident (i : Ident)

namespace Node

def span : Node → Span
  | program p => p.span
  | expr e => e.span
  | cond s _ _ _ | loop s _ _ | forEach s _ _ _ | select s _ _ _ => s
  | block b => b.span
  | arm a => a.span
  | body b => b.span
  | rescue r => r.span
  | method d => d.span
  | type d => d.span
  | pattern p => p.span
  | path p => p.span
  | ident i => i.span

def doc : Node → Option String
  | method d => d.doc
  | type d => d.doc
  | _ => none

def ofBlockArg : BlockArg → Node
  | .literal b => block b
  | .pass e => expr e

def ofTarget : Target → List Node
  | .local_ i | .attr i | .constant i => [ident i]
  | .index e args => expr e :: args.map expr
  | .member e i => [expr e, ident i]

def ofParams (p : Params) : List Node := p.items.map pattern ++ p.block.toList.map ident

def ofKind : Expr.Kind → List Node
  | .literal _ | .self | .name _ | .constant _ | .attr _ => []
  | .list items => items.map expr
  | .call receiver m args b =>
    receiver.toList.map expr ++ ident m :: (args.map expr ++ b.toList.map ofBlockArg)
  | .super args b => (args.getD []).map expr ++ b.toList.map ofBlockArg
  | .yield args => args.map expr
  | .block b => [block b]
  | .binary _ l r | .logical _ l r => [expr l, expr r]
  | .unary _ e | .include_ e => [expr e]
  | .fits e p => [expr e, pattern p]
  | .assign t e | .compound _ t e => ofTarget t ++ [expr e]
  | .destructure p e => [pattern p, expr e]
  | .cond s c es elseBody => [cond s c es elseBody]
  | .loop s c es => [loop s c es]
  | .forEach s p e es => [forEach s p e es]
  | .select s e as elseBody => [select s e as elseBody]
  | .protect b => [body b]
  | .jump _ e => e.toList.map expr
  | .method d => [method d]
  | .type d => [type d]

def ofPattern : Pattern → List Node
  | .wildcard _ | .literal .. => []
  | .bind i p => ident i :: p.toList.map path
  | .const p => [path p]
  | .list items _ => items.map pattern
  | .splat i _ => i.toList.map ident

def ofHead (d : MethodDef) : List Node :=
  ident d.name :: (ofParams d.params ++ d.guard.toList.map expr)

/-- The nodes right inside, in the order in which they are written. -/
def children : Node → List Node
  | program p => p.body.map expr
  | expr e => ofKind e.kind
  | cond _ c es elseBody => expr c :: (es.map expr ++ (elseBody.getD []).map expr)
  | loop _ c es => expr c :: es.map expr
  | forEach _ p e es => pattern p :: expr e :: es.map expr
  | select _ e as elseBody => expr e :: (as.map arm ++ (elseBody.getD []).map expr)
  | block b => ofParams b.params ++ b.body.map expr
  | arm a => pattern a.pattern :: (a.guard.toList.map expr ++ a.body.map expr)
  | body b => b.statements.map expr ++ (b.rescues.map rescue ++
      ((b.elseBody.getD []).map expr ++ (b.ensure.getD []).map expr))
  | rescue r => r.pattern.toList.map pattern ++ (r.guard.toList.map expr ++ r.body.map expr)
  | method d => ofHead d ++ [body d.body]
  | type d => ident d.name :: (d.superclass.toList.map expr ++ d.body.map expr)
  | pattern p => ofPattern p
  | path p => p.segments.map ident
  | ident _ => []

/-- What the node assigns to. -/
def target? : Node → Option Target
  | expr ⟨.assign t _, _⟩ => some t
  | expr ⟨.compound _ t _, _⟩ => some t
  | _ => none

/-- The children that share the span of the node among them. The body of a method has all of it. -/
def siblings : Node → List Node
  | method d => ofHead d
  | n => n.children

def Inside : Node → Node → Prop := Relation.ReflTransGen fun n m ↦ m ∈ n.children

def All (P : Node → Prop) (n : Node) : Prop := ∀ m, n.Inside m → P m

namespace All

variable {P Q : Node → Prop} {n m : Node}

theorem self (h : n.All P) : P n := h n .refl

theorem child (h : n.All P) (hm : m ∈ n.children) : m.All P := fun k hk ↦ h k (.head hm hk)

theorem intro (h : P n) (hc : ∀ m ∈ n.children, m.All P) : n.All P := by
  intro m hm
  obtain rfl | ⟨k, hk, hkm⟩ := hm.cases_head
  · exact h
  · exact hc k hk m hkm

theorem of_closed (h : P n) (hc : ∀ n m, P n → m ∈ n.children → P m)
    (hq : ∀ m, P m → Q m) : n.All Q := by
  intro m hm
  refine hq m ?_
  induction hm with
  | refl => exact h
  | tail _ hk ih => exact hc _ _ ih hk

end All

/-- Whether the node and all nodes inside are as `p` says, if they are nested `depth` deep at
most. -/
def allWithin (p : Node → Bool) : Nat → Node → Bool
  | 0, _ => false
  | depth + 1, n => p n && n.children.all (allWithin p depth)

theorem all_of_allWithin {p : Node → Bool} {depth : Nat} {n : Node}
    (h : n.allWithin p depth = true) : n.All (p · = true) := by
  induction depth generalizing n with
  | zero => cases h
  | succ depth ih =>
    obtain ⟨hn, hc⟩ := Bool.and_eq_true_iff.mp h
    exact .intro hn fun m hm ↦ ih (List.all_eq_true.mp hc m hm)

def assigned? (n : Node) : Option Ident :=
  match n.target? with
  | some (.constant i) => some i
  | _ => none

end Node

/-- The program assigns no constants, not even in the code that it only defines. -/
def Program.AssignsNoConstants (p : Program) : Prop :=
  (Node.program p).All fun n ↦ ∀ i, n.target? ≠ some (.constant i)

/-- Whether the program assigns no constants, if it is not nested too deep. -/
def Program.assignsNoConstants (p : Program) : Bool :=
  (Node.program p).allWithin (·.assigned?.isNone) 100

theorem Program.of_assignsNoConstants {p : Program} (h : p.assignsNoConstants = true) :
    p.AssignsNoConstants := by
  intro n hn i hi
  have hnone := Node.all_of_allWithin h n hn
  simp [Node.assigned?, hi] at hnone

end Quill
