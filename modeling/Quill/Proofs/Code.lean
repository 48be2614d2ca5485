import Quill.Proofs.Data.Integers
import Quill.Proofs.Declaring
import Quill.Proofs.Evolution

/-!
# What given code does

`Code` is code of a few forms, without its spans. For each form there is a rule that leads from the
ends of its parts to its own end. An `Operand` sends no message and has its value after one step
(`Task.Gives.operand`).
-/

namespace Quill

inductive Operand where
  | text (t : String)
  | name (x : String)
  | attr (x : String)
  | constant (x : String)
  | self
  deriving DecidableEq

namespace Operand

def kind : Operand → Expr.Kind
  | text t => .literal (.str t)
  | name x => .name x
  | attr x => .attr x
  | constant x => .constant x
  | self => .self

def ofKind? : Expr.Kind → Option Operand
  | .literal (.str t) => some (text t)
  | .name x => some (name x)
  | .attr x => some (attr x)
  | .constant x => some (constant x)
  | .self => some self
  | _ => none

theorem kind_of_ofKind? {k : Expr.Kind} {l : Operand} (h : ofKind? k = some l) : k = l.kind := by
  unfold ofKind? at h
  split at h <;> cases h <;> rfl

/-- What it stands for. Constants are looked up only where nothing is around. -/
def value? (s : State) (ctx : Context) : Operand → Option Value
  | text t => some (.str t)
  | name x => s.scopes.get? ctx.scope x
  | attr x => some (s.attr ctx.self x)
  | constant x =>
    if (s.types.parent ctx.module).isNone then
      (s.types.ancestors ctx.module).findSome? (s.types.constant? · x)
    else none
  | self => some ctx.self

end Operand

inductive Code where
  | operand (l : Operand)
  | operation (op : Operator) (left right : Code)
  | ask (receiver : Code) (message : String) (args : List Code)
  /-- A message to the current object. -/
  | tell (message : String) (args : List Code)
  /-- Assigns an attribute. -/
  | set (x : String) (value : Code)
  | choice (condition yes no : Code)
  | raise (value : Code)

namespace Code

mutual

def Spanned : Code → Expr → Prop
  | operand l, e => e.kind = l.kind
  | operation op l r, e => ∃ l' r', e.kind = .binary op l' r' ∧ l.Spanned l' ∧ r.Spanned r'
  | ask c message args, e => ∃ c' m args', e.kind = .call (some c') m args' none ∧
      m.name = message ∧ c.Spanned c' ∧ AllSpanned args args'
  | tell message args, e => ∃ m args', e.kind = .call none m args' none ∧ m.name = message ∧
      AllSpanned args args'
  | set x c, e => ∃ i c', e.kind = .assign (.attr i) c' ∧ i.name = x ∧ c.Spanned c'
  | choice c y n, e => ∃ s c' y' n', e.kind = .cond s c' [y'] (some [n']) ∧ c.Spanned c' ∧
      y.Spanned y' ∧ n.Spanned n'
  | raise c, e => ∃ c', e.kind = .jump .raise (some c') ∧ c.Spanned c'

def AllSpanned : List Code → List Expr → Prop
  | [], es => es = []
  | c :: cs, es => ∃ e es', es = e :: es' ∧ c.Spanned e ∧ AllSpanned cs es'

end

mutual

def spans : Code → Expr → Bool
  | operand l, e => Operand.ofKind? e.kind == some l
  | operation op l r, e => match e.kind with
    | .binary op' l' r' => op == op' && (l.spans l' && r.spans r')
    | _ => false
  | ask c message args, e => match e.kind with
    | .call (some c') m args' none => m.name == message && (c.spans c' && spansAll args args')
    | _ => false
  | tell message args, e => match e.kind with
    | .call none m args' none => m.name == message && spansAll args args'
    | _ => false
  | set x c, e => match e.kind with
    | .assign (.attr i) c' => i.name == x && c.spans c'
    | _ => false
  | choice c y n, e => match e.kind with
    | .cond _ c' [y'] (some [n']) => c.spans c' && (y.spans y' && n.spans n')
    | _ => false
  | raise c, e => match e.kind with
    | .jump .raise (some c') => c.spans c'
    | _ => false

def spansAll : List Code → List Expr → Bool
  | [], es => es.isEmpty
  | c :: cs, e :: es => c.spans e && spansAll cs es
  | _ :: _, [] => false

end

mutual

theorem spanned_of_spans : ∀ {c : Code} {e : Expr}, c.spans e = true → c.Spanned e
  | operand l, e, h => Operand.kind_of_ofKind? (beq_iff_eq.mp h)
  | operation op l r, e, h => by
    unfold spans at h
    split at h
    · rename_i hkind
      obtain ⟨hop, hl, hr⟩ := by simpa only [Bool.and_eq_true, beq_iff_eq] using h
      exact ⟨_, _, hop ▸ hkind, spanned_of_spans hl, spanned_of_spans hr⟩
    · cases h
  | ask c message args, e, h => by
    unfold spans at h
    split at h
    · rename_i hkind
      obtain ⟨hm, hc, hargs⟩ := by simpa only [Bool.and_eq_true, beq_iff_eq] using h
      exact ⟨_, _, _, hkind, hm, spanned_of_spans hc, allSpanned_of_spansAll hargs⟩
    · cases h
  | tell message args, e, h => by
    unfold spans at h
    split at h
    · rename_i hkind
      obtain ⟨hm, hargs⟩ := by simpa only [Bool.and_eq_true, beq_iff_eq] using h
      exact ⟨_, _, hkind, hm, allSpanned_of_spansAll hargs⟩
    · cases h
  | set x c, e, h => by
    unfold spans at h
    split at h
    · rename_i hkind
      obtain ⟨hx, hc⟩ := by simpa only [Bool.and_eq_true, beq_iff_eq] using h
      exact ⟨_, _, hkind, hx, spanned_of_spans hc⟩
    · cases h
  | choice c y n, e, h => by
    unfold spans at h
    split at h
    · rename_i hkind
      obtain ⟨hc, hy, hn⟩ := by simpa only [Bool.and_eq_true] using h
      exact ⟨_, _, _, _, hkind, spanned_of_spans hc, spanned_of_spans hy, spanned_of_spans hn⟩
    · cases h
  | raise c, e, h => by
    unfold spans at h
    split at h
    · rename_i hkind
      exact ⟨_, hkind, spanned_of_spans h⟩
    · cases h

theorem allSpanned_of_spansAll :
    ∀ {cs : List Code} {es : List Expr}, spansAll cs es = true → AllSpanned cs es
  | [], [], _ => rfl
  | c :: cs, e :: es, h => by
    obtain ⟨hc, hcs⟩ := Bool.and_eq_true_iff.mp h
    exact ⟨e, es, rfl, spanned_of_spans hc, allSpanned_of_spansAll hcs⟩

end

end Code

section

variable {s s' s₁ s₂ s₃ : State} {ctx : Context} {e : Expr}

theorem State.Allows.later {n k : Nat} (h : s.Allows n) (hc : s'.config = s.config)
    (hsteps : s'.steps + k ≤ s.steps + n) : s'.Allows k := by
  intro limit hlimit
  rw [hc] at hlimit
  have hleft := h limit hlimit
  omega

theorem State.findConstant_alone {t : TypeId} {x : String} {v : Value}
    (hp : s.types.parent t = none)
    (h : (s.types.ancestors t).findSome? (s.types.constant? · x) = some v) :
    s.findConstant t x = some v := by
  obtain ⟨rest, hrest⟩ := List.head?_eq_some_iff.mp (s.types.ancestors_head t)
  rw [findConstant, outwardWithin, hp]
  cases hown : s.types.constant? t x with
  | some w =>
    rw [hrest, List.findSome?_cons, hown] at h
    exact h
  | none =>
    dsimp only
    rw [h]

theorem State.letGoAround_alone {t : TypeId} (hp : s.types.parent t = none) (x : String) :
    s.letGoAround x t = s := by
  rw [letGoAround, letGoWithin, hp]
  split <;> rfl

theorem Eval.Gives.constant_alone {x : String} {v : Value} {span : Span}
    (hp : s.types.parent ctx.module = none)
    (h : (s.types.ancestors ctx.module).findSome? (s.types.constant? · x) = some v) :
    (Eval.constant ctx x span).Gives s (.ok v) s := by
  have hfound : (Eval.constant? ctx x).Gives s (.ok (some v)) s := by
    have hgives : (Eval.constant? ctx x).Gives s _ _ :=
      .bind (.change (fun s ↦ ((), s.letGoAround x ctx.module)) s)
        (.read (·.findConstant ctx.module x) _)
    rwa [State.letGoAround_alone hp, State.findConstant_alone hp h] at hgives
  exact .bind hfound (.pure v s)

/-- The constant is the type `u` for the methods of a type that nothing is around. -/
structure Types.Sees (ts : Types) (t : TypeId) (x : String) (u : TypeId) : Prop where
  alone : ts.parent t = none
  found : (ts.ancestors t).findSome? (ts.constant? · x) = some (.type u)

def Types.sees (ts : Types) (t : TypeId) (x : String) (u : TypeId) : Bool :=
  (ts.parent t).isNone && match (ts.ancestors t).findSome? (ts.constant? · x) with
    | some (.type v) => v == u
    | _ => false

theorem Types.Sees.of_checked {ts : Types} {t u : TypeId} {x : String}
    (h : ts.sees t x u = true) : ts.Sees t x u := by
  obtain ⟨halone, hfound⟩ := Bool.and_eq_true_iff.mp h
  refine ⟨Option.isNone_iff_eq_none.mp halone, ?_⟩
  split at hfound
  · rename_i v heq
    rw [heq, beq_iff_eq.mp hfound]
  · cases hfound

theorem Types.Sees.value? {t u : TypeId} {x : String} (h : s.types.Sees t x u)
    (hmodule : ctx.module = t) (htypes : s'.types = s.types) :
    (Operand.constant x).value? s' ctx = some (.type u) := by
  rw [Operand.value?, htypes, hmodule, h.alone]
  exact h.found

namespace Task.Gives

variable {a b v : Value} {vs : List Value} {o : Outcome Value}

theorem operand {l : Operand} (hs : s.Allows 1) (he : e.kind = l.kind)
    (hv : l.value? s ctx = some v) :
    (Task.eval e ctx).Gives s (.ok v) { s with steps := s.steps + 1 } := by
  refine .eval_allowed hs ?_
  rw [Eval.expression, he]
  cases l with
  | text t =>
    cases hv
    exact .pure _ _
  | name x =>
    refine .bind (.read _ _) ?_
    dsimp only
    rw [show s.scopes.get? ctx.scope x = some v from hv]
    exact .pure _ _
  | attr x =>
    cases hv
    exact .read _ _
  | constant x =>
    rw [Operand.value?] at hv
    split at hv
    · rename_i hp
      exact .constant_alone (Option.isNone_iff_eq_none.mp hp) hv
    · cases hv
  | self =>
    cases hv
    exact .pure _ _

theorem operation {op : Operator} {l r : Expr} (hs : s.Allows 1) (he : e.kind = .binary op l r)
    (hl : (Task.eval l ctx).Gives { s with steps := s.steps + 1 } (.ok a) s₁)
    (hr : (Task.eval r ctx).Gives { s₁ with held := ⟨[a], none⟩ :: s₁.held } (.ok b) s₂)
    (hsend : (Task.send op.method ⟨a, [b], none, e.span⟩).Gives { s₂ with held := s₁.held } (.ok v)
      s₃) :
    (Task.eval e ctx).Gives s (.ok (if op = .notEq then .bool (!v.isTruthy) else v)) s₃ := by
  refine .eval_allowed hs ?_
  rw [Eval.expression, he]
  exact .bind (.perform hl) (.bind (.keeping _ (.perform hr)) (.bind (.perform hsend) (.pure _ _)))

end Task.Gives

namespace Eval.Gives

variable {v : Value} {vs done : List Value} {es : List Expr} {o : Outcome Value}

theorem values_cons {o : Outcome (List Value)}
    (h : (Task.eval e ctx).Gives { s with held := ⟨done, none⟩ :: s.held } (.ok v) s₁)
    (hrest : (valuesOnto ctx (v :: done) es).Gives { s₁ with held := s.held } o s') :
    (valuesOnto ctx done (e :: es)).Gives s o s' := .bind (.keeping _ (.perform h)) hrest

theorem values_operands {ls : List Operand} (hs : s.Allows ls.length)
    (hes : Code.AllSpanned (ls.map .operand) es)
    (hvs : List.Forall₂ (fun l v ↦ l.value? s ctx = some v) ls vs) :
    (valuesOnto ctx done es).Gives s (.ok (done.reverse ++ vs))
      { s with steps := s.steps + ls.length } := by
  induction ls generalizing s done es vs with
  | nil =>
    obtain rfl : es = [] := hes
    cases hvs
    rw [List.append_nil]
    exact .pure _ s
  | cons l ls ih =>
    obtain ⟨e, es, rfl, he, hes⟩ := hes
    cases hvs with
    | @cons _ v _ vs hv hvs =>
      have hfirst : (Task.eval e ctx).Gives { s with held := ⟨done, none⟩ :: s.held } (.ok v) _ :=
        .operand (hs.later rfl (by simp)) he hv
      have hmore : (valuesOnto ctx (v :: done) es).Gives { s with steps := s.steps + 1 } _ _ :=
        ih (hs.later rfl (by simp only [List.length_cons]; omega)) hes hvs
      rw [List.reverse_cons, List.append_assoc, Nat.add_assoc, Nat.add_comm 1] at hmore
      exact .values_cons hfirst hmore

theorem catchingBreak_none {x : Eval Value} (h : x.Gives s o s') :
    (catchingBreak none x).Gives s o s' := by
  refine .bind h.attempt ?_
  split
  · exact .unwind _ s'
  · exact .ofOutcome _ s'

end Eval.Gives

namespace Task.Gives

variable {a b v : Value} {vs : List Value} {es : List Expr} {o : Outcome Value} {m : Ident}

theorem ask {r : Expr} (hs : s.Allows 1) (he : e.kind = .call (some r) m es none)
    (hr : (Task.eval r ctx).Gives { s with steps := s.steps + 1 } (.ok v) s₁)
    (hargs : (Eval.values es ctx).Gives { s₁ with held := ⟨[v], none⟩ :: s₁.held } (.ok vs) s₂)
    (hsend : (Task.send m.name ⟨v, vs, none, e.span⟩).Gives { s₂ with held := s₁.held } o s') :
    (Task.eval e ctx).Gives s o s' := by
  refine .eval_allowed hs ?_
  rw [Eval.expression, he]
  exact .bind (.perform hr) (.bind (.keeping _ (.bind hargs (.bind (.keeping _ (.pure _ _))
    (.pure _ _)))) (.catchingBreak_none (.perform hsend)))

theorem operation_operands {op : Operator} {l r : Operand} {l' r' : Expr} (hs : s.Allows 3)
    (he : e.kind = .binary op l' r') (hl' : l'.kind = l.kind) (hr' : r'.kind = r.kind)
    (hl : l.value? s ctx = some a) (hr : r.value? s ctx = some b)
    (hsend : (Task.send op.method ⟨a, [b], none, e.span⟩).Gives
      { s with steps := s.steps + 1 + 1 + 1 } (.ok v) s') :
    (Task.eval e ctx).Gives s (.ok (if op = .notEq then .bool (!v.isTruthy) else v)) s' := by
  have hleft : (Task.eval l' ctx).Gives { s with steps := s.steps + 1 } (.ok a) _ :=
    .operand (hs.later rfl (by simp)) hl' hl
  have hright : (Task.eval r' ctx).Gives
      { s with steps := s.steps + 1 + 1, held := ⟨[a], none⟩ :: s.held } (.ok b) _ :=
    .operand (hs.later rfl (by simp)) hr' hr
  exact .operation (hs.later rfl (by simp)) he hleft hright hsend

theorem ask_operands {l : Operand} (ls : List Operand) {r : Expr} (hs : s.Allows (ls.length + 2))
    (he : e.kind = .call (some r) m es none) (hr : r.kind = l.kind)
    (hes : Code.AllSpanned (ls.map .operand) es) (hl : l.value? s ctx = some v)
    (hls : List.Forall₂ (fun l v ↦ l.value? s ctx = some v) ls vs)
    (hsend : (Task.send m.name ⟨v, vs, none, e.span⟩).Gives
      { s with steps := s.steps + 1 + 1 + ls.length } o s') :
    (Task.eval e ctx).Gives s o s' := by
  have hreceiver : (Task.eval r ctx).Gives { s with steps := s.steps + 1 } (.ok v) _ :=
    .operand (hs.later rfl (by dsimp only; omega)) hr hl
  have hargs : (Eval.values es ctx).Gives
      { s with steps := s.steps + 1 + 1, held := ⟨[v], none⟩ :: s.held } (.ok vs) _ :=
    .values_operands (hs.later rfl (by dsimp only; omega)) hes hls
  exact .ask (hs.later rfl (by omega)) he hreceiver hargs hsend

theorem tell (hs : s.Allows 1) (he : e.kind = .call none m es none)
    (hargs : (Eval.values es ctx).Gives { s with steps := s.steps + 1 } (.ok vs) s₁)
    (hname : s₁.scopes.get? ctx.scope m.name = none)
    (hsend : (Task.send m.name ⟨ctx.self, vs, none, e.span⟩).Gives s₁ o s') :
    (Task.eval e ctx).Gives s o s' := by
  have hcall : (Eval.callNamed m.name vs none ctx e.span).Gives s₁ o s' := by
    refine .bind (.read _ s₁) ?_
    rw [hname]
    exact .perform hsend
  refine .eval_allowed hs ?_
  rw [Eval.expression, he]
  exact .bind (.bind hargs (.bind (.keeping _ (.pure _ _)) (.pure _ _)))
    (.catchingBreak_none hcall)

theorem choice {span : Span} {c y n : Expr} (hs : s.Allows 1)
    (he : e.kind = .cond span c [y] (some [n]))
    (hc : (Task.eval c ctx).Gives { s with steps := s.steps + 1 } (.ok v) s₁)
    (hbranch : (Task.eval (if v.isTruthy then y else n) ctx).Gives s₁ o s') :
    (Task.eval e ctx).Gives s o s' := by
  refine .eval_allowed hs ?_
  rw [Eval.expression, he]
  refine .bind (.perform hc) ?_
  cases hv : v.isTruthy with
  | true =>
    rw [hv] at hbranch
    exact .perform hbranch
  | false =>
    rw [hv] at hbranch
    exact .perform hbranch

theorem raise {x : Expr} (hs : s.Allows 1) (he : e.kind = .jump .raise (some x))
    (hx : (Task.eval x ctx).Gives { s with steps := s.steps + 1 } (.ok v) s') :
    (Task.eval e ctx).Gives s (.error (.raise ⟨v, e.span, s'.frames⟩)) s' := by
  refine .eval_allowed hs ?_
  rw [Eval.expression, he]
  exact .bind (.perform hx) (.bind (.read _ s') (.unwind _ s'))

theorem set {i : Ident} {x : Expr} {l : Operand} {id : ObjectId} (hs : s.Allows 2)
    (he : e.kind = .assign (.attr i) x) (hself : ctx.self = .object id) (hx : x.kind = l.kind)
    (hv : l.value? s ctx = some v) :
    (Task.eval e ctx).Gives s (.ok v)
      ({ s with steps := s.steps + 2 }.setObjectAttr id i.name v) := by
  have hvalue : (Task.eval x ctx).Gives
      { s with steps := s.steps + 1, held := ⟨[], none⟩ :: s.held } (.ok v) _ :=
    .operand (hs.later rfl (by simp)) hx hv
  have hwrite (s : State) : (Eval.writePlace (.attr i.name) v ctx e.span).Gives s (.ok ())
      (s.setObjectAttr id i.name v) := by
    rw [Eval.writePlace, hself]
    exact .change (fun s ↦ ((), s.setObjectAttr id i.name v)) s
  refine .eval_allowed (hs.later rfl (by simp)) ?_
  rw [Eval.expression, he]
  exact .bind (.pure _ _) (.bind (.keeping _ (.perform hvalue)) (.bind (.keeping _ (hwrite _))
    (.pure _ _)))

end Task.Gives

@[simp] theorem State.size_setObjectAttr (s : State) (id : ObjectId) (x : String) (v : Value) :
    (s.setObjectAttr id x v).objects.size = s.objects.size := Array.size_modify

theorem State.object_setObjectAttr {id : ObjectId} (h : id.index < s.objects.size) (x : String)
    (v : Value) : (s.setObjectAttr id x v).object id =
      { s.object id with attrs := (s.object id).attrs.set x v } := by
  simp only [State.object, State.setObjectAttr, Array.getElem?_modify, if_true,
    Array.getElem?_eq_getElem h, Option.map_some]

theorem State.attr_setObjectAttr {id : ObjectId} (h : id.index < s.objects.size) (x y : String)
    (v : Value) : (s.setObjectAttr id x v).attr (.object id) y =
      if x = y then v else s.attr (.object id) y := by
  rw [State.attr, object_setObjectAttr h]
  dsimp only
  rw [Bindings.get?_set]
  split <;> rfl

/-- Variables become the attributes of an instance, and nothing else changes. -/
structure State.Fills (s : State) (id : ObjectId) (bs : List (String × Value)) (s' : State) :
    Prop where
  same : s' = { s with objects := s'.objects, steps := s'.steps }
  size : s'.objects.size = s.objects.size
  type : (s'.object id).type = (s.object id).type
  attr (x : String) : s'.attr (.object id) x = (bs.reverse.lookup x).getD (s.attr (.object id) x)

theorem State.Fills.cons {id : ObjectId} {bs : List (String × Value)} {x : String} {v : Value}
    {n : Nat} (hid : id.index < s.objects.size)
    (h : ({ s with steps := n }.setObjectAttr id x v).Fills id bs s') :
    s.Fills id ((x, v) :: bs) s' where
  same := by
    rw [h.same]
    rfl
  size := h.size.trans (State.size_setObjectAttr ..)
  type := by
    rw [h.type, object_setObjectAttr (s := { s with steps := n }) hid]
    rfl
  attr y := by
    rw [h.attr, attr_setObjectAttr (s := { s with steps := n }) hid, List.reverse_cons,
      List.lookup_append, List.lookup_cons]
    cases bs.reverse.lookup y with
    | some w => rfl
    | none =>
      by_cases hxy : x = y
      · rw [if_pos hxy, hxy, beq_self_eq_true]
        rfl
      · rw [if_neg hxy, beq_false_of_ne (Ne.symm hxy)]
        rfl

theorem Eval.Gives.fills {fields : List (String × String)} {vs : List Value} {id : ObjectId}
    {es : List Expr} (hs : s.Allows (2 * fields.length)) (hself : ctx.self = .object id)
    (hid : id.index < s.objects.size)
    (hes : Code.AllSpanned (fields.map fun f ↦ .set f.1 (.operand (.name f.2))) es)
    (hvs : List.Forall₂ (fun f v ↦ s.scopes.get? ctx.scope f.2 = some v) fields vs) :
    ∃ s', s.Fills id ((fields.map (·.1)).zip vs) s' ∧
      (∀ last, ∃ v, (statementsAfter ctx last es).Gives s (.ok v) s') ∧
      ∃ v, (statements ctx es).Gives s (.ok v) s' := by
  induction fields generalizing s es vs with
  | nil =>
    obtain rfl : es = [] := hes
    cases hvs
    exact ⟨s, ⟨rfl, rfl, rfl, fun _ ↦ rfl⟩, fun last ↦ ⟨last, .pure last s⟩, .nil, .pure _ s⟩
  | cons f fields ih =>
    obtain ⟨e, es, rfl, ⟨i, c, he, hi, hc⟩, hes⟩ := hes
    cases hvs with
    | @cons _ v _ vs hv hvs =>
      have hset {s : State} (hs : s.Allows 2) (hv : s.scopes.get? ctx.scope f.2 = some v) :
          (Task.eval e ctx).Gives s (.ok v)
            ({ s with steps := s.steps + 2 }.setObjectAttr id f.1 v) :=
        hi ▸ .set hs he hself hc hv
      have hallowed : s.Allows 2 := hs.later rfl (by simp only [List.length_cons]; omega)
      obtain ⟨s', hfills, hafter, -⟩ := ih
        (s := { s with steps := s.steps + 2 }.setObjectAttr id f.1 v)
        (hs.later rfl (by simp only [List.length_cons, State.setObjectAttr]; omega))
        (by simpa using hid) hes hvs
      obtain ⟨w, hw⟩ := hafter v
      refine ⟨s', .cons hid hfills, fun last ↦ ⟨w, ?_⟩, w, ?_⟩
      · rw [statementsAfter_cons]
        exact .bind (.keeping _ (.perform (hset hallowed hv))) hw
      · rw [statements_cons]
        exact .bind (.perform (hset hallowed hv)) hw

end

end Quill
