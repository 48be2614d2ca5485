import Quill.Proofs.Composition.Task

/-!
# What calls and bodies wait for

Between two waits, calls and bodies only make new things and bind names. All that they do otherwise
is done by the tasks they wait for: `Eval.Asks.deliver` and its companions list these.
-/

namespace Quill

namespace State

/-- A relation between earlier and later states that does not depend on what is held. -/
class Lax (R : State → State → Prop) : Prop where
  refl (s : State) : R s s
  trans {s s' s'' : State} : R s s' → R s' s'' → R s s''
  held (s : State) (held : List Held) : R s { s with held }

/-- A lax relation that making an object respects, as raising an error does. -/
class Raising (R : State → State → Prop) : Prop extends Lax R where
  newObject (s : State) (t : TypeId) (attrs : Bindings Value) : R s (s.newObject t attrs).2

/-- One that looking up a constant respects, too, which types may be let go for. -/
class Looking (R : State → State → Prop) : Prop extends Raising R where
  letGo (s : State) (name : String) (t : TypeId) : R s (s.letGoAround name t)

/-- One that making a list respects, too, as matching does. -/
class Making (R : State → State → Prop) : Prop extends Looking R where
  newList (s : State) (items : Array Value) : R s (s.newList items).2

/-- One that also binding names and making scopes respect. -/
class Gentle (R : State → State → Prop) : Prop extends Making R where
  newScope (s : State) (outer : ScopeId) : R s (s.newScope outer).2
  define (s : State) (scope : ScopeId) (name : String) (v : Value) : R s (s.define scope name v)
  assign (s : State) (scope : ScopeId) (name : String) (v : Value) : R s (s.assign scope name v)

end State

open State

variable {A : Task → Prop} {R : State → State → Prop} {α β : Type}

namespace Step

/-- Waits for tasks of `A` only, and changes the state as `R` says whenever it goes on. -/
def Asks (A : Task → Prop) (R : State → State → Prop) : Step α → State → Prop
  | done _ s, s₀ => R s₀ s
  | wait t s resume, s₀ => R s₀ s ∧ A t ∧ ∀ o s', (resume o s').Asks A R s'

namespace Asks

variable {x : Step α} {s s₀ : State}

theorem mono {A' : Task → Prop} (hA : ∀ t, A t → A' t) (h : x.Asks A R s) : x.Asks A' R s := by
  induction x generalizing s with
  | done o s' => exact h
  | wait t s' resume ih => exact ⟨h.1, hA t h.2.1, fun o s'' ↦ ih o s'' (h.2.2 o s'')⟩

theorem of_earlier [Lax R] (h : R s₀ s) (hx : x.Asks A R s) : x.Asks A R s₀ := by
  cases x with
  | done o s' => exact Lax.trans h hx
  | wait t s' resume => exact ⟨Lax.trans h hx.1, hx.2⟩

theorem bind [Lax R] {f : α → State → Step β} (hx : x.Asks A R s)
    (hf : ∀ a s', (f a s').Asks A R s') : (x.bind f).Asks A R s := by
  induction x generalizing s with
  | done o s' =>
    cases o with
    | ok a => exact of_earlier hx (hf a s')
    | error u => exact hx
  | wait t s' resume ih => exact ⟨hx.1, hx.2.1, fun o s'' ↦ ih o s'' (hx.2.2 o s'')⟩

theorem attempt (hx : x.Asks A R s) : x.attempt.Asks A R s := by
  induction x generalizing s with
  | done o s' => exact hx
  | wait t s' resume ih => exact ⟨hx.1, hx.2.1, fun o s'' ↦ ih o s'' (hx.2.2 o s'')⟩

theorem restoring [Lax R] (before : List Held) (hx : x.Asks A R s) :
    (x.restoring before).Asks A R s := by
  induction x generalizing s with
  | done o s' => exact Lax.trans hx (Lax.held s' before)
  | wait t s' resume ih => exact ⟨hx.1, hx.2.1, fun o s'' ↦ ih o s'' (hx.2.2 o s'')⟩

end Asks

end Step

namespace Task

/-- What a call with the given arguments waits for: its body, and on the way to that the guards of
clauses, comparisons with their parameters, and texts of the arguments for an error message. -/
inductive PartOfCall (args : List Value) : Task → Prop
  | body (frame : CallFrame) (b : Body) (ctx : Context) :
      PartOfCall args (framed frame (body b ctx))
  | native (frame : CallFrame) (n : NativeMethod) (c : Call) :
      PartOfCall args (framed frame (native n c))
  | block (frame : CallFrame) (es : List Expr) (ctx : Context) :
      PartOfCall args (framed frame (statements es ctx))
  | guard (e : Expr) (ctx : Context) : PartOfCall args (guard e ctx)
  | compare (a b : Value) : args ≠ [] → PartOfCall args (send "==" ⟨a, [b], none, .origin⟩)
  | describe (v : Value) : args ≠ [] → PartOfCall args (describe v)
  | rawText (v : Value) : args ≠ [] → PartOfCall args (rawText v)

/-- What bodies and loops wait for: statements, also those of `rescue` clauses, comparisons with
patterns, and the text of a value that does not match. -/
inductive PartOfBody : Task → Prop
  | eval (e : Expr) (ctx : Context) : PartOfBody (eval e ctx)
  | handling (r : Raised) (es : List Expr) (ctx : Context) :
      PartOfBody (handling r (statements es ctx))
  | compare (a b : Value) : PartOfBody (send "==" ⟨a, [b], none, .origin⟩)
  | describe (v : Value) : PartOfBody (describe v)

end Task

mutual

/-- May compare the value it is matched with. -/
def Pattern.compares : Pattern → Bool
  | .const _ | .literal .. => true
  | .list items _ => Pattern.anyCompares items
  | _ => false

def Pattern.anyCompares : List Pattern → Bool
  | [] => false
  | p :: ps => p.compares || Pattern.anyCompares ps

end

namespace Eval

/-- Waits for tasks of `A` only, and changes the state as `R` says in between. -/
def Asks (A : Task → Prop) (R : State → State → Prop) (x : Eval α) : Prop := ∀ s, (x s).Asks A R s

namespace Asks

theorem change {f : State → α × State} (h : ∀ s, R s (f s).2) :
    Asks A R (modifyGet f : Eval α) := h

theorem attempt {x : Eval α} (hx : Asks A R x) : Asks A R (attempt x) := fun s ↦ (hx s).attempt

theorem reading {f : State → β} {g : β → Eval α} {s : State} (h : (g (f s) s).Asks A R s) :
    ((Eval.read f >>= g) s).Asks A R s := h

section

variable [Lax R]

theorem pure (a : α) : Asks A R (Pure.pure a : Eval α) := fun s ↦ Lax.refl s

theorem read (f : State → α) : Asks A R (read f) := fun s ↦ Lax.refl s

theorem unwind (u : Unwind) : Asks A R (unwind u : Eval α) := fun s ↦ Lax.refl s

theorem ofOutcome (o : Outcome α) : Asks A R (ofOutcome o) := fun s ↦ Lax.refl s

theorem perform {t : Task} (h : A t) : Asks A R (perform t) :=
  fun s ↦ ⟨Lax.refl s, h, fun _ s' ↦ Lax.refl s'⟩

theorem bind {x : Eval α} {f : α → Eval β} (hx : Asks A R x) (hf : ∀ a, Asks A R (f a)) :
    Asks A R (x >>= f) := by
  intro s
  rw [bind_apply]
  exact (hx s).bind hf

theorem keeping (h : Held) {x : Eval α} (hx : Asks A R x) : Asks A R (keeping h x) :=
  fun s ↦ .restoring _ (.of_earlier (Lax.held s _) (hx _))

theorem holding (vs : List Value) {x : Eval α} (hx : Asks A R x) : Asks A R (holding vs x) :=
  keeping _ hx

theorem within (ctx : Context) (vs : List Value) {x : Eval α} (hx : Asks A R x) :
    Asks A R (within ctx vs x) := keeping _ hx

theorem raise (v : Value) (span : Span) : Asks A R (raise v span : Eval α) :=
  .bind (.read _) fun _ ↦ .unwind _

theorem inspectAnyway {v : Value} (h : A (.describe v)) : Asks A R (inspectAnyway v) :=
  .bind (.perform h) fun _ ↦ .pure _

theorem valuesEqual (a b : Value) (h : ∀ a b, A (.send "==" ⟨a, [b], none, .origin⟩)) :
    Asks A R (valuesEqual a b) := by
  unfold Eval.valuesEqual
  cases a.scalarEq? b with
  | some answer => exact .pure answer
  | none => exact .bind (.holding _ (.perform (h a b))) fun v ↦ .pure _

theorem resultText {v : Value} (h : A (.rawText v)) : Asks A R (resultText v) := by
  refine .bind (.read _) fun text ↦ ?_
  cases text with
  | some text => exact .pure text
  | none => exact .bind (.perform h) fun _ ↦ .pure _

theorem inspect (v : Value) (h : A (.send "inspect" ⟨v, [], none, .origin⟩))
    (hraw : ∀ w, A (.rawText w)) : Asks A R (inspect v) := by
  refine .bind (.read _) fun text ↦ ?_
  cases text with
  | some text => exact .pure text
  | none => exact .bind (.holding _ (.perform h)) fun w ↦ .resultText (hraw w)

theorem describe (v : Value) (h : A (.send "inspect" ⟨v, [], none, .origin⟩))
    (hraw : ∀ w, A (.rawText w)) : Asks A R (describe v) := by
  refine .bind (.attempt (.inspect v h hraw)) fun o ↦ ?_
  cases o <;> exact .pure _

theorem rawText (v : Value) : Asks A R (rawText v) := by
  refine .bind (.read _) fun text ↦ ?_
  cases text <;> exact .pure _

theorem inspectAllAnyway (done : List String) (vs : List Value)
    (h : vs ≠ [] → ∀ v, A (.describe v)) : Asks A R (inspectAllAnyway done vs) := by
  induction vs generalizing done with
  | nil => exact .pure _
  | cons v rest ih =>
    exact .bind (.inspectAnyway (h (by simp) v)) fun _ ↦ ih _ fun _ ↦ h (by simp)

end

theorem fault [Raising R] (f : Fault) (span : Span) : Asks A R (fault f span : Eval α) :=
  .bind (change fun s ↦ Raising.newObject s _ _) fun v ↦ .raise v span

theorem missing [Raising R] (f : Fault) (receiver : Value) (name : String) (span : Span) :
    Asks A R (missing f receiver name span : Eval α) :=
  .bind (change fun s ↦ Raising.newObject s _ _) fun v ↦ .raise v span

theorem raiseNoClause [Raising R] {c : Call} (m : Method) (mismatch : Option Mismatch)
    (h : c.args ≠ [] → ∀ v, A (.describe v)) : Asks A R (raiseNoClause m c mismatch) := by
  refine .bind (.read _) fun label ↦ ?_
  split
  · cases mismatch with
    | some reason => exact .fault _ c.span
    | none => exact .fault _ c.span
  · exact .bind (.holding _ (.inspectAllAnyway [] c.args h)) fun _ ↦ .missing _ _ _ c.span

theorem constant [Looking R] (ctx : Context) (name : String) (span : Span) :
    Asks A R (constant ctx name span) := by
  refine .bind (.bind (change fun s ↦ Looking.letGo s _ _) fun _ ↦ .read _) fun v ↦ ?_
  cases v with
  | some v => exact .pure v
  | none => exact .fault _ span

theorem followPath [Raising R] (v : Value) (walked : String) (path : List Ident) :
    Asks A R (followPath v walked path) := by
  induction path generalizing v walked with
  | nil => exact .pure v
  | cons segment rest ih =>
    refine .bind (.read _) fun found ↦ ?_
    cases found with
    | some v => exact ih v _
    | none => exact .fault _ _

theorem constantAt [Looking R] (path : TypePath) (ctx : Context) :
    Asks A R (constantAt path ctx) := by
  unfold Eval.constantAt
  cases path.segments with
  | nil => exact .pure _
  | cons first rest => exact .bind (.constant ctx _ _) fun v ↦ .followPath v _ rest

theorem typeAt [Looking R] (path : TypePath) (ctx : Context) : Asks A R (typeAt path ctx) := by
  refine .bind (.constantAt path ctx) fun v ↦ ?_
  cases v with
  | type t => exact .pure t
  | _ => exact .fault _ _

theorem fitsConstant [Lax R] (c v : Value)
    (h : ∀ a b, A (.send "==" ⟨a, [b], none, .origin⟩)) : Asks A R (fitsConstant c v) := by
  unfold Eval.fitsConstant
  cases c with
  | type t => exact .read _
  | _ => exact .valuesEqual _ v h

theorem fitsPath [Looking R] (path : TypePath) (v : Value) (ctx : Context)
    (h : ∀ a b, A (.send "==" ⟨a, [b], none, .origin⟩)) : Asks A R (fitsPath path v ctx) :=
  .bind (.constantAt path ctx) fun c ↦ .fitsConstant c v h

theorem newList [Making R] (items : List Value) : Asks A R (newList items) :=
  change fun s ↦ Making.newList s _

mutual

theorem matchPattern [Making R] (ctx : Context) (acc : Matched) (p : Pattern) (v : Value)
    (h : p.compares → ∀ a b, A (.send "==" ⟨a, [b], none, .origin⟩)) :
    Asks A R (matchPattern ctx acc p v) := by
  cases p with
  | wildcard span => unfold Eval.matchPattern; exact .pure _
  | bind name path =>
    unfold Eval.matchPattern
    cases path with
    | none => exact .pure _
    | some path =>
      refine .bind (.holding _ (.typeAt path ctx)) fun t ↦ .bind (.read _) fun fits ↦ ?_
      split <;> exact .pure _
  | const path =>
    unfold Eval.matchPattern
    refine .bind (.holding _ (.fitsPath path v ctx (h rfl))) fun fits ↦ ?_
    split <;> exact .pure _
  | literal value span =>
    unfold Eval.matchPattern
    refine .bind (.holding _ (.valuesEqual _ v (h rfl))) fun fits ↦ ?_
    split <;> exact .pure _
  | list items span =>
    unfold Eval.matchPattern
    cases v with
    | list l =>
      refine .bind (.read _) fun found ↦ ?_
      split
      · exact .holding _ (matchAll ctx acc items found fun _ ↦ h)
      · exact .pure _
    | _ => exact .pure _
  | splat name span => cases name <;> (unfold Eval.matchPattern; exact .pure _)

theorem matchAll [Making R] (ctx : Context) (acc : Matched) (ps : List Pattern)
    (vs : List Value)
    (h : vs ≠ [] → Pattern.anyCompares ps → ∀ a b, A (.send "==" ⟨a, [b], none, .origin⟩)) :
    Asks A R (matchAll ctx acc ps vs) := by
  cases ps with
  | nil => unfold Eval.matchAll; exact .pure _
  | cons p ps =>
    have hrest {vs' : List Value} (hne : vs' ≠ [] → vs ≠ []) : vs' ≠ [] →
        Pattern.anyCompares ps → ∀ a b, A (.send "==" ⟨a, [b], none, .origin⟩) :=
      fun hvs hps ↦ h (hne hvs) (by simp [Pattern.anyCompares, hps])
    cases p with
    | splat name span =>
      have hleft : (splatItems ps vs).2 ≠ [] → vs ≠ [] := by
        rintro hne rfl
        simp [splatItems] at hne
      unfold Eval.matchAll
      cases name with
      | some name => exact .bind (.newList _) fun v ↦ matchAll ctx _ ps _ (hrest hleft)
      | none => exact matchAll ctx acc ps _ (hrest hleft)
    | _ =>
      cases vs with
      | nil => unfold Eval.matchAll; exact .pure _
      | cons v vs =>
        unfold Eval.matchAll
        refine .bind (matchPattern ctx acc _ v fun hp ↦ ?_) fun found ↦ ?_
        · exact h (by simp) (by simp [Pattern.anyCompares, hp])
        · cases found with
          | some acc => exact matchAll ctx acc ps vs (hrest (by simp))
          | none => exact .pure _

end

theorem matchSequence [Making R] (ctx : Context) (ps : List Pattern) (vs : List Value)
    (h : vs ≠ [] → Pattern.anyCompares ps → ∀ a b, A (.send "==" ⟨a, [b], none, .origin⟩)) :
    Asks A R (matchSequence ctx ps vs) := by
  unfold Eval.matchSequence
  split
  · exact .matchAll ctx [] ps vs h
  · exact .pure _

section

variable [Lax R]

theorem callValue (v : Value) (args : List Value) (span : Span)
    (hl : ∀ l, A (.callLambda l args none span))
    (hs : ∀ v, A (.send "call" ⟨v, args, none, span⟩)) : Asks A R (callValue v args none span) := by
  cases v with
  | lambda l => exact .perform (hl l)
  | _ => exact .perform (hs _)

theorem timesRound (left index : Nat) (block : Value) (span : Span)
    (hl : ∀ l args, A (.callLambda l args none span))
    (hs : ∀ v args, A (.send "call" ⟨v, args, none, span⟩)) :
    Asks A R (timesRound left index block span) := by
  cases left with
  | zero => exact .pure _
  | succ left => exact .bind (.callValue block _ span (hl · _) (hs · _)) fun _ ↦ .pure _

end

theorem visitRound [Making R] (v : Visit) (list : ListId) (block : Option Value) (span : Span)
    (index : Nat) (hl : ∀ l args, A (.callLambda l args none span))
    (hs : ∀ v args, A (.send "call" ⟨v, args, none, span⟩)) :
    Asks A R (visitRound v list block span index) := by
  refine .bind (.read _) fun item ↦ ?_
  cases item with
  | none =>
    refine .bind ?_ fun _ ↦ .pure _
    cases v with
    | map results => exact .newList _
    | filter keep kept => exact .newList _
    | _ => exact .pure _
  | some item =>
    cases block with
    | some b =>
      refine .bind (.holding _ (.callValue b _ span (hl · _) (hs · _))) fun answer ↦ ?_
      dsimp only
      cases v.step item answer <;> exact .pure _
    | none =>
      refine .bind (.pure item) fun answer ↦ ?_
      dsimp only
      cases v.step item answer <;> exact .pure _

variable [Gentle R]

theorem newScope (outer : ScopeId) : Asks A R (newScope outer) :=
  change fun s ↦ Gentle.newScope s outer

theorem define (scope : ScopeId) (name : String) (v : Value) : Asks A R (define scope name v) :=
  change fun s ↦ Gentle.define s scope name v

theorem defineAll (scope : ScopeId) (m : Matched) : Asks A R (defineAll scope m) := by
  refine change fun s ↦ ?_
  induction m with
  | nil => exact Lax.refl s
  | cons b rest ih => exact Lax.trans ih (Gentle.define _ scope b.1 b.2)

theorem defineBlock (p : Params) (block : Option Value) (scope : ScopeId) :
    Asks A R (defineBlock p block scope) := by
  unfold Eval.defineBlock
  cases p.block with
  | some name => exact .define scope name.name _
  | none => exact .pure ()

variable {c : Call}

theorem bindClause (d : MethodDef) (m : Method) (hguard : ∀ e ctx, A (.guard e ctx))
    (hcompare : c.args ≠ [] → Pattern.anyCompares d.params.items →
      ∀ a b, A (.send "==" ⟨a, [b], none, .origin⟩)) :
    Asks A R (bindClause d m c) := by
  unfold Eval.bindClause
  split
  · refine .bind (.newScope _) fun scope ↦ .bind (.within _ [] ?_) fun taken ↦ ?_
    · refine .bind (.matchSequence _ _ c.args hcompare) fun found ↦ ?_
      cases found with
      | none => exact .pure false
      | some found =>
        refine .bind (.defineAll _ found) fun _ ↦ .bind (.defineBlock _ _ _) fun _ ↦ ?_
        unfold Eval.admits
        cases d.guard with
        | some e => exact .bind (.perform (hguard e _)) fun _ ↦ .pure _
        | none => exact .pure true
    · split <;> exact .pure _
  · exact .pure none

theorem runClause (d : MethodDef) (ctx : Context) (label : String) (span : Span)
    (h : ∀ frame b ctx, A (.framed frame (.body b ctx))) :
    Asks A R (runClause d ctx label span) := by
  refine .bind (.attempt (.within ctx [] (.perform (h _ _ _)))) fun o ↦ ?_
  split
  · exact .pure _
  · exact .fault _ span
  · exact .fault _ span
  · exact .ofOutcome _

theorem runClauses (m : Method) (mismatch : Option Mismatch) (clauses : List Clause)
    (hguard : ∀ e ctx, A (.guard e ctx))
    (hcompare : ∀ d, .user d ∈ clauses → c.args ≠ [] → Pattern.anyCompares d.params.items →
      ∀ a b, A (.send "==" ⟨a, [b], none, .origin⟩))
    (hdescribe : c.args ≠ [] → ∀ v, A (.describe v))
    (hbody : ∀ frame b ctx, A (.framed frame (.body b ctx)))
    (hnative : ∀ n, .native n ∈ clauses → ∀ frame, A (.framed frame (.native n c))) :
    Asks A R (runClauses m c mismatch clauses) := by
  induction clauses generalizing mismatch with
  | nil => exact .raiseNoClause m mismatch hdescribe
  | cons clause rest ih =>
    have hrest : ∀ n, .native n ∈ rest → ∀ frame, A (.framed frame (.native n c)) :=
      fun n hn ↦ hnative n (List.mem_cons_of_mem _ hn)
    replace ih := fun mismatch ↦
      ih mismatch (fun d hd ↦ hcompare d (List.mem_cons_of_mem _ hd)) hrest
    cases clause with
    | native n =>
      refine .bind (.read _) fun missed ↦ ?_
      cases missed with
      | none => exact .holding _ (.perform (hnative n (by simp) _))
      | some reason => exact ih _
    | user d =>
      refine .bind (.bindClause d m hguard (hcompare d List.mem_cons_self)) fun bound ↦ ?_
      cases bound with
      | some ctx => exact .bind (.read _) fun label ↦ .runClause d ctx label c.span hbody
      | none => exact ih _

theorem invoke (m : Method) (hA : ∀ t, Task.PartOfCall c.args t → A t) :
    Asks A R (invoke m c) :=
  .runClauses m none m.clauses (fun e ctx ↦ hA _ (.guard e ctx))
    (fun _ _ h _ a b ↦ hA _ (.compare a b h)) (fun h v ↦ hA _ (.describe v h))
    (fun frame b ctx ↦ hA _ (.body frame b ctx)) fun n _ frame ↦ hA _ (.native frame n c)

theorem deliver (name : String) (hA : ∀ t, Task.PartOfCall c.args t → A t) :
    Asks A R (deliver name c) := by
  refine .bind (.read _) fun answer ↦ ?_
  cases answer with
  | method m => exact .invoke m hA
  | constant v => exact .pure v
  | nothing => exact .bind (.read _) fun _ ↦ .missing _ _ _ c.span

theorem deliverSuper (frame : MethodFrame) (hA : ∀ t, Task.PartOfCall c.args t → A t) :
    Asks A R (deliverSuper frame c) := by
  refine .bind (.read _) fun m ↦ ?_
  cases m with
  | some m => exact .invoke m hA
  | none => exact .missing _ _ _ c.span

theorem callLambda (l : LambdaId) (args : List Value) (block : Option Value) (span : Span)
    (hcompare : ∀ a b, A (.send "==" ⟨a, [b], none, .origin⟩)) (hdescribe : ∀ v, A (.describe v))
    (hblock : ∀ frame es ctx, A (.framed frame (.statements es ctx))) :
    Asks A R (callLambda l args block span) := by
  refine .bind (.read _) fun found ↦ ?_
  cases found with
  | none => exact .pure _
  | some found =>
    refine .bind (.bind (.newScope _) fun _ ↦ .pure _) fun ctx ↦ .bind (.read _) fun args ↦
      .within ctx _ (.bind (.matchSequence ctx _ args fun _ _ ↦ hcompare) fun matched ↦ ?_)
    cases matched with
    | none =>
      exact .bind (.newList args) fun v ↦ .bind (.inspectAnyway (hdescribe v)) fun _ ↦
        .fault _ span
    | some matched =>
      refine .bind (.defineAll _ matched) fun _ ↦ .bind (.defineBlock _ _ _) fun _ ↦
        .bind (.attempt (.perform (hblock _ _ _))) fun o ↦ ?_
      split
      · exact .pure _
      · exact .pure _
      · exact .unwind _
      · exact .ofOutcome _

theorem statementsAfter (ctx : Context) (last : Value) (es : List Expr)
    (h : ∀ e ctx, A (.eval e ctx)) : Asks A R (statementsAfter ctx last es) := by
  induction es generalizing last with
  | nil => exact .pure _
  | cons e rest ih =>
    cases rest with
    | nil => exact .holding _ (.perform (h e ctx))
    | cons e' rest => exact .bind (.holding _ (.perform (h e ctx))) fun v ↦ ih v

theorem statements (ctx : Context) (es : List Expr) (h : ∀ e ctx, A (.eval e ctx)) :
    Asks A R (statements ctx es) := by
  match es with
  | [] => exact .pure _
  | [e] => exact .perform (h e ctx)
  | e :: e' :: rest => exact .bind (.perform (h e ctx)) fun v ↦ .statementsAfter ctx v _ h

theorem assignAll (scope : ScopeId) (m : Matched) : Asks A R (assignAll scope m) := by
  refine change fun s ↦ ?_
  induction m with
  | nil => exact Lax.refl s
  | cons b rest ih => exact Lax.trans ih (Gentle.assign _ scope b.1 b.2)

theorem bindsRescued (clause : Rescue) (v : Value) (ctx : Context)
    (hA : ∀ t, Task.PartOfBody t → A t) : Asks A R (bindsRescued clause v ctx) := by
  refine .bind (α := Option Matched) ?_ fun found ↦ ?_
  · unfold Eval.rescueMatch
    cases clause.pattern with
    | some p => exact .matchPattern ctx [] p v fun _ a b ↦ hA _ (.compare a b)
    | none => exact .pure _
  · cases found with
    | none => exact .pure false
    | some found =>
      refine .bind (.defineAll ctx.scope found) fun _ ↦ ?_
      unfold Eval.guardHolds
      cases clause.guard with
      | some e => exact .bind (.perform (hA _ (.eval e ctx))) fun _ ↦ .pure _
      | none => exact .pure true

theorem rescue (ctx : Context) (r : Raised) (clauses : List Rescue)
    (hA : ∀ t, Task.PartOfBody t → A t) : Asks A R (rescue ctx r clauses) := by
  induction clauses with
  | nil => exact .unwind _
  | cons clause rest ih =>
    refine .bind (.bind (.newScope _) fun _ ↦ .pure _) fun inner ↦
      .bind (.within inner _ (.bindsRescued clause r.value inner hA)) fun taken ↦ ?_
    split
    · exact .within inner [] (.perform (hA _ (.handling r _ inner)))
    · exact ih

theorem body (b : Body) (ctx : Context) (hA : ∀ t, Task.PartOfBody t → A t) :
    Asks A R (body b ctx) := by
  have hstatements (es : List Expr) : Asks A R (Eval.statements ctx es) :=
    .statements ctx es fun e ctx ↦ hA _ (.eval e ctx)
  unfold Eval.body
  split
  · refine .bind (.attempt (hstatements _)) fun first ↦ .bind (.attempt ?_) fun o ↦ ?_
    · unfold afterStatements
      split
      · exact .rescue ctx _ _ hA
      · exact .unwind _
      · split
        · exact .holding _ (hstatements _)
        · exact .pure _
    · unfold ensuring
      split
      · exact .ofOutcome _
      · exact .ofOutcome _
      · exact .bind (.holding _ (hstatements _)) fun _ ↦ .ofOutcome _
  · exact hstatements _

theorem afterRound (o : Outcome Value) (again : Task) : Asks A R (afterRound o again) := by
  unfold Eval.afterRound
  split
  · exact .pure _
  · exact .pure _
  · exact .pure _
  · exact .unwind _

theorem loopRound (condition : Expr) (es : List Expr) (ctx : Context)
    (h : ∀ e ctx, A (.eval e ctx)) : Asks A R (loopRound condition es ctx) := by
  refine .bind (.perform (h condition ctx)) fun v ↦ ?_
  split
  · exact .bind (.attempt (.statements ctx es h)) fun o ↦ .afterRound o _
  · exact .pure _

theorem destructure (p : Pattern) (v : Value) (ctx : Context) (span : Span)
    (hA : ∀ t, Task.PartOfBody t → A t) : Asks A R (destructure p v ctx span) := by
  refine .bind (.matchPattern ctx [] p v fun _ a b ↦ hA _ (.compare a b)) fun found ↦ ?_
  cases found with
  | some found => exact .assignAll ctx.scope found
  | none => exact .bind (.inspectAnyway (hA _ (.describe v))) fun _ ↦ .fault _ span

theorem forRound (p : Pattern) (es : List Expr) (ctx : Context) (span : Span) (list : ListId)
    (index : Nat) (hA : ∀ t, Task.PartOfBody t → A t) :
    Asks A R (forRound p es ctx span list index) := by
  refine .bind (.read _) fun item ↦ ?_
  cases item with
  | none => exact .pure _
  | some item =>
    exact .bind (.holding _ (.destructure p item ctx span hA)) fun _ ↦
      .bind (.attempt (.holding _ (.statements ctx es fun e ctx ↦ hA _ (.eval e ctx)))) fun o ↦
        .afterRound o _

theorem answering_at {work : Eval Value} {s : State} (h : (work s).Asks A R s) :
    (answering work s).Asks A R s := by
  unfold Eval.answering
  rw [bind_apply]
  exact h.bind fun _ s' ↦ Lax.refl s'

theorem answering {work : Eval Value} (h : Asks A R work) : Asks A R (answering work) :=
  fun s ↦ answering_at (h s)

end Asks

end Eval

end Quill
