import Quill.Proofs.Regime

/-!
# Code keeps to every regime

Code that may run, and runs where it may, does only what a regime lets it do, and has only such code
evaluated that does the same.
-/

namespace Quill

/-- If another task is to go on, its code may run, and runs where it may. -/
def Reply.Open (R : Regime) (s : State) : Reply → Prop
  | value _ => True
  | task t => t.Open R s

namespace Regime

variable {R : Regime}

section

variable {b : Block} {a : Arm} {body : Body} {r : Rescue} {d : MethodDef} {t : TypeDef}
  {kind : Expr.Kind} {span : Span} {p : Pattern} {e : Expr} {es : List Expr}
  {elseBody : Option (List Expr)} {arms : List Arm}

theorem inside_expr (h : R.Allows (.expr ⟨kind, span⟩)) : ∀ m ∈ Node.ofKind kind, R.Allows m :=
  fun _ hm ↦ R.child h hm

theorem inside_cond (h : R.Allows (.cond span e es elseBody)) :
    R.Allows (.expr e) ∧ R.AllowsAll es ∧ R.AllowsAll (elseBody.getD []) := by
  have inside m (hm : m ∈ Node.children _) := R.child h hm
  simpa [Node.children, or_imp, forall_and] using inside

theorem inside_loop (h : R.Allows (.loop span e es)) : R.Allows (.expr e) ∧ R.AllowsAll es := by
  have inside m (hm : m ∈ Node.children _) := R.child h hm
  simpa [Node.children, or_imp, forall_and] using inside

theorem inside_forEach (h : R.Allows (.forEach span p e es)) :
    R.Allows (.expr e) ∧ R.AllowsAll es := by
  have inside m (hm : m ∈ Node.children _) := R.child h hm
  have parts : R.Allows (.pattern p) ∧ R.Allows (.expr e) ∧ R.AllowsAll es := by
    simpa [Node.children, or_imp, forall_and] using inside
  exact parts.2

theorem inside_select (h : R.Allows (.select span e arms elseBody)) :
    R.Allows (.expr e) ∧ (∀ a ∈ arms, R.Allows (.arm a)) ∧ R.AllowsAll (elseBody.getD []) := by
  have inside m (hm : m ∈ Node.children _) := R.child h hm
  simpa [Node.children, or_imp, forall_and] using inside

theorem inside_arm (h : R.Allows (.arm a)) :
    (∀ e ∈ a.guard, R.Allows (.expr e)) ∧ R.AllowsAll a.body := by
  have inside m (hm : m ∈ Node.children _) := R.child h hm
  have parts : R.Allows (.pattern a.pattern) ∧ (∀ e ∈ a.guard, R.Allows (.expr e)) ∧
      R.AllowsAll a.body := by
    simpa [Node.children, or_imp, forall_and] using inside
  exact parts.2

theorem inside_block (h : R.Allows (.block b)) : R.AllowsAll b.body := by
  have inside m (hm : m ∈ Node.children _) := R.child h hm
  have parts : (∀ m ∈ Node.ofParams b.params, R.Allows m) ∧ R.AllowsAll b.body := by
    simpa [Node.children, or_imp, forall_and] using inside
  exact parts.2

theorem inside_body (h : R.Allows (.body body)) :
    R.AllowsAll body.statements ∧ (∀ r ∈ body.rescues, R.Allows (.rescue r)) ∧
      R.AllowsAll (body.elseBody.getD []) ∧ R.AllowsAll (body.ensure.getD []) := by
  have inside m (hm : m ∈ Node.children _) := R.child h hm
  simpa [Node.children, or_imp, forall_and] using inside

theorem inside_rescue (h : R.Allows (.rescue r)) :
    (∀ e ∈ r.guard, R.Allows (.expr e)) ∧ R.AllowsAll r.body := by
  have inside m (hm : m ∈ Node.children _) := R.child h hm
  have parts : (∀ p ∈ r.pattern, R.Allows (.pattern p)) ∧ (∀ e ∈ r.guard, R.Allows (.expr e)) ∧
      R.AllowsAll r.body := by
    simpa [Node.children, or_imp, forall_and] using inside
  exact parts.2

theorem inside_method (h : R.Allows (.method d)) :
    (∀ e ∈ d.guard, R.Allows (.expr e)) ∧ R.Allows (.body d.body) := by
  have inside m (hm : m ∈ Node.children _) := R.child h hm
  have parts : R.Allows (.ident d.name) ∧ (∀ m ∈ Node.ofParams d.params, R.Allows m) ∧
      (∀ e ∈ d.guard, R.Allows (.expr e)) ∧ R.Allows (.body d.body) := by
    simpa [Node.children, Node.ofHead, or_imp, forall_and, and_assoc] using inside
  exact parts.2.2

theorem inside_type (h : R.Allows (.type t)) :
    (∀ e ∈ t.superclass, R.Allows (.expr e)) ∧ R.AllowsAll t.body := by
  have inside m (hm : m ∈ Node.children _) := R.child h hm
  have parts : R.Allows (.ident t.name) ∧ (∀ e ∈ t.superclass, R.Allows (.expr e)) ∧
      R.AllowsAll t.body := by
    simpa [Node.children, or_imp, forall_and] using inside
  exact parts.2

end

/-- What a target needs that may be assigned to. -/
def AllowsTarget (R : Regime) (t : Target) : Prop :=
  (∀ m ∈ Node.ofTarget t, R.Allows m) ∧ ∃ n : Node, R.Allows n ∧ n.target? = some t

/-- A place that may be written to. -/
def AllowsPlace (R : Regime) : Place → Prop
  | .constant name => ∃ (n : Node) (i : Ident), R.Allows n ∧ n.target? = some (.constant i) ∧
      i.name = name
  | _ => True

end Regime

namespace Eval.Observes

variable {α : Type} {R : Regime} {s₀ : State} {P : α → Prop} {ctx : Context} {span : Span}
  {name : String}

theorem raise (v : Value) (span : Span) : Observes R s₀ P (raise v span : Eval α) :=
  .bind (.read _) fun _ _ ↦ .unwind _

theorem fault (f : Fault) (span : Span) : Observes R s₀ P (fault f span : Eval α) :=
  .bind (of_asks (Asks.change fun s ↦ State.Raising.newObject s _ _)) fun v _ ↦ .raise v span

theorem inspectAnyway (v : Value) : Observes R s₀ (fun _ ↦ True) (inspectAnyway v) :=
  of_simple (.inspectAnyway v)

theorem newList (vs : List Value) : Observes R s₀ (fun _ ↦ True) (newList vs) :=
  of_simple (.newList vs)

theorem constant? (name : String) : Observes R s₀ (fun _ ↦ True) (constant? ctx name) :=
  of_asks (.bind (.change fun s ↦ State.Looking.letGo s _ _) fun _ ↦ .read _)

theorem matchPattern (p : Pattern) (v : Value) :
    Observes R s₀ (fun _ ↦ True) (matchPattern ctx [] p v) :=
  of_asks (.matchPattern ctx [] p v fun _ _ _ ↦ nofun)

theorem matchSequence (ps : List Pattern) (vs : List Value) :
    Observes R s₀ (fun _ ↦ True) (matchSequence ctx ps vs) :=
  of_asks (.matchSequence ctx ps vs fun _ _ _ _ ↦ nofun)

theorem send (v : Value) (name : String) (args : List Value) (block : Option Value)
    (span : Span) : Observes R s₀ (fun _ ↦ True) (send v name args block span) :=
  of_simple (.send v name args block span)

theorem callValue (v : Value) (args : List Value) (block : Option Value) (span : Span) :
    Observes R s₀ (fun _ ↦ True) (callValue v args block span) :=
  of_simple (.callValue v args block span)

theorem defineAll (hctx : ctx.Own R s₀) (m : Matched) :
    Observes R s₀ (fun _ ↦ True) (defineAll ctx.scope m) := by
  refine .modify fun s hs ↦ ?_
  induction m with
  | nil => exact R.refl (R.fit hs)
  | cons b rest ih =>
    exact R.trans ih (R.define b.1 b.2 (R.fit ih) (R.own_mono (R.trans hs ih) hctx.1))

theorem assignAll (hctx : ctx.Open R s₀) (m : Matched) :
    Observes R s₀ (fun _ ↦ True) (assignAll ctx.scope m) := by
  refine .modify fun s hs ↦ ?_
  induction m with
  | nil => exact R.refl (R.fit hs)
  | cons b rest ih =>
    exact R.trans ih (R.assign b.1 b.2 (R.fit ih) (R.open_mono (R.trans hs ih) hctx.1))

theorem destructure (hctx : ctx.Open R s₀) (p : Pattern) (v : Value) :
    Observes R s₀ (fun _ ↦ True) (destructure p v ctx span) := by
  refine .bind (.matchPattern p v) fun found _ ↦ ?_
  cases found with
  | some found => exact .assignAll hctx found
  | none => exact .bind (.inspectAnyway v) fun _ _ ↦ .fault _ span

theorem inNewScope {β : Type} {Q : β → Prop} {f : Context → Eval β} (hctx : ctx.Near R s₀)
    (hf : ∀ s inner, R.Becomes s₀ s → inner.Own R s → Observes R s Q (f inner)) :
    Observes R s₀ Q (inNewScope ctx >>= f) := by
  unfold Eval.inNewScope
  rw [bind_bind]
  exact .newScope hctx.1 fun s scope hs hscope ↦
    hf s { ctx with scope } hs ⟨hscope, R.around_mono hs hctx.2⟩

section

variable (hctx : ctx.Open R s₀)

include hctx

theorem eval {e : Expr} (he : R.Allows (.expr e)) :
    Observes R s₀ (fun _ ↦ True) (eval e ctx) := .perform ⟨hctx, he⟩

theorem statementsAfter (last : Value) {es : List Expr} (hes : R.AllowsAll es) :
    Observes R s₀ (fun _ ↦ True) (statementsAfter ctx last es) := by
  induction es generalizing last with
  | nil => exact .pure trivial
  | cons e rest ih =>
    obtain ⟨he, hrest⟩ := List.forall_mem_cons.mp hes
    cases rest with
    | nil => exact .holding _ (.eval hctx he)
    | cons e' rest => exact .bind (.holding _ (.eval hctx he)) fun v _ ↦ ih v hrest

theorem statements {es : List Expr} (hes : R.AllowsAll es) :
    Observes R s₀ (fun _ ↦ True) (statements ctx es) := by
  match es with
  | [] => exact .pure trivial
  | [e] => exact .eval hctx (hes e List.mem_cons_self)
  | e :: e' :: rest =>
    obtain ⟨he, hrest⟩ := List.forall_mem_cons.mp hes
    exact .bind (.eval hctx he) fun v _ ↦ .statementsAfter hctx v hrest

theorem values {es : List Expr} (hes : R.AllowsAll es) :
    Observes R s₀ (fun _ ↦ True) (values es ctx) := by
  have onto (done : List Value) : Observes R s₀ (fun _ ↦ True) (valuesOnto ctx done es) := by
    induction es generalizing done with
    | nil => exact .pure trivial
    | cons e rest ih =>
      obtain ⟨he, hrest⟩ := List.forall_mem_cons.mp hes
      exact .bind (.holding _ (.eval hctx he)) fun v _ ↦ ih hrest (v :: done)
  exact onto []

theorem optional {e : Option Expr} (he : ∀ e' ∈ e, R.Allows (.expr e')) :
    Observes R s₀ (fun _ ↦ True) (optional e ctx) := by
  cases e with
  | some e => exact .eval hctx (he e rfl)
  | none => exact .pure trivial

theorem guardHolds {guard : Option Expr} (hg : ∀ e ∈ guard, R.Allows (.expr e)) :
    Observes R s₀ (fun _ ↦ True) (guardHolds guard ctx) := by
  cases guard with
  | some e => exact .bind (.eval hctx (hg e rfl)) fun _ _ ↦ .pure trivial
  | none => exact .pure trivial

omit hctx in
theorem rescueMatch (p : Option Pattern) (v : Value) :
    Observes R s₀ (fun _ ↦ True) (rescueMatch p ctx v) := by
  cases p with
  | some p => exact .matchPattern p v
  | none => exact .pure trivial

omit hctx in
theorem bindsRescued (hown : ctx.Own R s₀) {clause : Rescue} (hc : R.Allows (.rescue clause))
    (v : Value) : Observes R s₀ (fun _ ↦ True) (bindsRescued clause v ctx) := by
  refine .bind (.rescueMatch clause.pattern v) fun found _ ↦ ?_
  cases found with
  | none => exact .pure trivial
  | some found =>
    exact .bind (.defineAll hown found) fun _ _ ↦ .guardHolds hown.open (R.inside_rescue hc).1

omit hctx in
theorem rescue (hnear : ctx.Near R s₀) (r : Raised) {clauses : List Rescue}
    (hcs : ∀ c ∈ clauses, R.Allows (.rescue c)) :
    Observes R s₀ (fun _ ↦ True) (rescue ctx r clauses) := by
  induction clauses with
  | nil => exact .unwind _
  | cons clause rest ih =>
    obtain ⟨hc, hrest⟩ := List.forall_mem_cons.mp hcs
    refine .inNewScope hnear fun s inner hs hinner ↦ ?_
    refine .bind (.within inner _ (.bindsRescued hinner hc r.value)) fun taken _ ↦ ?_
    split
    · exact .within inner [] (.perform ⟨hinner.open, (R.inside_rescue hc).2⟩)
    · exact (ih hrest).weaken hs

theorem afterStatements {b : Body} (hb : R.Allows (.body b)) (o : Outcome Value) :
    Observes R s₀ (fun _ ↦ True) (afterStatements b ctx o) := by
  obtain ⟨-, hrescues, helse, -⟩ := R.inside_body hb
  unfold Eval.afterStatements
  split
  · exact .rescue hctx.near _ hrescues
  · exact .unwind _
  · split
    · rename_i es hes
      rw [hes] at helse
      exact .holding _ (.statements hctx helse)
    · exact .pure trivial

theorem ensuring {ensure : Option (List Expr)} (he : R.AllowsAll (ensure.getD []))
    (o : Outcome Value) : Observes R s₀ (fun _ ↦ True) (ensuring ensure ctx o) := by
  unfold Eval.ensuring
  split
  · exact .ofOutcome _
  · exact .ofOutcome _
  · exact .bind (.holding _ (.statements hctx he)) fun _ _ ↦ .ofOutcome _

theorem body {b : Body} (hb : R.Allows (.body b)) :
    Observes R s₀ (fun _ ↦ True) (body b ctx) := by
  obtain ⟨hstatements, -, -, hensure⟩ := R.inside_body hb
  unfold Eval.body
  split
  · exact .bind (.attempt (.statements hctx hstatements)) fun first _ ↦
      .bind (.attempt (.afterStatements hctx hb first)) fun o _ ↦ .ensuring hctx hensure o
  · exact .statements hctx hstatements

theorem superclass {e : Expr} (he : R.Allows (.expr e)) :
    Observes R s₀ (fun _ ↦ True) (superclass e ctx) := by
  refine .bind (.eval hctx he) fun v _ ↦ .bind (.read _) fun t _ ↦ ?_
  cases t with
  | some t => exact .pure trivial
  | none => exact .bind (.inspectAnyway v) fun _ _ ↦ .fault _ e.span

theorem superclass? {e : Option Expr} (he : ∀ e' ∈ e, R.Allows (.expr e')) :
    Observes R s₀ (fun _ ↦ True) (superclass? e ctx) := by
  cases e with
  | none => exact .pure trivial
  | some e => exact .bind (.superclass hctx (he e rfl)) fun _ _ ↦ .pure trivial

omit hctx in
theorem openAgain (d : TypeDef) (superclass : Option TypeId) (v : Value) :
    Observes R s₀ (v = .type ·) (openAgain d superclass v) := by
  cases v with
  | type t =>
    refine .bind (.read _) fun sorts _ ↦ ?_
    dsimp only
    split
    · exact .fault _ _
    · split
      · exact .bind (.read _) fun _ _ ↦ .fault _ _
      · exact .pure rfl
  | _ => exact .fault _ _

omit hctx in
theorem openType {β : Type} {Q : β → Prop} {f : TypeId → Eval β} {d : TypeDef}
    {container : TypeId} (hd : R.Allows (.type d)) (hc : R.Around s₀ container)
    (superclass : Option TypeId)
    (hf : ∀ s t, R.Becomes s₀ s → R.Around s t → Observes R s Q (f t)) :
    Observes R s₀ Q (openType d superclass container >>= f) := by
  unfold Eval.openType
  rw [bind_bind]
  intro s hs
  have hfit := R.fit hs
  rw [read_bind]
  split
  · rename_i hnone
    have declared := R.retype hfit (.declared superclass hd (R.around_mono hs hc) hnone)
    have haround := R.declared container d.sort d.name.name superclass hfit
    exact .of_earlier declared (hf _ _ (R.trans hs declared) haround _ (R.refl (R.fit declared)))
  · rename_i v hv
    refine Observes.bind (.openAgain d superclass v) (fun t ht ↦ ?_) s (R.refl hfit)
    rw [ht] at hv
    exact hf s t hs (R.opened hfit hv)

theorem defineType {d : TypeDef} (hd : R.Allows (.type d)) (hroot : R.Near s₀ Scopes.root) :
    Observes R s₀ (fun _ ↦ True) (defineType d ctx) := by
  obtain ⟨hsuper, hbody⟩ := R.inside_type hd
  refine .bind (.superclass? hctx hsuper) fun superclass _ ↦
    .openType hd hctx.2 superclass fun s t hs ht ↦
    .bind (.retype fun _ _ ↦ .documented t d.doc) fun _ _ ↦ ?_
  refine .newScope (R.near_mono hs hroot) fun s' scope hs' hscope ↦ ?_
  have hinner : Context.Open R s' ⟨scope, .type t, t, none⟩ :=
    ⟨R.open_of_own hscope, R.around_mono hs' ht⟩
  exact .bind (.within _ [] (.statements hinner hbody)) fun _ _ ↦ .pure trivial

omit hctx in
theorem defineMethod {d : MethodDef} (hd : R.Allows (.method d)) :
    Observes R s₀ (fun _ ↦ True) (defineMethod d ctx) := by
  unfold Eval.defineMethod
  split
  · cases ctx.self with
    | type t => exact .bind (.retype fun _ _ ↦ .classMethod t hd) fun _ _ ↦ .pure trivial
    | _ => exact .bind (P := fun _ ↦ True) (.fault _ _) fun _ _ ↦ .pure trivial
  · exact .bind (.retype fun _ _ ↦ .method ctx.module hd) fun _ _ ↦ .pure trivial

theorem includeInto {e : Expr} (he : R.Allows (.expr e)) :
    Observes R s₀ (fun _ ↦ True) (includeInto e ctx) := by
  refine .bind (.eval hctx he) fun v _ ↦ .bind (.read _) fun m _ ↦ ?_
  cases m with
  | some m => exact .bind (.retype fun _ _ ↦ .included ctx.module m) fun _ _ ↦ .pure trivial
  | none => exact .bind (.inspectAnyway v) fun _ _ ↦ .fault _ _

theorem place {t : Target} (ht : R.AllowsTarget t) :
    Observes R s₀ R.AllowsPlace (place t ctx) := by
  obtain ⟨hinside, n, hn, htarget⟩ := ht
  cases t with
  | index receiver args =>
    obtain ⟨hreceiver, hargs⟩ := List.forall_mem_cons.mp hinside
    refine .bind (.eval hctx hreceiver) fun _ _ ↦ .bind (.holding _ (.values hctx ?_)) fun _ _ ↦
      .pure trivial
    exact List.forall_mem_map.mp hargs
  | member receiver name =>
    exact .bind (.eval hctx (List.forall_mem_cons.mp hinside).1) fun _ _ ↦ .pure trivial
  | constant i => exact .pure ⟨n, i, hn, htarget, rfl⟩
  | _ => exact .pure trivial

omit hctx in
theorem readPlace (p : Place) : Observes R s₀ (fun _ ↦ True) (readPlace p ctx span) := by
  cases p with
  | variable_ name => exact .bind (.read _) fun _ _ ↦ .pure trivial
  | attr name => exact .read _
  | constant name => exact .bind (.constant? name) fun _ _ ↦ .pure trivial
  | index receiver args => exact .send _ _ _ _ _
  | member receiver name => exact .send _ _ _ _ _

omit hctx in
theorem setAttr (target : Value) (v : Value) :
    Observes R s₀ (fun _ ↦ True) (setAttr target name v span) := by
  cases target with
  | object o => exact of_simple (.change (.setObjectAttr o name v))
  | type t => exact .retype fun _ _ ↦ .attr t name v
  | _ => exact .bind (.read _) fun _ _ ↦ .fault _ span

theorem writePlace {p : Place} (hp : R.AllowsPlace p) (v : Value) :
    Observes R s₀ (fun _ ↦ True) (writePlace p v ctx span) := by
  cases p with
  | variable_ name => exact .assign hctx.1 name v
  | attr name => exact .setAttr ctx.self v
  | constant name =>
    obtain ⟨n, i, hn, ht, rfl⟩ := hp
    exact .retype fun _ _ ↦ .constant ctx.module v hn ht
  | index receiver args => exact .bind (.send _ _ _ _ _) fun _ _ ↦ .pure trivial
  | member receiver name => exact .bind (.send _ _ _ _ _) fun _ _ ↦ .pure trivial

theorem assignment {t : Target} (ht : R.AllowsTarget t) {value : Expr}
    (hv : R.Allows (.expr value)) :
    Observes R s₀ (fun _ ↦ True) (assignment t value ctx span) :=
  .bind (.place hctx ht) fun _ hp ↦ .bind (.holding _ (.eval hctx hv)) fun v _ ↦
    .bind (.holding _ (.writePlace hctx hp v)) fun _ _ ↦ .pure trivial

theorem compoundAssignment (op : Compound) {t : Target} (ht : R.AllowsTarget t) {value : Expr}
    (hv : R.Allows (.expr value)) :
    Observes R s₀ (fun _ ↦ True) (compoundAssignment op t value ctx span) := by
  refine .bind (.place hctx ht) fun p hp ↦ .bind (.holding _ (.readPlace p)) fun old _ ↦ ?_
  cases op with
  | arith op =>
    exact .bind (.holding _ (.eval hctx hv)) fun _ _ ↦
      .bind (.holding _ (.send _ _ _ _ _)) fun v _ ↦
      .bind (.holding _ (.writePlace hctx hp v)) fun _ _ ↦ .pure trivial
  | logic op =>
    dsimp only
    split
    · exact .pure trivial
    · exact .bind (.holding _ (.eval hctx hv)) fun v _ ↦
        .bind (.holding _ (.writePlace hctx hp v)) fun _ _ ↦ .pure trivial

theorem choose (v : Value) {otherwise : Eval Value}
    (ho : Observes R s₀ (fun _ ↦ True) otherwise) {arms : List Arm}
    (harms : ∀ a ∈ arms, R.Allows (.arm a)) :
    Observes R s₀ (fun _ ↦ True) (choose ctx v otherwise arms) := by
  induction arms with
  | nil => exact ho
  | cons arm rest ih =>
    obtain ⟨harm, hrest⟩ := List.forall_mem_cons.mp harms
    obtain ⟨hguard, hbody⟩ := R.inside_arm harm
    refine .bind (.matchPattern arm.pattern v) fun found _ ↦ ?_
    cases found with
    | none => exact ih hrest
    | some found =>
      refine .bind (.assignAll hctx found) fun _ _ ↦
        .bind (.guardHolds hctx hguard) fun holds _ ↦ ?_
      split
      · exact .statements hctx hbody
      · exact ih hrest

theorem select {subject : Expr} {arms : List Arm} {elseBody : Option (List Expr)}
    (hsubject : R.Allows (.expr subject)) (harms : ∀ a ∈ arms, R.Allows (.arm a))
    (helse : R.AllowsAll (elseBody.getD [])) :
    Observes R s₀ (fun _ ↦ True) (select subject arms elseBody ctx span) := by
  refine .bind (.eval hctx hsubject) fun v _ ↦ .holding [v] (.choose hctx v ?_ harms)
  cases elseBody with
  | some es => exact .statements hctx helse
  | none => exact .bind (.inspectAnyway v) fun _ _ ↦ .fault _ span

omit hctx in
theorem afterRound (o : Outcome Value) {again : Task} (h : again.Open R s₀) :
    Observes R s₀ (Reply.Open R s₀) (afterRound o again) := by
  unfold Eval.afterRound
  split
  · exact .pure h
  · exact .pure h
  · exact .pure trivial
  · exact .unwind _

theorem loopRound {condition : Expr} (hc : R.Allows (.expr condition)) {es : List Expr}
    (hes : R.AllowsAll es) :
    Observes R s₀ (Reply.Open R s₀) (loopRound condition es ctx) := by
  refine .bind (.eval hctx hc) fun v _ ↦ ?_
  split
  · exact .bind (.attempt (.statements hctx hes)) fun o _ ↦ .afterRound o ⟨hctx, hc, hes⟩
  · exact .pure trivial

theorem forRound (p : Pattern) {es : List Expr} (hes : R.AllowsAll es) (list : ListId)
    (index : Nat) : Observes R s₀ (Reply.Open R s₀) (forRound p es ctx span list index) := by
  refine .bind (.read _) fun item _ ↦ ?_
  cases item with
  | none => exact .pure trivial
  | some item =>
    exact .bind (.holding _ (.destructure hctx p item)) fun _ _ ↦
      .bind (.attempt (.holding _ (.statements hctx hes))) fun o _ ↦ .afterRound o ⟨hctx, hes⟩

theorem blockOf {b : Option BlockArg} (hb : ∀ b' ∈ b, R.Allows (Node.ofBlockArg b')) :
    Observes R s₀ (fun _ ↦ True) (blockOf b ctx) := by
  match b with
  | none => exact .pure trivial
  | some (.literal b) =>
    have hblock : R.Allows (.block b) := hb _ rfl
    exact .bind (.newLambda hctx hblock) fun _ _ ↦ .pure trivial
  | some (.pass e) =>
    have he : R.Allows (.expr e) := hb _ rfl
    refine .bind (.eval hctx he) fun v _ ↦ ?_
    cases v with
    | nil => exact .pure trivial
    | lambda l => exact .pure trivial
    | _ => exact .bind (.inspectAnyway _) fun _ _ ↦ .fault _ _

omit hctx in
theorem catchingBreak (l : Option LambdaId) {work : Eval Value}
    (hw : Observes R s₀ (fun _ ↦ True) work) :
    Observes R s₀ (fun _ ↦ True) (catchingBreak l work) := by
  refine .bind (.attempt hw) fun o _ ↦ ?_
  split
  · split
    · exact .pure trivial
    · exact .unwind _
  · exact .ofOutcome _

omit hctx in
theorem callNamed (name : String) (args : List Value) (block : Option Value) :
    Observes R s₀ (fun _ ↦ True) (callNamed name args block ctx span) := by
  refine .bind (.read _) fun v _ ↦ ?_
  split
  · exact of_simple (.callLambda _ _ _ _)
  · exact .holding _ (.send _ _ _ _ _)
  · exact .send _ _ _ _ _

theorem operands {args : List Expr} (hargs : R.AllowsAll args) {b : Option BlockArg}
    (hb : ∀ b' ∈ b, R.Allows (Node.ofBlockArg b')) :
    Observes R s₀ (fun _ ↦ True) (operands args b ctx) :=
  .bind (.values hctx hargs) fun _ _ ↦
    .bind (.holding _ (.blockOf hctx hb)) fun _ _ ↦ .pure trivial

theorem call {receiver : Option Expr} (hr : ∀ e ∈ receiver, R.Allows (.expr e))
    {args : List Expr} (hargs : R.AllowsAll args) {b : Option BlockArg}
    (hb : ∀ b' ∈ b, R.Allows (Node.ofBlockArg b')) :
    Observes R s₀ (fun _ ↦ True) (call receiver name args b ctx span) := by
  cases receiver with
  | some e =>
    exact .bind (.eval hctx (hr e rfl)) fun v _ ↦
      .bind (.holding _ (.operands hctx hargs hb)) fun _ _ ↦ .catchingBreak _ (.send _ _ _ _ _)
  | none =>
    exact .bind (.operands hctx hargs hb) fun _ _ ↦ .catchingBreak _ (.callNamed _ _ _)

theorem callSuper {args : Option (List Expr)} (hargs : R.AllowsAll (args.getD []))
    {b : Option BlockArg} (hb : ∀ b' ∈ b, R.Allows (Node.ofBlockArg b')) :
    Observes R s₀ (fun _ ↦ True) (callSuper args b ctx span) := by
  unfold Eval.callSuper
  cases ctx.method with
  | none => exact .fault _ span
  | some frame =>
    have block : Observes R s₀ (fun _ ↦ True) (superBlock b frame ctx) := by
      cases b with
      | some b => exact .blockOf hctx hb
      | none => exact .pure trivial
    have send (vs : List Value) : Observes R s₀ (fun _ ↦ True)
        (Eval.holding vs (superBlock b frame ctx) >>= fun p ↦
          Eval.catchingBreak p.2 (Eval.perform (.super frame ⟨ctx.self, vs, p.1, span⟩))) :=
      .bind (.holding vs block) fun _ _ ↦ .catchingBreak _ (of_simple (.perform rfl))
    cases args with
    | some es => exact .bind (.values hctx hargs) fun vs _ ↦ send vs
    | none => exact .bind (.read fun _ ↦ frame.args) fun vs _ ↦ send vs

theorem yield {args : List Expr} (hargs : R.AllowsAll args) :
    Observes R s₀ (fun _ ↦ True) (yield args ctx span) := by
  unfold Eval.yield
  split
  · exact .fault _ span
  · exact .bind (.values hctx hargs) fun _ _ ↦ .callValue _ _ _ _

theorem test {value : Expr} (hv : R.Allows (.expr value)) (p : Pattern) :
    Observes R s₀ (fun _ ↦ True) (test value p ctx) := by
  refine .bind (.eval hctx hv) fun v _ ↦
    .bind (.holding _ (.matchPattern p v)) fun found _ ↦ ?_
  cases found with
  | some found => exact .bind (.assignAll hctx found) fun _ _ ↦ .pure trivial
  | none => exact .pure trivial

theorem cond {condition : Expr} {thenBody : List Expr} {elseBody : Option (List Expr)}
    (hc : R.Allows (.expr condition)) (hthen : R.AllowsAll thenBody)
    (helse : R.AllowsAll (elseBody.getD [])) :
    Observes R s₀ (fun _ ↦ True) (cond condition thenBody elseBody ctx) := by
  refine .bind (.eval hctx hc) fun v _ ↦ ?_
  split
  · exact .statements hctx hthen
  · cases elseBody with
    | some es => exact .statements hctx helse
    | none => exact .pure trivial

theorem jump (j : Jump) {value : Option Expr} (hv : ∀ e ∈ value, R.Allows (.expr e)) :
    Observes R s₀ (fun _ ↦ True) (jump j value ctx span) := by
  cases j with
  | raise =>
    cases value with
    | some e => exact .bind (.eval hctx (hv e rfl)) fun v _ ↦ .raise v span
    | none =>
      refine .bind (.read _) fun rescuing _ ↦ ?_
      split
      · exact .unwind _
      · exact .fault _ span
  | _ => exact .bind (.optional hctx hv) fun _ _ ↦ .unwind _

theorem loopItems (p : Pattern) {items : Expr} (hitems : R.Allows (.expr items))
    {es : List Expr} (hes : R.AllowsAll es) :
    Observes R s₀ (fun _ ↦ True) (loopItems p items es ctx span) := by
  refine .bind (.eval hctx hitems) fun v _ ↦ ?_
  cases v with
  | list l => exact .holding _ (.perform ⟨hctx, hes⟩)
  | _ => exact .bind (.inspectAnyway _) fun _ _ ↦ .fault _ _

theorem expression {e : Expr} (he : R.Allows (.expr e)) (hroot : R.Near s₀ Scopes.root) :
    Observes R s₀ (fun _ ↦ True) (expression e ctx) := by
  obtain ⟨kind, span⟩ := e
  -- What may run includes all code inside, so the parts of every form may run, too.
  have inside := R.inside_expr he
  unfold Eval.expression
  cases kind with
  | literal v => exact .pure trivial
  | list items =>
    exact .bind (.values hctx (List.forall_mem_map.mp inside)) fun vs _ ↦ .newList vs
  | self => exact .pure trivial
  | name name =>
    refine .bind (.read _) fun v _ ↦ ?_
    split
    · exact .pure trivial
    · exact .send _ _ _ _ _
  | constant name =>
    refine .bind (.constant? name) fun v _ ↦ ?_
    split
    · exact .pure trivial
    · exact .fault _ _
  | attr name => exact .read _
  | call receiver method args b =>
    have parts : (∀ e ∈ receiver, R.Allows (.expr e)) ∧ R.Allows (.ident method) ∧
        R.AllowsAll args ∧ ∀ b' ∈ b, R.Allows (Node.ofBlockArg b') := by
      simpa [Node.ofKind, or_imp, forall_and] using inside
    exact .call hctx parts.1 parts.2.2.1 parts.2.2.2
  | super args b =>
    have parts : R.AllowsAll (args.getD []) ∧ ∀ b' ∈ b, R.Allows (Node.ofBlockArg b') := by
      simpa [Node.ofKind, or_imp, forall_and] using inside
    exact .callSuper hctx parts.1 parts.2
  | yield args => exact .yield hctx (List.forall_mem_map.mp inside)
  | block b =>
    exact .bind (.newLambda hctx (inside _ List.mem_cons_self)) fun _ _ ↦ .pure trivial
  | binary op left right =>
    have hright : R.Allows (.expr right) := inside _ (by simp [Node.ofKind])
    exact .bind (.eval hctx (inside _ List.mem_cons_self)) fun _ _ ↦
      .bind (.holding _ (.eval hctx hright)) fun _ _ ↦
      .bind (.send _ _ _ _ _) fun _ _ ↦ .pure trivial
  | unary op operand =>
    refine .bind (.eval hctx (inside _ List.mem_cons_self)) fun v _ ↦ ?_
    cases op with
    | not => exact .pure trivial
    | neg => exact .send _ _ _ _ _
  | logical op left right =>
    refine .bind (.eval hctx (inside _ List.mem_cons_self)) fun v _ ↦ ?_
    split
    · exact .pure trivial
    · exact .holding _ (.eval hctx (inside _ (by simp [Node.ofKind])))
  | fits value p => exact .test hctx (inside _ List.mem_cons_self) p
  | assign t value =>
    obtain ⟨htarget, hvalue⟩ := List.forall_mem_append.mp inside
    exact .assignment hctx ⟨htarget, _, he, rfl⟩ (hvalue _ List.mem_cons_self)
  | compound op t value =>
    obtain ⟨htarget, hvalue⟩ := List.forall_mem_append.mp inside
    exact .compoundAssignment hctx op ⟨htarget, _, he, rfl⟩ (hvalue _ List.mem_cons_self)
  | destructure p value =>
    have hvalue : R.Allows (.expr value) := inside _ (by simp [Node.ofKind])
    exact .bind (.eval hctx hvalue) fun v _ ↦
      .bind (.holding _ (.destructure hctx p v)) fun _ _ ↦ .pure trivial
  | cond span condition thenBody elseBody =>
    obtain ⟨hc, hthen, helse⟩ := R.inside_cond (inside _ List.mem_cons_self)
    exact .cond hctx hc hthen helse
  | loop span condition body =>
    exact .perform ⟨hctx, R.inside_loop (inside _ List.mem_cons_self)⟩
  | forEach span p items body =>
    obtain ⟨hitems, hbody⟩ := R.inside_forEach (inside _ List.mem_cons_self)
    exact .loopItems hctx p hitems hbody
  | select span subject arms elseBody =>
    obtain ⟨hsubject, harms, helse⟩ := R.inside_select (inside _ List.mem_cons_self)
    exact .select hctx hsubject harms helse
  | protect b => exact .body hctx (inside _ List.mem_cons_self)
  | jump j value =>
    have hvalue : ∀ e ∈ value, R.Allows (.expr e) := by simpa [Node.ofKind] using inside
    exact .jump hctx j hvalue
  | method d => exact .defineMethod (inside _ List.mem_cons_self)
  | type d => exact .defineType hctx (inside _ List.mem_cons_self) hroot
  | include_ m => exact .includeInto hctx (inside _ List.mem_cons_self)

end

end Eval.Observes

end Quill
