import Quill.Proofs.Regime.Code

/-!
# Runs keep to every regime

What a task does is all under a regime, from its beginning to any moment of its run, if the code of
the task may run, and runs where it may. Main statements: `Machine.Reaches.becomes` and
`Step.Observes.course`.
-/

namespace Quill

variable {R : Regime} {s₀ : State}

namespace Regime

variable {s : State} {name : String} {m : Method}

theorem firstWith (hs : R.Fit s) {ts : List TypeId} {found : TypeId × List Clause}
    (h : s.types.firstWith name ts = some found) :
    R.Around s found.1 ∧ ∀ d, .user d ∈ found.2 → R.Allows (.method d) := by
  induction ts with
  | nil => cases h
  | cons t rest ih =>
    unfold Types.firstWith at h
    split at h
    · rename_i clauses hclauses
      cases h
      exact R.method hs (.inl hclauses)
    · exact ih h

theorem classSideWithin (hs : R.Fit s) {n : Nat} {t : TypeId} {found : TypeId × List Clause}
    (h : s.types.classSideWithin name n t = some found) :
    R.Around s found.1 ∧ ∀ d, .user d ∈ found.2 → R.Allows (.method d) := by
  induction n generalizing t with
  | zero => cases h
  | succ n ih =>
    unfold Types.classSideWithin at h
    split at h
    · rename_i clauses hclauses
      cases h
      exact R.method hs (.inr hclauses)
    · split at h
      · exact ih h
      · cases h

/-- The code of the method may run, inside of the type or module that has it. -/
def Finds (R : Regime) (s : State) (m : Method) : Prop :=
  R.Around s m.owner ∧ ∀ d, .user d ∈ m.clauses → R.Allows (.method d)

theorem methodAmong (hs : R.Fit s) {ts : List TypeId} (h : s.methodAmong name ts = some m) :
    R.Finds s m := by
  obtain ⟨found, hfound, rfl⟩ := Option.map_eq_some_iff.mp h
  exact R.firstWith hs hfound

theorem classMethod (hs : R.Fit s) {t : TypeId} (h : s.classMethod? t name = some m) :
    R.Finds s m := by
  obtain ⟨found, hfound, rfl⟩ := Option.map_eq_some_iff.mp h
  exact R.classSideWithin hs hfound

theorem answered (hs : R.Fit s) {receiver : Value} {bare : Bool}
    (h : s.answer receiver name bare = .method m) : R.Finds s m := by
  unfold State.answer at h
  split at h
  · rename_i own hown
    cases h
    obtain ⟨t, -, hown⟩ := Option.bind_eq_some_iff.mp hown
    exact R.classMethod hs hown
  · split at h
    · cases h
    · split at h
      · rename_i m' hfound
        cases h
        exact R.methodAmong hs hfound
      · cases h

theorem answered_super (hs : R.Fit s) {frame : MethodFrame} {receiver : Value}
    (h : s.superMethod? frame receiver = some m) : R.Finds s m := by
  unfold State.superMethod? at h
  split at h
  · obtain h | ⟨-, h⟩ := Option.or_eq_some_iff.mp h
    · obtain ⟨t, -, h⟩ := Option.bind_eq_some_iff.mp h
      exact R.classMethod hs h
    · exact R.methodAmong hs h
  · exact R.methodAmong hs h

end Regime

namespace Eval.Observes

variable {ctx : Context} {span : Span} {m : Method} {c : Call}

theorem defineBlock (hctx : ctx.Own R s₀) (p : Params) (block : Option Value) :
    Observes R s₀ (fun _ ↦ True) (defineBlock p block ctx.scope) := by
  unfold Eval.defineBlock
  split
  · exact .define hctx.1 _ _
  · exact .pure trivial

theorem bindParams (hctx : ctx.Own R s₀) {d : MethodDef} (hd : R.Allows (.method d)) (c : Call) :
    Observes R s₀ (fun _ ↦ True) (bindParams d c ctx) := by
  refine .bind (.matchSequence d.params.items c.args) fun found _ ↦ ?_
  cases found with
  | none => exact .pure trivial
  | some found =>
    refine .bind (.defineAll hctx found) fun _ _ ↦
      .bind (.defineBlock hctx d.params c.block) fun _ _ ↦ ?_
    unfold Eval.admits
    split
    · rename_i e he
      have allowed := (R.inside_method hd).1 e he
      exact .bind (.perform ⟨hctx.open, allowed⟩) fun _ _ ↦ .pure trivial
    · exact .pure trivial

theorem bindClause {β : Type} {Q : β → Prop} {f : Option Context → Eval β} {d : MethodDef}
    (hd : R.Allows (.method d)) (howner : R.Around s₀ m.owner) (hroot : R.Near s₀ Scopes.root)
    (hf : ∀ s found, R.Becomes s₀ s → (∀ ctx : Context, found = some ctx → ctx.Open R s) →
      Observes R s Q (f found)) : Observes R s₀ Q (bindClause d m c >>= f) := by
  intro s₁ hs₁
  unfold Eval.bindClause
  split
  · rw [bind_bind]
    refine Observes.newScope hroot (fun s scope hs hscope ↦ ?_) s₁ hs₁
    let inner : Context := ⟨scope, c.receiver, m.owner, some (m.frame c.args c.block)⟩
    have hinner : inner.Own R s := ⟨hscope, R.around_mono hs howner⟩
    have params : Observes R s (fun _ ↦ True) (Eval.bindParams d c inner) :=
      .bindParams hinner hd c
    rw [bind_bind]
    refine .bind (.within inner [] params) fun taken _ ↦ hf s _ hs ?_
    intro ctx hctx
    split at hctx <;> cases hctx
    exact hinner.open
  · exact hf s₁ none hs₁ nofun s₁ (R.refl (R.fit hs₁))

theorem runClause (hctx : ctx.Open R s₀) {d : MethodDef} (hd : R.Allows (.method d))
    (label : String) : Observes R s₀ (fun _ ↦ True) (runClause d ctx label span) := by
  have body : Observes R s₀ (fun _ ↦ True)
      (Eval.perform (.framed ⟨label, span⟩ (.body d.body ctx))) :=
    .perform ⟨hctx, (R.inside_method hd).2⟩
  refine .bind (.attempt (.within ctx [] body)) fun o _ ↦ ?_
  split
  · exact .pure trivial
  · exact .fault _ span
  · exact .fault _ span
  · exact .ofOutcome _

theorem runClauses (hroot : R.Near s₀ Scopes.root) (mismatch : Option Mismatch)
    {clauses : List Clause} (hm : R.Around s₀ m.owner)
    (hclauses : ∀ d, .user d ∈ clauses → R.Allows (.method d)) :
    Observes R s₀ (fun _ ↦ True) (runClauses m c mismatch clauses) := by
  induction clauses generalizing s₀ mismatch with
  | nil => exact of_asks (.raiseNoClause m mismatch fun _ _ ↦ nofun)
  | cons clause rest ih =>
    have hrest (d : MethodDef) (hd : .user d ∈ rest) := hclauses d (List.mem_cons_of_mem _ hd)
    cases clause with
    | native nm =>
      refine .bind (.read _) fun missed _ ↦ ?_
      cases missed with
      | none => exact .holding _ (of_simple (.perform rfl))
      | some reason => exact ih hroot _ hm hrest
    | user d =>
      have hd := hclauses d List.mem_cons_self
      refine .bindClause hd hm hroot fun s found hs hfound ↦ ?_
      cases found with
      | some ctx => exact .bind (.read _) fun label _ ↦ .runClause (hfound ctx rfl) hd label
      | none => exact ih (R.near_mono hs hroot) mismatch (R.around_mono hs hm) hrest

theorem missing (f : Fault) (v : Value) (name : String) :
    Observes R s₀ (fun _ ↦ True) (missing f v name span : Eval Value) :=
  of_simple (.missing f v name span)

theorem deliver (hroot : R.Near s₀ Scopes.root) (name : String) (c : Call) :
    Observes R s₀ (fun _ ↦ True) (deliver name c) := by
  refine .reading fun s hs ↦ ?_
  split
  · rename_i m hm
    obtain ⟨howner, hclauses⟩ := R.answered (R.fit hs) hm
    exact .runClauses (R.near_mono hs hroot) none howner hclauses
  · exact .pure trivial
  · exact .bind (.read _) fun _ _ ↦ .missing _ _ _

theorem deliverSuper (hroot : R.Near s₀ Scopes.root) (frame : MethodFrame) (c : Call) :
    Observes R s₀ (fun _ ↦ True) (deliverSuper frame c) := by
  refine .reading fun s hs ↦ ?_
  split
  · rename_i m hm
    obtain ⟨howner, hclauses⟩ := R.answered_super (R.fit hs) hm
    exact .runClauses (R.near_mono hs hroot) none howner hclauses
  · exact .missing _ _ _

theorem runBlock {l : Lambda} (hl : l.home.Near R s₀) (hb : R.Allows (.block l.block))
    (id : LambdaId) (args : List Value) (block : Option Value) :
    Observes R s₀ (fun _ ↦ True) (runBlock id l args block span) := by
  refine .inNewScope hl fun s ctx _ hctx ↦ .bind (.read _) fun args _ ↦ .within ctx _ ?_
  refine .bind (.matchSequence _ args) fun found _ ↦ ?_
  cases found with
  | none =>
    exact .bind (.newList args) fun v _ ↦ .bind (.inspectAnyway v) fun _ _ ↦ .fault _ span
  | some found =>
    have statements (frame : CallFrame) : Observes R s (fun _ ↦ True)
        (Eval.perform (.framed frame (.statements l.block.body ctx))) :=
      .perform ⟨hctx.open, R.inside_block hb⟩
    refine .bind (.defineAll hctx found) fun _ _ ↦
      .bind (.defineBlock hctx l.block.params block) fun _ _ ↦
        .bind (.attempt (statements _)) fun o _ ↦ ?_
    split
    · exact .pure trivial
    · exact .pure trivial
    · exact .unwind _
    · exact .ofOutcome _

theorem callLambda (id : LambdaId) (args : List Value) (block : Option Value) :
    Observes R s₀ (fun _ ↦ True) (callLambda id args block span) := by
  refine .reading fun s hs ↦ ?_
  cases hl : s.lambda? id with
  | some l =>
    obtain ⟨hhome, hblock⟩ := R.lambda (R.fit hs) hl
    exact .runBlock hhome hblock id args block
  | none => exact .pure trivial

theorem tick : Observes R s₀ (fun _ ↦ True) tick := by
  intro s hs
  obtain h | ⟨l, -, -, h⟩ := tick_cases s
  · rw [h]
    exact ⟨R.same (R.fit hs) rfl rfl rfl, fun _ _ ↦ trivial⟩
  · rw [h]
    exact ⟨R.same (R.fit hs) rfl rfl rfl, fun _ _ ↦ trivial⟩

theorem inFrame {t : Task} (ht : t.Open R s₀) (frame : CallFrame) :
    Observes R s₀ (fun _ ↦ True) (inFrame frame t) := by
  have push : Observes R s₀ (fun _ ↦ True) (pushFrame frame) := by
    intro s hs
    unfold pushFrame
    split
    · exact ⟨R.refl (R.fit hs), fun _ _ ↦ trivial⟩
    · exact ⟨R.same (R.fit hs) rfl rfl rfl, fun _ _ ↦ trivial⟩
  exact .bind push fun _ _ ↦ .bind (.attempt (.perform ht)) fun o _ ↦
    .bind (.modify fun _ hs ↦ R.same (R.fit hs) rfl rfl rfl) fun _ _ ↦ .ofOutcome o

theorem whileRescuing {t : Task} (ht : t.Open R s₀) (r : Raised) :
    Observes R s₀ (fun _ ↦ True) (whileRescuing r t) :=
  .bind (.modify fun _ hs ↦ R.same (R.fit hs) rfl rfl rfl) fun _ _ ↦
    .bind (.attempt (.perform ht)) fun o _ ↦
      .bind (.modify fun _ hs ↦ R.same (R.fit hs) rfl rfl rfl) fun _ _ ↦ .ofOutcome o

theorem answering {work : Eval Value} (h : Observes R s₀ (fun _ ↦ True) work) :
    Observes R s₀ (Reply.Open R s₀) (answering work) :=
  .bind h fun _ _ ↦ .pure trivial

theorem describe (v : Value) : Observes R s₀ (Reply.Open R s₀) (describe v) := by
  refine .bind (.attempt (.of_simple (.inspect v))) fun o _ ↦ ?_
  cases o <;> exact .pure trivial

theorem rawText (v : Value) : Observes R s₀ (Reply.Open R s₀) (rawText v) := by
  refine .bind (.read _) fun text _ ↦ ?_
  cases text <;> exact .pure trivial

theorem visitRound (v : Visit) (list : ListId) (block : Option Value) (index : Nat) :
    Observes R s₀ (Reply.Open R s₀) (visitRound v list block span index) := by
  refine .bind (.read _) fun item _ ↦ ?_
  cases item with
  | none =>
    refine .bind (P := fun _ ↦ True) ?_ fun _ _ ↦ .pure trivial
    cases v with
    | map results => exact .newList _
    | filter keep kept => exact .newList _
    | _ => exact .pure trivial
  | some item =>
    cases block with
    | some b =>
      refine .bind (.holding _ (.callValue b _ _ span)) fun answer _ ↦ ?_
      dsimp only
      cases v.step item answer <;> exact .pure trivial
    | none =>
      refine .bind (.read fun _ ↦ item) fun answer _ ↦ ?_
      dsimp only
      cases v.step item answer <;> exact .pure trivial

theorem timesRound (left index : Nat) (block : Value) :
    Observes R s₀ (Reply.Open R s₀) (timesRound left index block span) := by
  cases left with
  | zero => exact .pure trivial
  | succ left => exact .bind (.callValue block _ _ span) fun _ _ ↦ .pure trivial

end Eval.Observes

theorem Task.work_observes {t : Task} (hroot : R.Near s₀ Scopes.root) (ht : t.Open R s₀) :
    Eval.Observes R s₀ (Reply.Open R s₀) t.work := by
  cases t with
  | eval e ctx => exact .answering (.bind .tick fun _ _ ↦ .expression ht.1 ht.2 hroot)
  | statements es ctx => exact .answering (.statements ht.1 ht.2)
  | body b ctx => exact .answering (.body ht.1 ht.2)
  | guard e ctx => exact .answering (.eval ht.1 ht.2)
  | send name c => exact .answering (.deliver hroot name c)
  | super frame c => exact .answering (.deliverSuper hroot frame c)
  | callLambda l args block span => exact .answering (.callLambda l args block)
  | native m c => exact .answering (.of_simple (m.routine.run_simple c))
  | framed frame t =>
    have inner : t.Open R s₀ := ht
    exact .answering (.inFrame inner frame)
  | handling r t =>
    have inner : t.Open R s₀ := ht
    exact .answering (.whileRescuing inner r)
  | describe v => exact .describe v
  | rawText v => exact .rawText v
  | loop condition es ctx => exact .loopRound ht.1 ht.2.1 ht.2.2
  | forEach p es ctx span list index => exact .forRound ht.1 p ht.2 list index
  | visit v list block span index => exact .visitRound v list block index
  | times left index block span => exact .timesRound left index block

namespace Machine

/-- All that the machine still does after `s` keeps to the regime. -/
structure Observes (R : Regime) (s : State) (m : Machine) : Prop where
  work : ∃ s₀, R.Becomes s₀ s ∧ m.work.Observes R (Reply.Open R s₀) s
  waiting : ∀ p ∈ m.waiting, ∃ s₀, R.Becomes s₀ s ∧ ∀ o s', R.Becomes s₀ s' →
    (p.resume o s').Observes R (Reply.Open R s₀) s'

namespace Observes

variable {s s' : State} {t : Task} {m m' : Machine} {ps : List Pending}

theorem starts (hs : R.Fit s) (ht : t.Open R s)
    (hps : ∀ p ∈ ps, ∃ s₀, R.Becomes s₀ s ∧ ∀ o s', R.Becomes s₀ s' →
      (p.resume o s').Observes R (Reply.Open R s₀) s') : Observes R s ⟨t, t.work s, ps⟩ :=
  ⟨⟨s, R.refl hs, Task.work_observes (R.root hs) ht s (R.refl hs)⟩, hps⟩

theorem next (h : m.Observes R s) (hn : m.next = .inl m') :
    ∃ s', R.Becomes s s' ∧ m'.Observes R s' := by
  obtain ⟨⟨s₀, hs₀, hwork⟩, hwaiting⟩ := h
  obtain ⟨t', s', resume, hx, rfl⟩ | ⟨t', s', hx, rfl⟩ | ⟨o, s', p, ps, hx, hw, rfl⟩ :=
    next_cases hn <;> rw [hx] at hwork
  · obtain ⟨⟨hs', ht'⟩, hresume⟩ := hwork
    refine ⟨s', hs', .starts (R.fit hs') ht' ?_⟩
    intro p hp
    obtain rfl | hp := List.mem_cons.mp hp
    · refine ⟨s', R.refl (R.fit hs'), fun o s'' hs'' ↦ (hresume o s'' hs'').mono ?_⟩
      intro r hr
      cases r with
      | value v => trivial
      | task t => exact hr.mono (R.trans hs₀ hs')
    · obtain ⟨s₁, hs₁, hp⟩ := hwaiting p hp
      exact ⟨s₁, R.trans hs₁ hs', hp⟩
  · obtain ⟨hs', hreply⟩ := hwork
    refine ⟨s', hs', .starts (R.fit hs') ?_ fun p hp ↦ ?_⟩
    · have ht' : t'.Open R s₀ := hreply _ rfl
      exact ht'.mono (R.trans hs₀ hs')
    · obtain ⟨s₁, hs₁, hp⟩ := hwaiting p hp
      exact ⟨s₁, R.trans hs₁ hs', hp⟩
  · have hs' : R.Becomes s s' := by cases o <;> exact hwork.1
    rw [hw] at hwaiting
    obtain ⟨s₁, hs₁, hp⟩ := hwaiting p List.mem_cons_self
    have hs₁' := R.trans hs₁ hs'
    refine ⟨s', hs', ⟨s₁, hs₁', hp o s' hs₁'⟩, fun q hq ↦ ?_⟩
    obtain ⟨s₂, hs₂, hq⟩ := hwaiting q (List.mem_cons_of_mem _ hq)
    exact ⟨s₂, R.trans hs₂ hs', hq⟩

end Observes

variable {s s' : State} {t : Task} {m : Machine}

theorem Reaches.observes (hs : R.Fit s) (ht : t.Open R s) (h : (start t s).Reaches m) :
    ∃ s', R.Becomes s s' ∧ m.Observes R s' := by
  induction h with
  | refl => exact ⟨s, R.refl hs, .starts hs ht nofun⟩
  | tail _ hn ih =>
    obtain ⟨s₁, hs₁, hm⟩ := ih
    obtain ⟨s₂, hs₂, hm'⟩ := hm.next hn
    exact ⟨s₂, R.trans hs₁ hs₂, hm'⟩

theorem Reaches.becomes (hs : R.Fit s) (ht : t.Open R s) (h : (start t s).Reaches m) :
    R.Becomes s m.work.state := by
  obtain ⟨s', hs', ⟨s₀, -, hwork⟩, -⟩ := h.observes hs ht
  exact R.trans hs' hwork.becomes

theorem run_becomes {k : Nat} {o : Outcome Value} (hs : R.Fit s) (ht : t.Open R s)
    (h : (start t s).run k = some (o, s')) : R.Becomes s s' := by
  obtain ⟨m, hr, he⟩ := run_iff.mp ⟨k, h⟩
  have hend := hr.becomes hs ht
  rwa [(next_inr he).1] at hend

end Machine

theorem Step.Observes.course {α : Type} {P : α → Prop} {x : Step α} {s s' : State}
    {es : List Episode} {o : Outcome α} (hx : x.Observes R P s) (h : x.Course es o s') :
    R.Becomes s s' := by
  induction h generalizing s with
  | done => exact hx.1
  | wait hrun _ ih =>
    obtain ⟨⟨hs, ht⟩, hresume⟩ := hx
    have htask := Machine.run_becomes (R.fit hs) ht hrun
    exact R.trans (R.trans hs htask) (ih (hresume _ _ htask))

namespace Interpreter

variable {i i' : Interpreter} {fuel : Nat} {p : Program} {r : Result} {m : Machine}

theorem perform_becomes {α : Type} {P : α → Prop} {work : Eval α} {o : Outcome α}
    (hi : R.Fit i.state) (hw : work.Observes R i.state P)
    (h : i.perform work fuel = some (o, i')) : R.Becomes i.state i'.state := by
  obtain ⟨⟨o', s'⟩, hrun, heq⟩ := Option.map_eq_some_iff.mp h
  cases heq
  obtain ⟨es, hcourse⟩ := Step.exists_course hrun
  exact (hw i.state (R.refl hi)).course hcourse

theorem result_becomes {o : Outcome Value} {span : Span} (hi : R.Fit i.state)
    (h : i.result o span fuel = some (r, i')) : R.Becomes i.state i'.state := by
  obtain rfl | ⟨raised, text, -, hperform | hperform⟩ := result_cases h
  · exact R.refl hi
  · exact perform_becomes hi (.of_simple (.holding _ (.display _))) hperform
  · exact perform_becomes hi (.of_simple (.inspect _)) hperform

theorem machine_becomes (hi : R.Fit i.state)
    (hp : (Task.statements p.body State.topContext).Open R i.state)
    (h : (i.machine p).Reaches m) : R.Becomes i.state m.work.state := by
  have hrested : R.Becomes i.state i.rested.state := R.same hi rfl rfl rfl
  exact R.trans hrested (h.becomes (R.fit hrested) (hp.mono hrested))

theorem run_becomes (hi : R.Fit i.state)
    (hp : (Task.statements p.body State.topContext).Open R i.state)
    (h : i.run p fuel = some (r, i')) : R.Becomes i.state i'.state := by
  obtain ⟨o, s, j, hrun, hres, rfl⟩ := run_eq_some.mp h
  obtain ⟨m, hr, he⟩ := Machine.run_iff.mp ⟨fuel, hrun⟩
  have hs := machine_becomes hi hp hr
  rw [(Machine.next_inr he).1] at hs
  have hj : R.Becomes s j.state := result_becomes (i := ⟨s⟩) (R.fit hs) hres
  exact R.trans (R.trans hs hj) (R.same (R.fit hj) rfl rfl rfl)

end Interpreter

end Quill
