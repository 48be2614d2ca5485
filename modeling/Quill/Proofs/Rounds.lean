import Quill.Proofs.Consulting

/-!
# Rounds

A task may give way to another one: the next round of the same loop. `Task.Course` lists what all
its rounds waited for. In the loops that call a block, each round calls it once and lets pass what
unwinds: `BlockLoop.course`.
-/

namespace Quill

open Eval

theorem Along.of_earlier {R : State → State → Prop} [State.Lax R] {s s₁ s' : State}
    {es : List Episode} (hs : R s s₁) (h : Along R s₁ es s') : Along R s es s' := by
  cases es with
  | nil => exact State.Lax.trans hs h
  | cons e es => exact ⟨State.Lax.trans hs h.1, h.2⟩

/-- After it waited for these tasks, the work `x` on a task has come to the work `y`, on the same
task or on one that it gave way to. -/
inductive Task.Comes : Task → Step Reply → List Episode → Task → Step Reply → Prop
  | within {t : Task} {x y : Step Reply} {es : List Episode} : x.Comes es y → Comes t x es t y
  | round {t t' t'' : Task} {x y : Step Reply} {es es' : List Episode} {s : State} :
      x.Course es (.ok (.task t')) s → Comes t' (t'.work s) es' t'' y → Comes t x (es ++ es') t'' y

/-- A task ends with an outcome in a state, after it waited for these tasks, and those it gave way
to as well. -/
def Task.Course (t : Task) (s : State) (es : List Episode) (o : Outcome Value) (s' : State) :
    Prop :=
  ∃ t', Task.Comes t (t.work s) es t' (.done (Outcome.reply o) s')

namespace Task

variable {t t' : Task} {x y : Step Reply} {es : List Episode} {s s' : State} {o : Outcome Value}

theorem Comes.wait {t₁ : Task} {s₁ : State} {resume : Resume Reply} {n : Nat} {o₁ : Outcome Value}
    (hrun : (Machine.start t₁ s).run n = some (o₁, s₁)) (h : Comes t (resume o₁ s₁) es t' y) :
    Comes t (.wait t₁ s resume) (⟨t₁, s, o₁, s₁⟩ :: es) t' y := by
  cases h with
  | within h => exact .within (.wait hrun h)
  | round hx h => exact .round (.wait hrun hx) h

theorem reaches_comes (h : x.Comes es y) (t : Task) (ps : List Pending) :
    Machine.Reaches ⟨t, x, ps⟩ ⟨t, y, ps⟩ := by
  induction h with
  | here => exact .refl
  | @wait t₁ s s₁ resume n o₁ _ _ hrun _ ih =>
    have hstart : Machine.Reaches ⟨t, .wait t₁ s resume, ps⟩ ⟨t₁, t₁.work s, ⟨t, resume⟩ :: ps⟩ :=
      .single rfl
    exact hstart.trans ((Machine.reaches_resume hrun ⟨t, resume⟩ ps).trans ih)

theorem Comes.reaches (h : Comes t x es t' y) (ps : List Pending) :
    Machine.Reaches ⟨t, x, ps⟩ ⟨t', y, ps⟩ := by
  induction h with
  | within h => exact reaches_comes h _ ps
  | round hx _ ih => exact (reaches_comes hx.comes _ ps).trans (ih.head rfl)

theorem Comes.of_run {n : Nat} (h : Machine.run n ⟨t, x, []⟩ = some (o, s')) :
    ∃ es t', Comes t x es t' (.done (Outcome.reply o) s') := by
  induction n using Nat.strongRecOn generalizing t x with
  | ind n ih =>
    cases n with
    | zero => cases h
    | succ n =>
      match x with
      | .wait t₁ s resume =>
        obtain ⟨k, o₁, s₁, j, hk, hj, hrest⟩ := Machine.run_above (m := .start t₁ s) h
        obtain ⟨es, t', hcomes⟩ := ih j (by omega) hrest
        exact ⟨_, t', .wait hk hcomes⟩
      | .done (.ok (.task t₁)) s =>
        obtain ⟨es, t', hcomes⟩ := ih n (Nat.lt_succ_self n) h
        exact ⟨_, t', .round .done hcomes⟩
      | .done (.ok (.value v)) s =>
        cases h
        exact ⟨[], t, .within .here⟩
      | .done (.error u) s =>
        cases h
        exact ⟨[], t, .within .here⟩

/-- A task ends just if all its rounds do, after some tasks that they waited for. -/
theorem gives_iff_course : t.Gives s o s' ↔ ∃ es, t.Course s es o s' := by
  constructor
  · rintro ⟨n, hrun⟩
    exact Comes.of_run hrun
  · rintro ⟨es, t', h⟩
    refine Machine.run_iff.mpr ⟨_, h.reaches [], ?_⟩
    cases o <;> rfl

end Task

/-- The task of calling a block, or anything else that can be called. -/
def blockCall (b : Value) (args : List Value) (span : Span) : Task :=
  match b with
  | .lambda f => .callLambda f args none span
  | v => .send "call" ⟨v, args, none, span⟩

theorem callValue_eq (b : Value) (args : List Value) (span : Span) :
    callValue b args none span = perform (blockCall b args span) := by
  cases b <;> rfl

/-- A loop whose rounds call the block `b` once each, if there are arguments for it. Its places say
what is to be done in the rounds that are left. -/
structure BlockLoop (b : Value) (span : Span) where
  Place : Type
  task : Place → Task
  /-- The arguments of the next call, and what its answer leads to: another round or a value. -/
  next? : Place → State → Option (List Value × (Value → Place ⊕ Value))
  anyHeld {p : Place} {s : State} {held : List Held} : next? p { s with held } = next? p s
  finished {p : Place} {s : State} : next? p s = none →
    ∃ v s', (task p).work s = .done (.ok (.value v)) s' ∧ s.Grows s'
  calls {p : Place} {s : State} {args : List Value} {f : Value → Place ⊕ Value} :
    next? p s = some (args, f) → ∃ (held : List Held) (after : State → List Held),
      (task p).work s = .wait (blockCall b args span) { s with held } fun o s₁ ↦
        .done (o.map fun a ↦ (f a).elim (.task ∘ task) .value) { s₁ with held := after s₁ }

namespace BlockLoop

variable {b : Value} {span : Span} (L : BlockLoop b span) {p p' : L.Place}

/-- The task is the next call, as the state then was. -/
def Asks (p : L.Place) (e : Episode) (f : Value → L.Place ⊕ Value) : Prop :=
  ∃ args, L.next? p e.before = some (args, f) ∧ e.task = blockCall b args span

/-- The calls of rounds that all led to another one. -/
inductive Called : L.Place → List Episode → L.Place → Prop
  | nil {p : L.Place} : Called p [] p
  | cons {p p₁ p' : L.Place} {e : Episode} {es : List Episode} {f : Value → L.Place ⊕ Value}
      {a : Value} : L.Asks p e f → e.outcome = .ok a → f a = .inl p₁ → Called p₁ es p' →
      Called p (e :: es) p'

/-- What a loop can have come to: the beginning of a round, or the end of one in which it called the
block. Between the calls it changes nothing. -/
inductive Stage (p : L.Place) (s : State) : List Episode → Step Reply → Prop
  | begins {es : List Episode} {p' : L.Place} {s₁ : State} : L.Called p es p' →
      Along State.AsBefore s es s₁ → Stage p s es ((L.task p').work s₁)
  | ends {es : List Episode} {p' : L.Place} {e : Episode} {f : Value → L.Place ⊕ Value}
      {s₁ : State} : L.Called p es p' → L.Asks p' e f → Along State.AsBefore s (es ++ [e]) s₁ →
      Stage p s (es ++ [e])
        (.done (e.outcome.map fun a ↦ (f a).elim (.task ∘ L.task) .value) s₁)

variable {L} {s s' : State} {es : List Episode} {e : Episode} {y : Step Reply} {t : Task}
  {o : Outcome Value} {f : Value → L.Place ⊕ Value}

theorem Called.answered (h : L.Called p es p') : ∀ e ∈ es, ∃ v, e.outcome = .ok v := by
  induction h with
  | nil => exact List.forall_mem_nil _
  | cons _ ha _ _ ih => exact List.forall_mem_cons.mpr ⟨⟨_, ha⟩, ih⟩

theorem Called.blockCalls (h : L.Called p es p') :
    ∀ e ∈ es, ∃ args, e.task = blockCall b args span := by
  induction h with
  | nil => exact List.forall_mem_nil _
  | cons he _ _ _ ih => exact List.forall_mem_cons.mpr ⟨⟨_, he.choose_spec.2⟩, ih⟩

theorem Stage.after {a : Value} {p₁ : L.Place} {s₁ : State} (h : L.Stage p₁ s₁ es y)
    (he : L.Asks p e f) (ha : e.outcome = .ok a) (hf : f a = .inl p₁) (hs : s.AsBefore e.before)
    (hs₁ : e.after.AsBefore s₁) : L.Stage p s (e :: es) y := by
  cases h with
  | begins hcalled h => exact .begins (.cons he ha hf hcalled) ⟨hs, .of_earlier hs₁ h⟩
  | ends hcalled he' h => exact .ends (.cons he ha hf hcalled) he' ⟨hs, .of_earlier hs₁ h⟩

theorem round_comes (h : ((L.task p).work s).Comes es y) :
    es = [] ∧ y = (L.task p).work s ∨
      ∃ e f s₁, es = [e] ∧ L.Asks p e f ∧ s.AsBefore e.before ∧ e.after.AsBefore s₁ ∧
        y = .done (e.outcome.map fun a ↦ (f a).elim (.task ∘ L.task) .value) s₁ := by
  cases hnext : L.next? p s with
  | none =>
    obtain ⟨v, s', hwork, -⟩ := L.finished hnext
    rw [hwork] at h ⊢
    exact .inl h.of_done
  | some found =>
    obtain ⟨args, f⟩ := found
    obtain ⟨held, after, hwork⟩ := L.calls hnext
    rw [hwork] at h ⊢
    cases h with
    | here => exact .inl ⟨rfl, rfl⟩
    | wait hrun hrest =>
      obtain ⟨rfl, rfl⟩ := hrest.of_done
      exact .inr ⟨_, f, _, rfl, ⟨args, L.anyHeld.trans hnext, rfl⟩, ⟨held, rfl⟩, ⟨_, rfl⟩, rfl⟩

theorem work_ne_task (p : L.Place) (s s' : State) (t : Task) :
    (L.task p).work s ≠ .done (.ok (.task t)) s' := by
  intro h
  cases hnext : L.next? p s with
  | none =>
    obtain ⟨v, s', hwork, -⟩ := L.finished hnext
    cases hwork.symm.trans h
  | some found =>
    obtain ⟨_, _, hwork⟩ := L.calls hnext
    cases hwork.symm.trans h

/-- All that a loop does is to call the block, and to go on with what its answer leads to. -/
theorem stage (h : Task.Comes (L.task p) ((L.task p).work s) es t y) : L.Stage p s es y := by
  generalize ht : L.task p = t₀, hx : (L.task p).work s = x₀ at h
  induction h generalizing p s with
  | within h =>
    subst ht hx
    obtain ⟨rfl, rfl⟩ | ⟨e, f, s₁, rfl, he, hs, hs₁, rfl⟩ := round_comes h
    · exact .begins .nil (State.Lax.refl s)
    · exact .ends .nil he ⟨hs, hs₁⟩
  | round h _ ih =>
    subst ht hx
    obtain ⟨rfl, hy⟩ | ⟨e, f, s₁, rfl, he, hs, hs₁, hy⟩ := round_comes h.comes
    · exact absurd hy.symm (work_ne_task p s _ _)
    · cases ho : e.outcome with
      | error u =>
        rw [ho] at hy
        cases hy
      | ok a =>
        rw [ho] at hy
        cases hf : f a with
        | inr v =>
          simp only [Except.map, hf, Sum.elim_inr] at hy
          cases hy
        | inl p₁ =>
          simp only [Except.map, hf, Sum.elim_inl, Function.comp_apply] at hy
          cases hy
          exact (ih rfl rfl).after he ho hf hs hs₁

/-- How a loop ends: with a round that has no call, or else as the last call says. -/
inductive Ends (p : L.Place) (s : State) : List Episode → Outcome Value → State → Prop
  | finished {es : List Episode} {p' : L.Place} {s₁ s' : State} {v : Value} : L.Called p es p' →
      Along State.AsBefore s es s₁ → L.next? p' s₁ = none → s₁.Grows s' → Ends p s es (.ok v) s'
  | decided {es : List Episode} {p' : L.Place} {e : Episode} {f : Value → L.Place ⊕ Value}
      {s' : State} {a v : Value} : L.Called p es p' → L.Asks p' e f → e.outcome = .ok a →
      f a = .inr v → Along State.AsBefore s (es ++ [e]) s' → Ends p s (es ++ [e]) (.ok v) s'
  | unwound {es : List Episode} {p' : L.Place} {e : Episode} {f : Value → L.Place ⊕ Value}
      {s' : State} {u : Unwind} : L.Called p es p' → L.Asks p' e f → e.outcome = .error u →
      Along State.AsBefore s (es ++ [e]) s' → Ends p s (es ++ [e]) (.error u) s'

theorem ends (h : (L.task p).Course s es o s') : Ends p s es o s' := by
  obtain ⟨t, h⟩ := h
  generalize hy : Step.done (Outcome.reply o) s' = y at h
  -- Work that is over is at the beginning of a round without a call, or at the end of a round.
  cases stage h with
  | @begins _ p' s₁ hcalled halong =>
    cases hnext : L.next? p' s₁ with
    | some found =>
      obtain ⟨_, _, hwork⟩ := L.calls hnext
      cases hy.trans hwork
    | none =>
      obtain ⟨v, s₂, hwork, hgrows⟩ := L.finished hnext
      rw [hwork] at hy
      cases o with
      | error u => cases hy
      | ok v =>
        cases hy
        exact .finished hcalled halong hnext hgrows
  | @ends es' p' e f s₁ hcalled he halong =>
    cases ho : e.outcome with
    | error u =>
      rw [ho] at hy
      cases o with
      | ok v => cases hy
      | error u' =>
        cases hy
        exact .unwound hcalled he ho halong
    | ok a =>
      rw [ho] at hy
      cases hf : f a with
      | inl p₁ =>
        simp only [Except.map, hf, Sum.elim_inl, Function.comp_apply] at hy
        cases o <;> cases hy
      | inr v =>
        simp only [Except.map, hf, Sum.elim_inr] at hy
        cases o with
        | error u => cases hy
        | ok v =>
          cases hy
          exact .decided hcalled he ho hf halong

theorem Ends.letsPass (h : Ends p s es o s') : LetsPass es o := by
  cases h with
  | finished hcalled _ _ _ => exact hcalled.answered
  | decided hcalled _ ha _ _ =>
    refine List.forall_mem_append.mpr ⟨hcalled.answered, ?_⟩
    exact List.forall_mem_singleton.mpr ⟨_, ha⟩
  | unwound hcalled _ hu _ => exact ⟨_, _, rfl, hcalled.answered, hu⟩

theorem Ends.blockCalls (h : Ends p s es o s') :
    ∀ e ∈ es, ∃ args, e.task = blockCall b args span := by
  cases h with
  | finished hcalled _ _ _ => exact hcalled.blockCalls
  | decided hcalled he _ _ _ | unwound hcalled he _ _ =>
    obtain ⟨args, -, htask⟩ := he
    simp only [List.forall_mem_append, List.forall_mem_singleton]
    exact ⟨hcalled.blockCalls, args, htask⟩

end BlockLoop

theorem Visit.result_apply (v : Visit) (l : ListId) (s : State) :
    ∃ a s', v.result l s = .done (.ok a) s' ∧ s.Grows s' := by
  cases v with
  | map results => exact ⟨_, _, rfl, .newList s _⟩
  | filter keep kept => exact ⟨_, _, rfl, .newList s _⟩
  | _ => exact ⟨_, _, rfl, .refl s⟩

section

variable {v : Visit} {l : ListId} {b : Value} {span : Span} {i : Nat} {s : State}

theorem visit_work_over {s' : State} {a : Value} (hitem : (s.items l)[i]? = none)
    (hresult : v.result l s = .done (.ok a) s') (block : Option Value) :
    (Task.visit v l block span i).work s = .done (.ok (.value a)) s' := by
  change visitRound v l block span i s = _
  unfold visitRound
  rw [bind_apply]
  simp only [Eval.read, Step.bind, hitem]
  rw [bind_apply, hresult]
  rfl

theorem visit_work_calls {item : Value} (hitem : (s.items l)[i]? = some item) :
    (Task.visit v l (some b) span i).work s =
      .wait (blockCall b (v.args i item) span) { s with held := ⟨v.held item, none⟩ :: s.held }
        fun o s₁ ↦ .done (o.map fun a ↦ (v.step item a).elim
            (fun v' ↦ .task (.visit v' l (some b) span (i + 1))) .value)
          { s₁ with held := s.held } := by
  change visitRound v l (some b) span i s = _
  unfold visitRound
  rw [bind_apply]
  simp only [Eval.read, Step.bind, hitem, callValue_eq]
  refine congrArg (Step.wait _ _) (funext fun o ↦ funext fun s₁ ↦ ?_)
  cases o with
  | error u => rfl
  | ok a =>
    cases hstep : v.step item a with
    | inl v' =>
      simp only [Step.restoring, Step.bind, Except.map, hstep, Sum.elim_inl]
      rfl
    | inr r =>
      simp only [Step.restoring, Step.bind, Except.map, hstep, Sum.elim_inr]
      rfl

end

/-- A visit to the elements of a list, which is read anew for every element. -/
def visiting (l : ListId) (b : Value) (span : Span) : BlockLoop b span where
  Place := Visit × Nat
  task p := .visit p.1 l (some b) span p.2
  next? p s := (s.items l)[p.2]?.map fun item ↦
    (p.1.args p.2 item, fun a ↦ (p.1.step item a).map (·, p.2 + 1) id)
  anyHeld := rfl
  finished {p s} h := by
    obtain ⟨a, s', hresult, hgrows⟩ := p.1.result_apply l s
    exact ⟨a, s', visit_work_over (Option.map_eq_none_iff.mp h) hresult _, hgrows⟩
  calls {p s args f} h := by
    obtain ⟨item, hitem, hcall⟩ := Option.map_eq_some_iff.mp h
    cases hcall
    refine ⟨⟨p.1.held item, none⟩ :: s.held, fun _ ↦ s.held, ?_⟩
    simp only [Sum.elim_map]
    exact visit_work_calls hitem

/-- Calls with the numbers from one on, as long as some are left. -/
def counting (b : Value) (span : Span) : BlockLoop b span where
  Place := Nat × Nat
  task p := .times p.1 p.2 b span
  next? p _ := match p.1 with
    | 0 => none
    | left + 1 => some ([.int (Int64.ofNat p.2)], fun _ ↦ .inl (left, p.2 + 1))
  anyHeld := rfl
  finished {p s} h := by
    obtain ⟨_ | left, i⟩ := p
    · exact ⟨.nil, s, rfl, .refl s⟩
    · cases h
  calls {p s args f} h := by
    obtain ⟨_ | left, i⟩ := p
    · cases h
    · cases h
      refine ⟨s.held, (·.held), ?_⟩
      change timesRound (left + 1) i b span s = _
      unfold timesRound
      rw [callValue_eq]
      refine congrArg (Step.wait _ _) (funext fun o ↦ funext fun s₁ ↦ ?_)
      cases o <;> rfl

end Quill
