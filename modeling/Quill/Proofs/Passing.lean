import Quill.Proofs.Composition.Task
import Quill.Proofs.Reach

/-!
# Unwinds that pass by

Some unwinds are none of the business of some tasks: what these wait for may end in them, and then
they do so, too, at once. Such an unwind is traced from where it came up to where it ends
(`PassesBy.leaves`), and back (`PassesBy.comes_up`).
-/

namespace Quill

namespace Step

variable {α β : Type} {A : Task → Prop} {U : Unwind → Prop}

/-- Ends in no unwind of `U` by itself, and lets those pass that tasks of `A` end in. -/
def Passes (A : Task → Prop) (U : Unwind → Prop) : Step α → Prop
  | done o _ => ∀ u, o = .error u → ¬ U u
  | wait t _ resume =>
    (A t → ∀ u s, U u → ∃ s', resume (.error u) s = done (.error u) s') ∧
      ∀ o s, (A t → ∀ u, o = .error u → ¬ U u) → (resume o s).Passes A U

def Ends (Q : α → Prop) : Step α → Prop
  | done o _ => ∀ a, o = .ok a → Q a
  | wait _ _ resume => ∀ o s, (resume o s).Ends Q

theorem Ends.any (x : Step α) : x.Ends fun _ ↦ True := by
  induction x with
  | done o s => exact fun _ _ ↦ trivial
  | wait t s resume ih => exact fun o s' ↦ ih o s'

theorem Ends.bind_ends {P : α → Prop} {Q : β → Prop} {x : Step α} {f : α → State → Step β}
    (hP : x.Ends P) (hf : ∀ a s, P a → (f a s).Ends Q) : (x.bind f).Ends Q := by
  induction x with
  | done o s =>
    cases o with
    | ok a => exact hf a s (hP a rfl)
    | error u => exact fun b hb ↦ nomatch hb
  | wait t s resume ih => exact fun o s' ↦ ih o s' (hP o s')

theorem Ends.bind {Q : β → Prop} {f : α → State → Step β} (x : Step α)
    (hf : ∀ a s, (f a s).Ends Q) : (x.bind f).Ends Q :=
  (Ends.any x).bind_ends fun a s _ ↦ hf a s

theorem Awaits.passes {x : Step α} {f : Outcome α → State → Step β} (hx : x.Awaits fun t ↦ ¬ A t)
    (hf : ∀ o s, (f o s).Passes A U) : (x.attempt.bind f).Passes A U := by
  induction x with
  | done o s => exact hf o s
  | wait t s resume ih =>
    exact ⟨fun ht ↦ absurd ht hx.1, fun o s' _ ↦ ih o s' (hx.2 o s')⟩

theorem Ends.mono {P Q : α → Prop} {x : Step α} (h : x.Ends P) (hPQ : ∀ a, P a → Q a) :
    x.Ends Q := by
  induction x with
  | done o s => exact fun a ha ↦ hPQ a (h a ha)
  | wait t s resume ih => exact fun o s' ↦ ih o s' (h o s')

/-- Always ends in a text, or gives way to what finds the raw text of `v`, as it does after an
unwind that would pass. -/
def Hides (A : Task → Prop) (U : Unwind → Prop) (v : Value) : Step Reply → Prop
  | done o _ => (∃ text, o = .ok (.value (.str text))) ∨ o = .ok (.task (.rawText v))
  | wait t _ resume =>
    (A t → ∀ u s, U u → ∃ s', resume (.error u) s = done (.ok (.task (.rawText v))) s') ∧
      ∀ o s, (resume o s).Hides A U v

namespace Passes

theorem bind_ends {P : α → Prop} {x : Step α} {f : α → State → Step β} (hx : x.Passes A U)
    (hP : x.Ends P) (hf : ∀ a s, P a → (f a s).Passes A U) : (x.bind f).Passes A U := by
  induction x with
  | done o s =>
    cases o with
    | ok a => exact hf a s (hP a rfl)
    | error u =>
      intro u' h
      cases h
      exact hx u rfl
  | wait t s resume ih =>
    refine ⟨fun ht u s' hu ↦ ?_, fun o s' ho ↦ ih o s' (hx.2 o s' ho) (hP o s')⟩
    obtain ⟨s'', h⟩ := hx.1 ht u s' hu
    exact ⟨s'', congrArg (Step.bind · f) h⟩

theorem bind {x : Step α} {f : α → State → Step β} (hx : x.Passes A U)
    (hf : ∀ a s, (f a s).Passes A U) : (x.bind f).Passes A U :=
  hx.bind_ends (Ends.any x) fun a s _ ↦ hf a s

theorem restoring {x : Step α} (before : List Held) (hx : x.Passes A U) :
    (x.restoring before).Passes A U := by
  induction x with
  | done o s => exact hx
  | wait t s resume ih =>
    refine ⟨fun ht u s' hu ↦ ?_, fun o s' ho ↦ ih o s' (hx.2 o s' ho)⟩
    obtain ⟨s'', h⟩ := hx.1 ht u s' hu
    exact ⟨{ s'' with held := before }, congrArg (Step.restoring before) h⟩

theorem attempt_bind {x : Step α} {f : Outcome α → State → Step β} (hx : x.Passes A U)
    (hf : ∀ o s, (∀ u, o = .error u → ¬ U u) → (f o s).Passes A U)
    (hU : ∀ u s, U u → f (.error u) s = done (.error u) s) :
    (x.attempt.bind f).Passes A U := by
  induction x with
  | done o s => exact hf o s hx
  | wait t s resume ih =>
    refine ⟨fun ht u s' hu ↦ ?_, fun o s' ho ↦ ih o s' (hx.2 o s' ho)⟩
    obtain ⟨s'', h⟩ := hx.1 ht u s' hu
    exact ⟨s'', (congrArg (fun y ↦ y.attempt.bind f) h).trans (hU u s'' hu)⟩

theorem passed {t : Task} {s s₁ s₂ : State} {resume : Outcome Value → State → Step α}
    {o : Outcome Value} {u : Unwind} (hx : (wait t s resume).Passes A U) (hu : U u)
    (h : resume o s₁ = done (.error u) s₂) : A t ∧ o = .error u := by
  by_cases ho : A t ∧ ∃ u', o = .error u' ∧ U u'
  · obtain ⟨ht, u', rfl, hu'⟩ := ho
    obtain ⟨s₃, hs₃⟩ := hx.1 ht u' s₁ hu'
    cases h.symm.trans hs₃
    exact ⟨ht, rfl⟩
  · have none_passes := hx.2 o s₁ fun ht u' hu' hU ↦ ho ⟨ht, u', hu', hU⟩
    rw [h] at none_passes
    exact absurd hu (none_passes u rfl)

theorem hides {x : Step String} (hx : x.Passes A U) (v : Value) :
    (x.attempt.bind (Task.textOrRaw v)).Hides A U v := by
  induction x with
  | done o s =>
    cases o with
    | ok text => exact .inl ⟨text, rfl⟩
    | error u => exact .inr rfl
  | wait t s resume ih =>
    have raw (ht : A t) (u : Unwind) (s' : State) (hu : U u) :
        ∃ s'', (resume (.error u) s').attempt.bind (Task.textOrRaw v) =
          done (.ok (.task (.rawText v))) s'' := by
      obtain ⟨s'', h⟩ := hx.1 ht u s' hu
      exact ⟨s'', congrArg (fun y ↦ y.attempt.bind (Task.textOrRaw v)) h⟩
    refine ⟨raw, fun o s' ↦ ?_⟩
    by_cases ho : A t ∧ ∃ u, o = .error u ∧ U u
    · obtain ⟨ht, u, rfl, hu⟩ := ho
      obtain ⟨s'', h⟩ := raw ht u s' hu
      change Hides A U v ((resume _ s').attempt.bind (Task.textOrRaw v))
      rw [h]
      exact .inr rfl
    · exact ih o s' (hx.2 o s' fun ht u hu hU ↦ ho ⟨ht, u, hu, hU⟩)

end Passes

end Step

namespace Eval

variable {α β : Type} {P : Task → Prop}

theorem ends_reading {Q : β → Prop} {f : State → α} {g : α → Eval β} {s : State}
    (h : (g (f s) s).Ends Q) : ((Eval.read f >>= g) s).Ends Q := h

/-- If a task gives way, the next one is as `P` says. -/
def Leads (P : Task → Prop) (x : Eval Reply) : Prop :=
  ∀ s, (x s).Ends fun r ↦ ∀ t, r = .task t → P t

theorem Leads.bind {x : Eval α} {f : α → Eval Reply} (hf : ∀ a, Leads P (f a)) :
    Leads P (x >>= f) := by
  intro s
  rw [bind_apply]
  exact .bind (x s) hf

theorem Leads.value (v : Value) : Leads P (pure (.value v)) := by
  rintro s r hr t ⟨⟩
  cases hr

theorem Leads.task {t : Task} (h : P t) : Leads P (pure (.task t)) := by
  rintro s r hr t' ⟨⟩
  cases hr
  exact h

theorem Leads.answering (x : Eval Value) : Leads P (answering x) := .bind fun v ↦ .value v

theorem Leads.afterRound (o : Outcome Value) {again : Task} (h : P again) :
    Leads P (afterRound o again) := by
  rcases o with (_ | _ | _ | _ | _ | _) | _
  case error.break_ v => exact .value v
  case error.next v => exact .task h
  case ok v => exact .task h
  all_goals exact fun s r hr ↦ nomatch hr

end Eval

namespace Task

open Eval

/-- The rounds that a task may give way to, from a state on. Finding a text goes round with the raw
text. -/
inductive NextRound (s : State) : Task → Task → Prop
  | describe (v : Value) : NextRound s (describe v) (rawText v)
  | rawText (v : Value) : NextRound s (rawText v) (rawText v)
  | loop (condition : Expr) (es : List Expr) (ctx : Context) :
      NextRound s (loop condition es ctx) (loop condition es ctx)
  | forEach {p : Pattern} {es : List Expr} {ctx : Context} {span : Span} {list : ListId}
      {index : Nat} : index < (s.items list).size →
      NextRound s (forEach p es ctx span list index) (forEach p es ctx span list (index + 1))
  | visit {v v' : Visit} {list : ListId} {block : Option Value} {span : Span} {index : Nat} :
      index < (s.items list).size →
      NextRound s (visit v list block span index) (visit v' list block span (index + 1))
  | times (left index : Nat) (block : Value) (span : Span) :
      NextRound s (times (left + 1) index block span) (times left (index + 1) block span)

theorem work_leads_on (t : Task) (s : State) :
    (t.work s).Ends fun r ↦ ∀ t', r = .task t' → t.NextRound s t' := by
  cases t with
  | describe v =>
    have h : Leads (NextRound s (.describe v)) (Eval.describe v) := by
      refine .bind fun o ↦ ?_
      cases o with
      | ok text => exact .value _
      | error u => exact .task (.describe v)
    exact h s
  | rawText v =>
    have h : Leads (NextRound s (.rawText v)) (Eval.rawText v) := by
      refine .bind fun text ↦ ?_
      cases text with
      | some text => exact .value _
      | none => exact .task (.rawText v)
    exact h s
  | loop condition es ctx =>
    have h : Leads (NextRound s (loop condition es ctx)) (loopRound condition es ctx) := by
      refine .bind fun v ↦ ?_
      split
      · exact .bind fun o ↦ .afterRound o (.loop condition es ctx)
      · exact .value _
    exact h s
  | forEach p es ctx span list index =>
    refine ends_reading ?_
    cases hitem : (s.items list)[index]? with
    | some item =>
      have hlt := (Array.getElem?_eq_some_iff.mp hitem).1
      exact Leads.bind (fun _ ↦ .bind fun o ↦ .afterRound o (NextRound.forEach hlt)) s
    | none => exact Leads.value _ s
  | visit v list block span index =>
    refine ends_reading ?_
    cases hitem : (s.items list)[index]? with
    | none => exact Leads.bind (fun _ ↦ .value _) s
    | some item =>
      have hlt := (Array.getElem?_eq_some_iff.mp hitem).1
      -- With or without a block, what comes of the answer is another round or a value.
      cases block
      all_goals
        refine Leads.bind (fun answer ↦ ?_) s
        dsimp only
        cases v.step item answer with
        | inl v => exact .task (.visit hlt)
        | inr result => exact .value result
  | times left index block span =>
    cases left with
    | zero => exact Leads.value _ s
    | succ left => exact Leads.bind (fun _ ↦ .task (.times left index block span)) s
  | _ => exact Leads.answering _ s

/-- What does not change when a task gives way to another, as a task of its own. -/
def family : Task → Task
  | forEach p es ctx span list _ => forEach p es ctx span list 0
  | visit _ list block span _ => visit .each list block span 0
  | times _ _ block span => times 0 0 block span
  | rawText v => describe v
  | t => t

theorem NextRound.family {s : State} {t t' : Task} (h : t.NextRound s t') :
    t'.family = t.family := by
  cases h <;> rfl

theorem work_leads_family (t : Task) : Leads (fun t' ↦ t'.family = t.family) t.work :=
  fun s ↦ (t.work_leads_on s).mono fun _ h t' hr ↦ (h t' hr).family

def shape (t : Task) : Kind × Bool × Bool := (t.kind, t.isGuard, t.describes)

theorem shape_family (t : Task) : t.family.shape = t.shape := by cases t <;> rfl

theorem work_leads (t : Task) : Leads (fun t' ↦ t'.shape = t.shape) t.work := by
  intro s
  refine (t.work_leads_family s).mono fun r h t' hr ↦ ?_
  have hfamily : t'.family = t.family := h t' hr
  exact t'.shape_family.symm.trans (hfamily ▸ t.shape_family)

end Task

/-- Unwinds in `U`, that tasks in `A` may end in, pass by the tasks in `O`. -/
structure PassesBy (A O : Task → Prop) (U : Unwind → Prop) : Prop where
  work {t : Task} (s : State) : O t →
    (t.work s).Passes A U ∨ ∃ u s', U u ∧ t.work s = .done (.error u) s'
  ends {t : Task} : O t → A t
  shape {t t' : Task} : t'.shape = t.shape → (A t' ↔ A t)

namespace Machine

variable {t : Task} {s : State} {m m' : Machine} {u : Unwind} {A O : Task → Prop}
  {U : Unwind → Prop}

def Unwinds (m : Machine) (u : Unwind) : Prop := ∃ s, m.work = .done (.error u) s

theorem Unwinds.next (hm : m.Unwinds u) (hw : m.waiting = []) :
    ∃ s', m.next = .inr (.error u, s') := by
  obtain ⟨t', x, ps⟩ := m
  obtain ⟨s', hx⟩ := hm
  subst hw hx
  exact ⟨s', rfl⟩

/-- A task that is just started, in the run of `m₀`. -/
inductive Begins (m₀ : Machine) : Machine → Prop
  | start {t : Task} {s : State} : m₀ = start t s → Begins m₀ m₀
  | next {m m' : Machine} {s : State} : m₀.Reaches m → m.next = .inl m' →
      m.starts = some (m'.task, s) → m'.work = m'.task.work s →
      m'.waitingTasks = m.inProgress → Begins m₀ m'

/-- The work of the machine lets the unwinds pass, if its task does. -/
structure LetsPass (A O : Task → Prop) (U : Unwind → Prop) (m : Machine) : Prop where
  passes : O m.task → m.work.Passes A U ∨ ∃ u, U u ∧ m.Unwinds u
  leads : m.work.Ends fun r ↦ ∀ t, r = .task t → t.shape = m.task.shape

end Machine

namespace PassesBy

open Machine

variable {t : Task} {s : State} {m m' : Machine} {u : Unwind} {A O : Task → Prop}
  {U : Unwind → Prop} {p : Pending} {ps inner outer : List Pending}

theorem letsPass_work (hp : PassesBy A O U) (t : Task) (s : State) (ps : List Pending) :
    LetsPass A O U ⟨t, t.work s, ps⟩ where
  passes hO := by
    obtain hx | ⟨u, s', hu, hx⟩ := hp.work s hO
    · exact .inl hx
    · exact .inr ⟨u, hu, s', hx⟩
  leads := t.work_leads s

theorem kept (hp : PassesBy A O U) : Kept Task.shape (LetsPass A O U) where
  starts _ := hp.letsPass_work _ _ _
  resumes {t t' t'' s s' resume ps o} h _ _ := by
    refine ⟨fun hO ↦ ?_, h.leads o s'⟩
    obtain hx | ⟨u, -, s₁, hx⟩ := h.passes hO
    · by_cases ho : A t' ∧ ∃ u, o = .error u ∧ U u
      · obtain ⟨hA, u, rfl, hu⟩ := ho
        exact .inr ⟨u, hu, hx.1 hA u s' hu⟩
      · exact .inl (hx.2 o s' fun hA u hu hU ↦ ho ⟨hA, u, hu, hU⟩)
    · cases hx
  givesWay h := ⟨hp.letsPass_work _ _ _, h.leads _ rfl _ rfl⟩

theorem awaited (hp : PassesBy A O U) (h : (start t s).Reaches m) (hw : m.waiting = p :: ps)
    (hO : O p.task) : ∃ t' s', (Step.wait t' s' p.resume).Passes A U ∧ (A m.task ↔ A t') := by
  obtain ⟨t', s', hlets, hshape⟩ := hp.kept.awaited (hp.letsPass_work t s []) h hw
  obtain hx | ⟨u, -, s₁, hx⟩ := hlets.passes hO
  · exact ⟨t', s', hx, hp.shape hshape⟩
  · cases hx

theorem next (hp : PassesBy A O U) (h : (start t s).Reaches m) (hm : m.Unwinds u) (hu : U u)
    (hA : A m.task) (hw : m.waiting = p :: ps) (hO : O p.task) :
    ∃ s', m.next = .inl ⟨p.task, .done (.error u) s', ps⟩ := by
  obtain ⟨s₁, hx⟩ := hm
  obtain ⟨t', s', hpasses, hiff⟩ := hp.awaited h hw hO
  obtain ⟨s₂, hs₂⟩ := hpasses.1 (hiff.mp hA) u s₁ hu
  refine ⟨s₂, ?_⟩
  rw [← hs₂]
  obtain ⟨t₁, x, qs⟩ := m
  subst hw hx
  rfl

theorem leaves (hp : PassesBy A O U) (h : (start t s).Reaches m) (hm : m.Unwinds u) (hu : U u)
    (hA : A m.task) (hw : m.waiting = inner ++ outer) (hO : ∀ t' ∈ inner.map (·.task), O t') :
    ∃ m', m.Reaches m' ∧ m'.Unwinds u ∧ m'.waiting = outer := by
  induction inner generalizing m with
  | nil => exact ⟨m, .refl, hm, hw⟩
  | cons p inner ih =>
    obtain ⟨hp_open, hrest⟩ := List.forall_mem_cons.mp hO
    obtain ⟨s₁, hn⟩ := hp.next h hm hu hA hw hp_open
    obtain ⟨m', hr, hm', hw'⟩ := ih (h.tail hn) ⟨s₁, rfl⟩ (hp.ends hp_open) rfl hrest
    exact ⟨m', hr.head hn, hm', hw'⟩

theorem ends_run (hp : PassesBy A O U) (h : (start t s).Reaches m) (hm : m.Unwinds u) (hu : U u)
    (hA : A m.task) (hO : ∀ t' ∈ m.waitingTasks, O t') :
    ∃ n s', (start t s).run n = some (.error u, s') := by
  have hw : m.waiting = m.waiting ++ [] := (List.append_nil _).symm
  obtain ⟨m', hr, hm', hend⟩ := hp.leaves h hm hu hA hw hO
  obtain ⟨s', he⟩ := hm'.next hend
  obtain ⟨n, hn⟩ := run_iff.mpr ⟨m', h.trans hr, he⟩
  exact ⟨n, s', hn⟩

theorem stays (hp : PassesBy A O U) (h : (start t s).Reaches m) (hm : m.Unwinds u) (hu : U u)
    (hA : A m.task) (hO : ∀ t' ∈ m.waitingTasks, O t') (h' : m.Reaches m') : m'.Unwinds u := by
  suffices m'.Unwinds u ∧ A m'.task ∧ ∀ t' ∈ m'.waitingTasks, O t' from this.1
  induction h' with
  | refl => exact ⟨hm, hA, hO⟩
  | @tail m₁ m₂ hr hn ih =>
    obtain ⟨hm₁, hA₁, hO₁⟩ := ih
    cases hw : m₁.waiting with
    | nil =>
      obtain ⟨s₁, hs₁⟩ := hm₁.next hw
      cases hn.symm.trans hs₁
    | cons p ps =>
      rw [waitingTasks, hw] at hO₁
      obtain ⟨hp_open, hrest⟩ := List.forall_mem_cons.mp hO₁
      have reached : (start t s).Reaches m₁ := h.trans hr
      obtain ⟨s₁, hs₁⟩ := hp.next reached hm₁ hu hA₁ hw hp_open
      cases hn.symm.trans hs₁
      exact ⟨⟨s₁, rfl⟩, hp.ends hp_open, hrest⟩

theorem comes_up (hp : PassesBy A O U) (h : (start t s).Reaches m) (hm : m.Unwinds u) (hu : U u)
    (hO : O m.task) :
    ∃ m' ts, (start t s).Reaches m' ∧ m'.Reaches m ∧ m'.Unwinds u ∧
      m'.waitingTasks = ts ++ m.waitingTasks ∧ (∀ t' ∈ ts, O t') ∧
      (Begins (start t s) m' ∧ O m'.task ∨ A m'.task ∧ ¬ O m'.task) := by
  induction h with
  | refl => exact ⟨_, [], .refl, .refl, hm, rfl, nofun, .inl ⟨.start rfl, hO⟩⟩
  | @tail m₁ m₂ hr hn ih =>
    have reached : (start t s).Reaches m₂ := hr.tail hn
    obtain ⟨t', s', resume, hx, rfl⟩ | ⟨t', s', hx, rfl⟩ | ⟨o, s', p, ps, hx, hw, rfl⟩ :=
      next_cases hn
    · refine ⟨_, [], reached, .refl, hm, rfl, nofun, .inl ⟨.next hr hn ?_ rfl ?_, hO⟩⟩
      · rw [starts, hx]
      · rw [inProgress, hx]
        rfl
    · refine ⟨_, [], reached, .refl, hm, rfl, nofun, .inl ⟨.next hr hn ?_ rfl ?_, hO⟩⟩
      · rw [starts, hx]
      · rw [inProgress, hx]
        rfl
    · -- `p` does not end in the unwind by itself, so what it waited for did.
      obtain ⟨t', s₁, hpasses, hiff⟩ := hp.awaited hr hw hO
      obtain ⟨s₂, hs₂⟩ := hm
      obtain ⟨hA, rfl⟩ := hpasses.passed hu hs₂
      have hw₁ : m₁.waitingTasks = p.task :: ps.map (·.task) := congrArg _ hw
      by_cases hO₁ : O m₁.task
      · obtain ⟨m', ts, hr', hto, hm', hts, hopen, hcase⟩ := ih ⟨s', hx⟩ hO₁
        refine ⟨m', ts ++ [p.task], hr', hto.tail hn, hm', ?_, ?_, hcase⟩
        · rw [hts, hw₁, List.append_assoc]
          rfl
        · intro t₁ ht₁
          obtain ht₁ | ht₁ := List.mem_append.mp ht₁
          · exact hopen t₁ ht₁
          · rw [List.mem_singleton.mp ht₁]
            exact hO
      · refine ⟨m₁, [p.task], hr, .single hn, ⟨s', hx⟩, hw₁, ?_, .inr ⟨hiff.mpr hA, hO₁⟩⟩
        intro t₁ ht₁
        rw [List.mem_singleton.mp ht₁]
        exact hO

end PassesBy

end Quill
