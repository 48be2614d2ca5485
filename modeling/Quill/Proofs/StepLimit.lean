import Mathlib.Data.List.Forall2
import Quill.Proofs.Evolution
import Quill.Proofs.Limits
import Quill.Proofs.Mirror

/-!
# Other step limits

Steps are only ever counted up, and their limit matters to nothing but the count. So a program that
ends within its limit ends in the same way within any greater one, and without a limit.
-/

namespace Quill

namespace State

/-- The same settings, and no fewer steps. -/
structure Later (s s' : State) : Prop where
  config : s'.config = s.config
  steps : s.steps ≤ s'.steps

theorem Later.trans {s s' s'' : State} (h : Later s s') (h' : Later s' s'') : Later s s'' :=
  ⟨h'.config.trans h.config, Nat.le_trans h.steps h'.steps⟩

theorem SameControl.later {s s' : State} (h : SameControl s s') : Later s s' :=
  ⟨h.config, Nat.le_of_eq h.steps.symm⟩

theorem later_stable : Stable Later where
  refl _ := ⟨rfl, Nat.le_refl _⟩
  trans := .trans
  change hf s := (hf.sameControl s).later
  held _ _ := ⟨rfl, Nat.le_refl _⟩

theorem later_enduring : Enduring Later where
  toStable := later_stable
  counted _ := ⟨rfl, Nat.le_succ _⟩
  framed _ _ := ⟨rfl, Nat.le_refl _⟩
  rescued _ _ := ⟨rfl, Nat.le_refl _⟩

end State

open State

namespace Task

variable {t : Task} {s : State} {n : Nat}

theorem eval_later (e : Expr) (ctx : Context) (s : State) :
    ((eval e ctx).work s).Evolves Later { s with steps := s.steps + 1 } := by
  rw [work_eval]
  obtain h | ⟨l, -, -, h⟩ := Eval.tick_cases s
  · rw [h]
    exact (Eval.Composed.answering (.expression e ctx)).evolves later_stable _
  · rw [h]
    exact later_stable.refl _

theorem work_later (t : Task) (s : State) : (t.work s).Evolves Later s :=
  t.work_evolves later_enduring s

theorem hit_steps (h : t.hit s = some (.steps n)) :
    s.config.stepLimit = some n ∧ n < s.steps + 1 ∧ ∃ e ctx, t = eval e ctx := by
  cases t with
  | eval e ctx =>
    unfold hit at h
    obtain ht | ⟨l, hl, hs, ht⟩ := Eval.tick_cases s
    · simp only [ht] at h
      cases h
    · simp only [ht] at h
      cases h
      exact ⟨hl, hs, e, ctx, rfl⟩
  | framed frame t =>
    unfold hit Eval.pushFrame at h
    dsimp only at h
    split at h
    · rename_i hx
      split at hx <;> cases hx
      cases h
    · cases h
  | _ => cases h

end Task

namespace Machine

variable {t : Task} {s s' : State} {m m' : Machine} {o : Outcome Value} {n : Nat}

theorem Reaches.later (h : (start t s).Reaches m) (h' : m.Reaches m') :
    Later m.work.state m'.work.state := h.evolves later_enduring h'

theorem Reaches.run_later (h : (start t s).Reaches m) (hrun : m.run n = some (o, s')) :
    Later m.work.state s' := by
  obtain ⟨m', hr, he⟩ := run_iff.mp ⟨n, hrun⟩
  have later := h.later hr
  rw [(next_inr he).1] at later
  exact later

end Machine

theorem State.later_spans : Spans Later := later_enduring.spans

namespace Eval

theorem tick_of_le {s : State} (h : ∀ n, s.config.stepLimit = some n → s.steps + 1 ≤ n) :
    tick s = .done (.ok ()) { s with steps := s.steps + 1 } := by
  obtain ht | ⟨n, hn, hs, -⟩ := tick_cases s
  · exact ht
  · have := h n hn
    omega

end Eval

/-- Allows as many steps as `n` or more. -/
def AtLeast (l : Option Nat) (n : Nat) : Prop := ∀ n', l = some n' → n ≤ n'

namespace Task

theorem work_mirrors_within {t : Task} {s : State} {n : Nat} {l : Option Nat}
    (hs : s.config.stepLimit = some n) (hn : (t.work s).state.steps ≤ n) (hl : AtLeast l n) :
    (t.work s).Mirrors l (t.work (s.withStepLimit l)) := by
  refine work_mirrors fun e ctx ht ↦ ?_
  subst ht
  have counted : s.steps + 1 ≤ n := Nat.le_trans (eval_later e ctx s).state.steps hn
  refine ⟨Eval.tick_of_le fun n' hn' ↦ ?_, Eval.tick_of_le fun n' hn' ↦ ?_⟩
  · cases hs.symm.trans hn'
    exact counted
  · exact Nat.le_trans counted (hl n' hn')

end Task

namespace Machine

variable {t : Task} {s s' : State} {m m' m₁ : Machine} {o : Outcome Value} {l : Option Nat}
  {k n : Nat}

/-- The other machine does the same with the step limit `l`. -/
structure Mirrors (l : Option Nat) (m m' : Machine) : Prop where
  task : m'.task = m.task
  work : m.work.Mirrors l m'.work
  waiting : List.Forall₂ (fun p p' ↦ p'.task = p.task ∧
    ∀ o s, (p.resume o s).Mirrors l (p'.resume o (s.withStepLimit l))) m.waiting m'.waiting

theorem Mirrors.next (h : m.Mirrors l m') (hn : m.next = .inl m₁)
    (hstart : ∀ t s, m.starts = some (t, s) →
      (t.work s).Mirrors l (t.work (s.withStepLimit l))) :
    ∃ m₁', m'.next = .inl m₁' ∧ m₁.Mirrors l m₁' := by
  obtain ⟨t, x, ps⟩ := m
  obtain ⟨t', y, ps'⟩ := m'
  obtain ⟨rfl, hwork, hwaiting⟩ := h
  obtain ⟨t₁, s₁, resume, rfl, rfl⟩ | ⟨t₁, s₁, rfl, rfl⟩ | ⟨o, s₁, p, qs, rfl, rfl, rfl⟩ :=
    next_cases hn
  · obtain ⟨resume', rfl, hresume⟩ := hwork
    exact ⟨_, rfl, rfl, hstart t₁ s₁ rfl, .cons ⟨rfl, hresume⟩ hwaiting⟩
  · cases hwork
    exact ⟨_, rfl, rfl, hstart t₁ s₁ rfl, hwaiting⟩
  · cases hwork
    cases hwaiting with
    | @cons _ p' _ qs' hp hqs =>
      have hnext : Machine.next ⟨t', .done o.reply (s₁.withStepLimit l), p' :: qs'⟩ =
          .inl ⟨p'.task, p'.resume o (s₁.withStepLimit l), qs'⟩ := by
        cases o <;> rfl
      exact ⟨_, hnext, hp.1, hp.2 o s₁, hqs⟩

theorem Mirrors.next_inr (h : m.Mirrors l m') (hn : m.next = .inr (o, s)) :
    m'.next = .inr (o, s.withStepLimit l) := by
  obtain ⟨hx, hps⟩ := Machine.next_inr hn
  obtain ⟨t, x, ps⟩ := m
  obtain ⟨t', y, ps'⟩ := m'
  obtain ⟨-, hwork, hwaiting⟩ := h
  subst hx hps
  cases hwork
  cases hwaiting
  cases o <;> rfl

theorem Mirrors.run (h : m.Mirrors l m') (hr : (start t s).Reaches m)
    (hs : s.config.stepLimit = some n) (hl : AtLeast l n) (hrun : m.run k = some (o, s'))
    (hsteps : s'.steps ≤ n) : m'.run k = some (o, s'.withStepLimit l) := by
  induction k generalizing m m' with
  | zero => cases hrun
  | succ k ih =>
    unfold Machine.run at hrun ⊢
    split at hrun
    · rename_i m₁ hn
      have hr₁ : (start t s).Reaches m₁ := hr.tail hn
      -- Steps are only counted up, so the limit is kept all along if it is in the end.
      have later := hr₁.run_later hrun
      have first : Later s m.work.state :=
        (t.work_later s).state.trans (Reaches.later .refl hr)
      have mirrored (t₁ : Task) (s₁ : State) (hstarts : m.starts = some (t₁, s₁)) :
          (t₁.work s₁).Mirrors l (t₁.work (s₁.withStepLimit l)) := by
        obtain ⟨ps, hnext, -⟩ := next_of_starts hstarts
        cases hn.symm.trans hnext
        rw [state_of_starts hstarts] at first
        exact Task.work_mirrors_within ((congrArg _ first.config).trans hs)
          (Nat.le_trans later.steps hsteps) hl
      obtain ⟨m₁', hn', h₁⟩ := h.next hn mirrored
      rw [hn']
      exact ih h₁ hr₁ hrun
    · rename_i r hn
      cases hrun
      rw [h.next_inr hn]

theorem run_mirrors (hs : s.config.stepLimit = some n) (hl : AtLeast l n)
    (hrun : (start t s).run k = some (o, s')) (hsteps : s'.steps ≤ n) :
    (start t (s.withStepLimit l)).run k = some (o, s'.withStepLimit l) := by
  have later : Later (t.work s).state s' := Reaches.run_later .refl hrun
  have work := Task.work_mirrors_within hs (Nat.le_trans later.steps hsteps) hl
  have starts : (start t s).Mirrors l (start t (s.withStepLimit l)) := ⟨rfl, work, .nil⟩
  exact starts.run .refl hs hl hrun hsteps

end Machine

theorem Step.Mirrors.finish {α : Type} {x y : Step α} {s s' : State} {o : Outcome α}
    {l : Option Nat} {fuel k n : Nat} (h : x.Mirrors l y) (hx : x.Evolves Later s)
    (hs : s.config.stepLimit = some n) (hl : AtLeast l n)
    (hfinish : x.finish fuel k = some (o, s')) (hsteps : s'.steps ≤ n) :
    y.finish fuel k = some (o, s'.withStepLimit l) := by
  induction x generalizing y s k with
  | done o' s₁ =>
    cases h
    cases k <;> cases hfinish <;> rfl
  | wait t s₁ resume ih =>
    obtain ⟨resume', rfl, hresume⟩ := h
    cases k with
    | zero => cases hfinish
    | succ k =>
      obtain ⟨⟨o₂, s₂⟩, hrun, hrest⟩ := Option.bind_eq_some_iff.mp hfinish
      have hs₁ : s₁.config.stepLimit = some n := (congrArg _ hx.1.config).trans hs
      -- Steps are only counted up, so what is waited for keeps within the limit, too.
      have rest : Later s₂ s' := (hx.2 o₂ s₂).finish later_stable later_spans hrest
      have hs₂ : s₂.config.stepLimit = some n :=
        (congrArg _ (later_spans _ _ _ _ _ hrun).config).trans hs₁
      have hrun' := Machine.run_mirrors hs₁ hl hrun (Nat.le_trans rest.steps hsteps)
      refine Option.bind_eq_some_iff.mpr ⟨_, hrun', ?_⟩
      exact ih o₂ s₂ (hresume o₂ s₂) (hx.2 o₂ s₂) hs₂ hrest

theorem Eval.Composed.run_mirrors {α : Type} {k : Kind} {x : Eval α} {s s' : State}
    {o : Outcome α} {l : Option Nat} {fuel n : Nat} (hx : Composed k x)
    (hs : s.config.stepLimit = some n) (hl : AtLeast l n) (hrun : x.run fuel s = some (o, s'))
    (hsteps : s'.steps ≤ n) : x.run fuel (s.withStepLimit l) = some (o, s'.withStepLimit l) :=
  (hx.mirrors l s).finish (hx.evolves later_stable s) hs hl hrun hsteps

namespace Interpreter

def withStepLimit (i : Interpreter) (l : Option Nat) : Interpreter := ⟨i.state.withStepLimit l⟩

variable {i j : Interpreter} {l : Option Nat} {fuel n : Nat}

theorem textBy_mirrors {shown : Value → Eval String} {k : Kind}
    (hshown : ∀ v, Eval.Composed k (shown v)) (hi : i.state.config.stepLimit = some n)
    (hl : AtLeast l n) {v : Value} {text : String} (h : i.textBy shown v fuel = some (text, j))
    (hsteps : j.steps ≤ n) :
    (i.withStepLimit l).textBy shown v fuel = some (text, j.withStepLimit l) := by
  obtain ⟨o, hperform, hend⟩ := textBy_eq_some.mp h
  obtain ⟨⟨o', s'⟩, hrun, heq⟩ := Option.map_eq_some_iff.mp hperform
  cases heq
  have hrun' := (hshown v).run_mirrors hi hl hrun hsteps
  have raw : (s'.withStepLimit l).rawText? v = s'.rawText? v := State.rawText?_limitFree v s' l
  refine textBy_eq_some.mpr ⟨o, Option.map_eq_some_iff.mpr ⟨_, hrun', rfl⟩, ?_⟩
  exact hend.imp_right fun ⟨hu, htext⟩ ↦ ⟨hu, raw.trans htext⟩

theorem uncaughtText_mirrors (hi : i.state.config.stepLimit = some n) (hl : AtLeast l n)
    {v : Value} {text : String} (h : i.uncaughtText v fuel = some (text, j))
    (hsteps : j.steps ≤ n) :
    (i.withStepLimit l).uncaughtText v fuel = some (text, j.withStepLimit l) := by
  have herror : (i.withStepLimit l).state.isInstance v CoreType.error.id =
    i.state.isInstance v CoreType.error.id := State.isInstance_limitFree v _ i.state l
  have hattr : (i.withStepLimit l).state.attr v "message" = i.state.attr v "message" :=
    State.attr_limitFree v _ i.state l
  have htype : (i.withStepLimit l).state.typeName v = i.state.typeName v :=
    State.typeName_limitFree v i.state l
  unfold uncaughtText at h ⊢
  rw [herror, hattr, htype]
  by_cases hc : (v.object?.isSome && i.state.isInstance v CoreType.error.id) = true
  · rw [if_pos hc] at h ⊢
    cases hm : i.state.attr v "message" with
    | nil =>
      rw [hm] at h
      cases h
      rfl
    | _ =>
      rw [hm] at h
      exact textBy_mirrors (k := .closed) (fun w ↦ .holding [v] (.display w)) hi hl h hsteps
  · rw [if_neg hc] at h ⊢
    exact textBy_mirrors (k := .closed) .inspect hi hl h hsteps

theorem result_mirrors (hi : i.state.config.stepLimit = some n) (hl : AtLeast l n)
    {o : Outcome Value} {span : Span} {r : Result} (h : i.result o span fuel = some (r, j))
    (hsteps : j.steps ≤ n) :
    (i.withStepLimit l).result o span fuel = some (r, j.withStepLimit l) := by
  unfold result at h ⊢
  split at h
  case h_3 raised =>
    obtain ⟨⟨text, i₁⟩, htext, hres⟩ := Option.bind_eq_some_iff.mp h
    cases hres
    have htype := State.typeName_limitFree raised.value j.state l
    dsimp only at htype
    refine Option.bind_eq_some_iff.mpr ⟨_, uncaughtText_mirrors hi hl htext hsteps, ?_⟩
    change some (Except.error (RunError.uncaught ((j.state.withStepLimit l).typeName _) _ _ _), _)
      = _
    rw [htype]
  all_goals
    cases h
    rfl

theorem run_mirrors (hi : i.state.config.stepLimit = some n) (hl : AtLeast l n) {p : Program}
    {r : Result} (h : i.run p fuel = some (r, j)) (hsteps : j.steps ≤ n) :
    (i.withStepLimit l).run p fuel = some (r, j.withStepLimit l) := by
  obtain ⟨o, s, j', hrun, hres, rfl⟩ := run_eq_some.mp h
  have rest : Later s j'.state := result_spans later_stable later_spans hres
  have hs : s.config.stepLimit = some n :=
    (congrArg _ (later_spans _ _ _ _ _ hrun).config).trans hi
  have hi' : i.rested.state.config.stepLimit = some n := hi
  have hrun' := Machine.run_mirrors hi' hl hrun (Nat.le_trans rest.steps hsteps)
  exact run_eq_some.mpr ⟨o, _, _, hrun', result_mirrors hs hl hres hsteps, rfl⟩

end Interpreter

namespace Machine

variable {t : Task} {s s' : State} {k n : Nat}

theorem steps_exceeded (ht : t.hit s = none)
    (h : (start t s).run k = some (.error (.halt (.steps n)), s')) :
    s.config.stepLimit = some n ∧ n < s'.steps := by
  obtain ⟨m, hr, he⟩ := run_iff.mp ⟨k, h⟩
  obtain ⟨hx, hw⟩ := next_inr he
  obtain ⟨m₁, m₂, ts, hr₁, hhit, hn, hto, -⟩ := hr.hit_before ht ⟨s', hx⟩
  obtain ⟨⟨t₁, s₁⟩, hstarts, hhit₁⟩ := Option.bind_eq_some_iff.mp hhit
  obtain ⟨hlimit, hexceeded, e, ctx, rfl⟩ := Task.hit_steps hhit₁
  obtain ⟨ps, hn', -⟩ := next_of_starts hstarts
  cases hn.symm.trans hn'
  have before : Later s s₁ := by
    have later : Later s m₁.work.state := (t.work_later s).state.trans (Reaches.later .refl hr₁)
    rwa [state_of_starts hstarts] at later
  have counted := (Task.eval_later e ctx s₁).state.steps
  have after : Later ((Task.eval e ctx).work s₁).state m.work.state :=
    Reaches.later (hr₁.tail hn) hto
  rw [hx] at after
  have hsteps : s₁.steps + 1 ≤ s'.steps := Nat.le_trans counted after.steps
  exact ⟨(congrArg _ before.config).symm.trans hlimit, by omega⟩

end Machine

/-- A program that ends within its step limit ends in the same way, and leaves the same behind,
within any other limit that is no less, and without one. If it ends with the error that the limit
was hit, there were more steps. -/
theorem step_limit_transparent :
    (∀ (i j : Interpreter) (p : Program) (fuel n : Nat) (r : Result) (l : Option Nat),
      i.state.config.stepLimit = some n → AtLeast l n →
      i.run p fuel = some (r, j) → j.steps ≤ n →
      (i.withStepLimit l).run p fuel = some (r, j.withStepLimit l)) ∧
    (∀ (i j : Interpreter) (p : Program) (fuel n : Nat),
      i.run p fuel = some (.error (.limit (.steps n)), j) →
      i.state.config.stepLimit = some n ∧ n < j.steps) := by
  constructor
  · intro i j p fuel n r l hi hl h hsteps
    exact Interpreter.run_mirrors hi hl h hsteps
  · intro i j p fuel n h
    obtain ⟨o, s, j', hrun, hres, rfl⟩ := Interpreter.run_eq_some.mp h
    have ho := (Interpreter.result_limit_iff hres (.steps n)).mp rfl
    subst ho
    obtain ⟨hlimit, hsteps⟩ := Machine.steps_exceeded rfl hrun
    have rest : Later s j'.state := Interpreter.result_spans later_stable later_spans hres
    exact ⟨hlimit, Nat.lt_of_lt_of_le hsteps rest.steps⟩

/-- `1`. -/
def justOne : Program := ⟨[⟨.literal (.int 1), .origin⟩], .origin⟩

theorem step_limit_transparent_of_one :
    let i : Interpreter := ⟨.initial ⟨some 1, 8, false⟩⟩
    (∃ r j, i.run justOne 9 = some (r, j) ∧ j.steps ≤ 1 ∧
      (i.withStepLimit none).run justOne 9 = some (r, j.withStepLimit none) ∧
      (i.withStepLimit (some 7)).run justOne 9 = some (r, j.withStepLimit (some 7))) ∧
    ∃ j, (i.withStepLimit (some 0)).run justOne 9 = some (.error (.limit (.steps 0)), j) ∧
      0 < j.steps := by
  intro i
  obtain ⟨hends, hexceeded⟩ := step_limit_transparent
  refine ⟨⟨_, _, rfl, by decide, ?_, ?_⟩, ⟨_, rfl, ?_⟩⟩
  · exact hends i _ justOne 9 1 _ none rfl nofun rfl (by decide)
  · exact hends i _ justOne 9 1 _ (some 7) rfl (by rintro _ ⟨⟩; decide) rfl (by decide)
  · exact (hexceeded (i.withStepLimit (some 0)) _ justOne 9 0 rfl).2

end Quill
