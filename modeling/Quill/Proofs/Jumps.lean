import Quill.Proofs.Limits

/-!
# Jumps

What a call runs cannot jump out of the call, with one exception: guards are evaluated for a call
and jump out of it. Such a jump passes by everything that serves a call, and ends a method or a loop
that has nothing to do with the guard.
-/

namespace Quill

namespace Task

/-- Does what a call asks for, and is no code itself: messages, blocks, built-in methods and the
rounds of those. -/
def serves (t : Task) : Bool := t.kind != .code && !t.describes

theorem serves_iff {t : Task} :
    t.serves = true ↔ t.kind ≠ .code ∧ t.describes = false := by
  rw [serves, Bool.and_eq_true, bne_iff_ne, Bool.not_eq_true']

theorem fits_message {t : Task} :
    t.fits .message = true ↔ t.kind ≠ .code ∨ t.isGuard = true := by
  rw [fits, Bool.or_eq_true, bne_iff_ne]

end Task

theorem Eval.Composed.passes_jumps {α : Type} {k : Kind} {x : Eval α} (hk : k ≠ .code)
    (h : Composed k x) (s : State) : (x s).Passes (·.fits .message = true) (·.isJump = true) := by
  induction h generalizing s with
  | pure a => rintro u ⟨⟩
  | @bind k α β x f hx hf ihx ihf =>
    rw [bind_apply]
    exact (ihx hk s).bind fun a ↦ ihf a hk
  | read hf => rintro u ⟨⟩
  | change hf => rintro u ⟨⟩
  | unwind hh hj =>
    intro u hu
    cases hu
    exact Bool.eq_false_iff.mp (hj hk)
  | @perform k t hfits =>
    have ht : t.fits .message = true := by
      cases k with
      | code => exact absurd rfl hk
      | closed =>
        rw [Task.fits, Bool.and_eq_true, bne_iff_ne] at hfits
        exact Task.fits_message.mpr (.inl hfits.1)
      | message => exact hfits
    exact ⟨fun _ u s' _ ↦ ⟨s', rfl⟩, fun o s' ho ↦ ho ht⟩
  | keeping h hx ih => exact (ih hk _).restoring _
  | @caught k α β x f hx' hx hok herr hhalt ihx ihok iherr =>
    rw [bind_apply]
    obtain rfl | hawaits := hx'
    · exact absurd rfl hk
    · refine (hawaits s).passes fun o s' ↦ ?_
      cases o with
      | ok a => exact ihok a hk s'
      | error u =>
        cases u with
        | halt l =>
          rw [hhalt l]
          rintro u ⟨⟩ ⟨⟩
        | _ => exact iherr _ rfl hk s'

namespace Task

theorem serves_passes {t : Task} (h : t.serves = true) (s : State) :
    (t.work s).Passes (·.fits .message = true) (·.isJump = true) := by
  obtain ⟨hk, hd⟩ := serves_iff.mp h
  cases t with
  | describe v => cases hd
  | framed frame t =>
    rw [work_framed]
    split
    · rintro u ⟨⟩
      exact nofun
    · exact ⟨fun _ u s' _ ↦ ⟨_, rfl⟩,
        fun o s' ho ↦ Outcome.reply_error (ho (fits_message.mpr (.inl hk)))⟩
  | handling r t =>
    rw [work_handling]
    exact ⟨fun _ u s' _ ↦ ⟨_, rfl⟩,
      fun o s' ho ↦ Outcome.reply_error (ho (fits_message.mpr (.inl hk)))⟩
  | eval e ctx => exact absurd rfl hk
  | _ => exact (composed _ rfl).passes_jumps hk s

end Task

theorem jumps_passBy :
    PassesBy (·.fits .message = true) (·.serves = true) (·.isJump = true) where
  work s h := .inl (Task.serves_passes h s)
  ends h := Task.fits_message.mpr (.inl (Task.serves_iff.mp h).1)
  shape {t t'} h := by
    have hk : t'.kind = t.kind := congrArg (·.1) h
    have hg : t'.isGuard = t.isGuard := congrArg (·.2.1) h
    rw [Task.fits_message, Task.fits_message, hk, hg]

theorem Task.serves_of_shape {t t' : Task} (h : t'.shape = t.shape) : t'.serves = t.serves := by
  have hk : t'.kind = t.kind := congrArg (·.1) h
  have hd : t'.describes = t.describes := congrArg (·.2.2) h
  rw [serves, serves, hk, hd]

namespace Machine

variable {t : Task} {s : State} {m m' : Machine} {u : Unwind}

theorem Begins.work {m₀ : Machine} (h : Begins m₀ m) : ∃ s, m.work = m.task.work s := by
  cases h with
  | start h => exact ⟨_, by rw [h]; rfl⟩
  | next _ _ _ hw _ => exact ⟨_, hw⟩

theorem Reaches.guard_jumped (h : (start t s).Reaches m) (hm : m.Unwinds u) (hu : u.isJump = true)
    (hs : m.task.serves = true) :
    ∃ m' ts, (start t s).Reaches m' ∧ m'.task.isGuard = true ∧ m'.Unwinds u ∧
      m'.waitingTasks = ts ++ m.waitingTasks ∧ ∀ t' ∈ ts, t'.serves = true := by
  obtain ⟨m', ts, hr, -, hm', hts, hserves, hcase⟩ := jumps_passBy.comes_up h hm hu hs
  obtain ⟨hbegins, hs'⟩ | ⟨hfits, hs'⟩ := hcase
  · obtain ⟨s₁, hw⟩ := hbegins.work
    obtain ⟨s₂, hx⟩ := hm'
    have passes := Task.serves_passes hs' s₁
    rw [← hw, hx] at passes
    exact absurd hu (passes u rfl)
  · refine ⟨m', ts, hr, ?_, hm', hts, hserves⟩
    obtain hk | hg := Task.fits_message.mp hfits
    · exact absurd (Task.serves_iff.mpr ⟨hk, hr.not_describes hm'⟩) hs'
    · exact hg

end Machine

open Machine

/-- What serves a call ends in a jump exactly if a guard does for which nothing but such tasks
waits. -/
theorem call_jumps_iff (t : Task) (s : State) (u : Unwind) (ht : t.serves = true)
    (hu : u.isJump = true) :
    (∃ n s', (start t s).run n = some (.error u, s')) ↔
      ∃ m, (start t s).Reaches m ∧ m.task.isGuard = true ∧ m.Unwinds u ∧
        ∀ t' ∈ m.waitingTasks, t'.serves = true := by
  constructor
  · rintro ⟨n, s', h⟩
    obtain ⟨m, hr, he⟩ := run_iff.mp ⟨n, h⟩
    obtain ⟨hx, hw⟩ := next_inr he
    have hshape := jumps_passBy.kept.last (jumps_passBy.letsPass_work t s []) hr hw
    have hs : m.task.serves = true := (Task.serves_of_shape hshape).trans ht
    obtain ⟨m', ts, hr', hg, hm', hts, hserves⟩ := hr.guard_jumped ⟨s', hx⟩ hu hs
    refine ⟨m', hr', hg, hm', fun t' ht' ↦ hserves t' ?_⟩
    rw [hts, waitingTasks, hw] at ht'
    simpa using ht'
  · rintro ⟨m, hr, hg, hm, hs⟩
    exact jumps_passBy.ends_run hr hm hu (Task.fits_message.mpr (.inr hg)) hs

/-- `def f if return` with no statements. -/
def returningGuard : MethodDef :=
  ⟨⟨"f", .origin⟩, false, .none, some ⟨.jump .return_ none, .origin⟩,
    ⟨[], [], none, none, .origin⟩, none, .origin⟩

/-- A state in which all objects have the method `f`. -/
def guardedState : State :=
  let s : State := .initial .standard
  { s with types := s.types.addMethod CoreType.object.id "f" (.user returningGuard) }

/-- The message `f` to the current object at top level. -/
def askGuarded : Task := .send "f" ⟨.object State.mainObject, [], none, .origin⟩

/-- The work returns from its method, with no value. -/
def Outcome.returnsNil : Outcome Value → Bool
  | .error (.return_ .nil) => true
  | _ => false

theorem guarded_returns :
    ∃ s', (start askGuarded guardedState).run 20 = some (.error (.return_ .nil), s') := by
  have h : ((start askGuarded guardedState).run 20).map (·.1.returnsNil) = some true := by
    decide +kernel
  obtain ⟨⟨o, s'⟩, hrun, ho⟩ := Option.map_eq_some_iff.mp h
  dsimp only at ho
  unfold Outcome.returnsNil at ho
  split at ho
  · exact ⟨s', hrun⟩
  · cases ho

theorem guard_jumps_out : ∃ m, (start askGuarded guardedState).Reaches m ∧
    m.task.isGuard = true ∧ m.Unwinds (.return_ .nil) ∧
    ∀ t' ∈ m.waitingTasks, t'.serves = true :=
  (call_jumps_iff askGuarded guardedState (.return_ .nil) rfl rfl).mp ⟨20, guarded_returns⟩

/-- So a message may end in a jump. -/
theorem send_may_jump : ¬ ∀ (name : String) (c : Call) (s : State) (n : Nat) (u : Unwind)
    (s' : State), (start (.send name c) s).run n = some (.error u, s') → u.isJump = false := by
  intro h
  obtain ⟨s', hrun⟩ := guarded_returns
  exact absurd (h _ _ _ _ _ _ hrun) nofun

end Quill
