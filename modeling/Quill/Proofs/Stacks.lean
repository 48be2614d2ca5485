import Quill.Interpreter
import Quill.Proofs.Evolution

/-!
# The stacks of calls and of raised values

At every moment the calls in progress are those of the tasks in progress, and the raised values that
are being dealt with are those of the `rescue` clauses in progress. So both stacks are in the end
what they were in the beginning.
-/

namespace Quill

namespace Step

variable {α : Type}

/-- Whenever the work waits, the state is as `inside` says if it was so when the work went on, and
when it is done the state is as `outside` says. -/
def Holds (inside outside : State → Prop) : Step α → Prop
  | done _ s => outside s
  | wait _ s resume => inside s ∧ ∀ o s', inside s' → (resume o s').Holds inside outside

theorem Evolves.holds {R : State → State → Prop} {P : State → Prop}
    (hR : ∀ s s', R s s' → P s → P s') {x : Step α} {s : State} (hx : x.Evolves R s)
    (hs : P s) : x.Holds P P := by
  induction x generalizing s with
  | done o s' => exact hR s s' hx hs
  | wait t s' resume ih =>
    exact ⟨hR s s' hx.1 hs, fun o s'' hs'' ↦ ih o s'' (hx.2 o s'') hs''⟩

end Step

namespace Task

/-- The call that a task is. -/
def frames : Task → List CallFrame
  | framed frame _ => [frame]
  | _ => []

/-- The value that a task deals with. -/
def raised : Task → List Raised
  | handling r _ => [r]
  | _ => []

end Task

namespace State

/-- What is on the stacks while the tasks `ts` are in progress that were started from `base`. -/
structure Stacked (base : State) (ts : List Task) (s : State) : Prop where
  config : s.config = base.config
  frames : s.frames.toList.reverse = ts.flatMap Task.frames ++ base.frames.toList.reverse
  rescuing : s.rescuing = ts.flatMap Task.raised ++ base.rescuing
  depth : base.frames.size ≤ base.config.maxCallDepth →
    s.frames.size ≤ base.config.maxCallDepth

theorem Stacked.refl (base : State) : Stacked base [] base := ⟨rfl, rfl, rfl, id⟩

theorem Stacked.of_sameControl {base s s' : State} {ts : List Task} (h : SameControl s s')
    (hs : Stacked base ts s) : Stacked base ts s' :=
  ⟨h.config.trans hs.config, by rw [h.frames, hs.frames], h.rescuing.trans hs.rescuing,
    by rw [h.frames]; exact hs.depth⟩

theorem Stacked.push {base s : State} {ts : List Task} (hs : Stacked base ts s)
    (frame : CallFrame) (t : Task) (h : s.frames.size < s.config.maxCallDepth) :
    Stacked base (.framed frame t :: ts) { s with frames := s.frames.push frame } where
  config := hs.config
  frames := by
    simp only [Array.toList_push, List.reverse_append, hs.frames]
    rfl
  rescuing := hs.rescuing
  depth _ := by
    have hc := hs.config
    simp only [Array.size_push]
    rw [← hc]
    omega

theorem Stacked.pop {base s : State} {ts : List Task} {frame : CallFrame} {t : Task}
    (hs : Stacked base (.framed frame t :: ts) s) :
    Stacked base ts { s with frames := s.frames.pop } where
  config := hs.config
  frames := by
    have hf := hs.frames
    rw [Array.toList_pop, ← List.tail_reverse, hf]
    rfl
  rescuing := hs.rescuing
  depth h := by
    have hd := hs.depth h
    simp only [Array.size_pop]
    omega

theorem Stacked.handle {base s : State} {ts : List Task} (hs : Stacked base ts s) (r : Raised)
    (t : Task) : Stacked base (.handling r t :: ts) { s with rescuing := r :: s.rescuing } :=
  ⟨hs.config, hs.frames, by rw [hs.rescuing]; rfl, hs.depth⟩

theorem Stacked.handled {base s : State} {ts : List Task} {r : Raised} {t : Task}
    (hs : Stacked base (.handling r t :: ts) s) :
    Stacked base ts { s with rescuing := s.rescuing.tail } :=
  ⟨hs.config, hs.frames, by rw [hs.rescuing]; rfl, hs.depth⟩

theorem Stacked.trans {base s s' : State} {ts : List Task} (hs : Stacked base [] s)
    (h : Stacked s ts s') : Stacked base ts s' where
  config := h.config.trans hs.config
  frames := h.frames.trans (congrArg _ hs.frames)
  rescuing := h.rescuing.trans (congrArg _ hs.rescuing)
  depth hd := hs.config ▸ h.depth (hs.config ▸ hs.depth hd)

theorem Stacked.frames_eq {base s : State} (hs : Stacked base [] s) : s.frames = base.frames :=
  Array.toList_inj.mp (List.reverse_inj.mp hs.frames)

theorem stacked_cons {base : State} {t : Task} {ts : List Task} (hf : t.frames = [])
    (hr : t.raised = []) : Stacked base (t :: ts) = Stacked base ts := by
  funext s
  apply propext
  constructor
  · rintro ⟨hc, hs, hv, hd⟩
    rw [List.flatMap_cons, hf] at hs
    rw [List.flatMap_cons, hr] at hv
    exact ⟨hc, hs, hv, hd⟩
  · rintro ⟨hc, hs, hv, hd⟩
    refine ⟨hc, ?_, ?_, hd⟩
    · rw [List.flatMap_cons, hf]; exact hs
    · rw [List.flatMap_cons, hr]; exact hv

end State

namespace Task

open State

theorem work_holds_of_evolves {base s : State} {ts : List Task} {t : Task}
    (hf : t.frames = []) (hr : t.raised = []) (hs : Stacked base ts s)
    (h : (t.work s).Evolves SameControl s) :
    (t.work s).Holds (Stacked base (t :: ts)) (Stacked base ts) := by
  rw [stacked_cons hf hr]
  exact h.holds (fun _ _ hc hp ↦ hp.of_sameControl hc) hs

theorem eval_holds {base s : State} {ts : List Task} (hs : Stacked base ts s) (e : Expr)
    (ctx : Context) :
    ((eval e ctx).work s).Holds (Stacked base (.eval e ctx :: ts)) (Stacked base ts) := by
  have counted : Stacked base ts { s with steps := s.steps + 1 } :=
    ⟨hs.config, hs.frames, hs.rescuing, hs.depth⟩
  rw [work_eval, stacked_cons (t := .eval e ctx) rfl rfl]
  obtain h | ⟨l, -, -, h⟩ := Eval.tick_cases s
  · rw [h]
    have work := (Eval.Composed.answering (.expression e ctx)).evolves sameControl_stable
    exact (work _).holds (fun _ _ hc hp ↦ hp.of_sameControl hc) counted
  · rw [h]
    exact counted

/-- While something goes on inside of a task, its call and the value it deals with are on the
stacks, and not any longer. -/
theorem work_holds {base s : State} {ts : List Task} (hs : Stacked base ts s) (t : Task) :
    (t.work s).Holds (Stacked base (t :: ts)) (Stacked base ts) := by
  cases t with
  | eval e ctx => exact eval_holds hs e ctx
  | framed frame t =>
    rw [work_framed]
    split
    · exact hs
    · exact ⟨hs.push frame t (by omega), fun o s' hs' ↦ hs'.pop⟩
  | handling r t =>
    rw [work_handling]
    exact ⟨hs.handle r t, fun o s' hs' ↦ hs'.handled⟩
  | describe v =>
    exact work_holds_of_evolves rfl rfl hs (describe_evolves sameControl_stable v s)
  | _ =>
    exact work_holds_of_evolves rfl rfl hs ((composed _ rfl).evolves sameControl_stable s)

end Task

namespace Machine

open State

theorem stacked_kept (base : State) : Kept (fun _ ↦ ()) fun m ↦
    m.work.Holds (Stacked base (m.task :: m.waitingTasks)) (Stacked base m.waitingTasks) where
  starts h := Task.work_holds h.1 _
  resumes h _ hdone := h.2 _ _ (by
    rename_i o _
    cases o <;> exact hdone)
  givesWay h := ⟨Task.work_holds h _, rfl⟩

variable {t : Task} {s : State} {m : Machine}

/-- At every moment, the stacks hold the calls and the raised values of the tasks in progress. -/
theorem Reaches.stacked (h : (start t s).Reaches m) :
    Stacked s m.inProgress m.work.state := by
  have holds := (stacked_kept s).reaches (Task.work_holds (.refl s) t) h
  obtain ⟨t', x, ps⟩ := m
  cases x with
  | done o s' => exact holds
  | wait t'' s' resume => exact holds.1

theorem run_stacked {n : Nat} {o : Outcome Value} {s' : State}
    (h : (start t s).run n = some (o, s')) : Stacked s [] s' := by
  obtain ⟨m, hr, he⟩ := run_iff.mp ⟨n, h⟩
  have hs := hr.stacked
  obtain ⟨hw, hn⟩ := next_inr he
  obtain ⟨t', x, ps⟩ := m
  subst hw hn
  exact hs

end Machine

namespace State

theorem stacked_stable : Stable (Stacked · []) where
  refl := .refl
  trans := .trans
  change hf s := (Stacked.refl s).of_sameControl (hf.sameControl s)
  held _ _ := ⟨rfl, rfl, rfl, id⟩

theorem stacked_spans : Spans (Stacked · []) := fun _ _ _ _ _ h ↦ Machine.run_stacked h

end State

namespace Interpreter

open State

variable {i i' : Interpreter} {fuel : Nat}

theorem run_leaves_empty {p : Program} {r : Result} (h : i.run p fuel = some (r, i')) :
    i'.state.frames = #[] ∧ i'.state.rescuing = [] := by
  obtain ⟨o, s, j, hrun, hres, rfl⟩ := run_eq_some.mp h
  have both := (Machine.run_stacked hrun).trans (result_spans stacked_stable stacked_spans hres)
  exact ⟨rfl, both.rescuing⟩

end Interpreter

open Machine

/-- A `raise` without a value raises the one that is dealt with, as it was raised before. -/
theorem Task.bare_raise {e : Expr} {ctx : Context} {s s' : State} {r : Raised}
    (he : e.kind = .jump .raise none) (hr : s.rescuing.head? = some r)
    (ht : Eval.tick s = .done (.ok ()) s') :
    (Task.eval e ctx).work s = .done (.error (.raise r)) s' := by
  have hs' : s'.rescuing = s.rescuing := by
    obtain h | ⟨l, -, -, h⟩ := Eval.tick_cases s
    · rw [h] at ht
      cases ht
      rfl
    · rw [h] at ht
      cases ht
  have hraise : Eval.expression e ctx s' = .done (.error (.raise r)) s' := by
    obtain ⟨kind, span⟩ := e
    subst he
    change Eval.raising none ctx span s' = _
    rw [Eval.raising, Eval.read_bind, hs', hr]
    rfl
  rw [work_eval, ht]
  change (Eval.expression e ctx s').andThen _ = _
  rw [hraise]
  rfl

/-- A task ends with the stacks as they were when it was started, and the calls in progress are
never more than allowed. A bare `raise` raises what the innermost `rescue` clause in progress is
dealing with. And no program leaves anything on the stacks. -/
theorem stacks_balance :
    (∀ (t : Task) (s : State),
      (∀ n o s', (start t s).run n = some (o, s') →
        s'.frames = s.frames ∧ s'.rescuing = s.rescuing) ∧
      (∀ m, s.frames.size ≤ s.config.maxCallDepth → (start t s).Reaches m →
        m.work.state.frames.size ≤ s.config.maxCallDepth) ∧
      (∀ m e ctx s' s'' inner r body outer, (start t s).Reaches m →
        m.starts = some (.eval e ctx, s') → e.kind = .jump .raise none →
        m.inProgress = inner ++ .handling r body :: outer → (∀ t ∈ inner, t.raised = []) →
        Eval.tick s' = .done (.ok ()) s'' →
        (Task.eval e ctx).work s' = .done (.error (.raise r)) s'')) ∧
    (∀ callee args block span fuel s o s',
      (Eval.callValue callee args block span).run fuel s = some (o, s') →
        s'.frames = s.frames ∧ s'.rescuing = s.rescuing) ∧
    (∀ (i i' : Interpreter) p fuel r, i.run p fuel = some (r, i') →
      i'.state.frames = #[] ∧ i'.state.rescuing = []) := by
  refine ⟨fun t s ↦ ⟨?_, ?_, ?_⟩, ?_, ?_⟩
  · intro n o s' h
    have hs := run_stacked h
    exact ⟨hs.frames_eq, hs.rescuing⟩
  · intro m hd h
    exact h.stacked.depth hd
  · intro m e ctx s' s'' inner r body outer h hm he hin hraised ht
    have hstate : m.work.state = s' := state_of_starts hm
    -- Nothing inside of the clause deals with a value, so its own is the latest.
    have hr : s'.rescuing.head? = some r := by
      have hs := h.stacked.rescuing
      have none_inner : inner.flatMap Task.raised = [] := List.flatMap_eq_nil_iff.mpr hraised
      rw [hstate, hin, List.flatMap_append, none_inner] at hs
      rw [hs]
      rfl
    exact Task.bare_raise he hr ht
  · intro callee args block span fuel s o s' h
    have composed := Eval.Composed.callValue (k := .closed) callee args block span
    have hs := composed.spans State.stacked_stable State.stacked_spans h
    exact ⟨hs.frames_eq, hs.rescuing⟩
  · intro i i' p fuel r h
    exact Interpreter.run_leaves_empty h

/-- `begin raise 1 rescue raise end`. -/
def reraising : Body :=
  ⟨[⟨.jump .raise (some ⟨.literal (.int 1), .origin⟩), .origin⟩],
    [⟨none, none, [⟨.jump .raise none, .origin⟩], .origin⟩], none, none, .origin⟩

theorem stacks_balance_reraising :
    let s : State := .initial ⟨none, 8, false⟩
    let t : Task := .body reraising State.topContext
    let p : Program := ⟨[⟨.protect reraising, .origin⟩], .origin⟩
    (∃ o s', (start t s).run 20 = some (o, s') ∧ s'.frames = #[] ∧ s'.rescuing = []) ∧
    (∃ r i', (Interpreter.mk s).run p 20 = some (r, i') ∧ i'.state.frames = #[] ∧
      i'.state.rescuing = []) ∧
    ∃ m ctx s' s'' r, (start t s).Reaches m ∧ m.work.state.frames.size ≤ 8 ∧
      m.starts = some (.eval ⟨.jump .raise none, .origin⟩ ctx, s') ∧
      (Task.eval ⟨.jump .raise none, .origin⟩ ctx).work s' = .done (.error (.raise r)) s'' := by
  intro s t p
  obtain ⟨htasks, -, hprograms⟩ := stacks_balance
  obtain ⟨hends, hdepth, hbare⟩ := htasks t s
  refine ⟨⟨_, _, rfl, hends 20 _ _ rfl⟩, ⟨_, _, rfl, hprograms ⟨s⟩ _ p 20 _ rfl⟩, ?_⟩
  let m : Machine := (start t s).walk 6
  have hr : (start t s).Reaches m := reaches_walk 6 _
  obtain ⟨inner, r, clause, outer, hin, hinner⟩ : ∃ inner r clause outer,
      m.inProgress = [inner] ++ .handling r clause :: outer ∧ inner.raised = [] :=
    ⟨_, _, _, _, rfl, rfl⟩
  obtain ⟨ctx, s', s'', hstarts, htick⟩ : ∃ ctx s' s'',
      m.starts = some (.eval ⟨.jump .raise none, .origin⟩ ctx, s') ∧
        Eval.tick s' = .done (.ok ()) s'' := ⟨_, _, _, rfl, rfl⟩
  refine ⟨m, ctx, s', s'', r, hr, hdepth m (Nat.zero_le _) hr, hstarts, ?_⟩
  exact hbare m _ ctx s' s'' [inner] r clause outer hr hstarts rfl hin (by simpa using hinner) htick

end Quill
