import Quill.Proofs.Descent

/-!
# Where programs end

Within a step limit a program ends, with the text of an error that it ends in, unless comparisons
wait for comparisons without end, or the raw text is looked for of a value that contains itself.
Main statements: `limited_runs_end_iff`, and `limited_run_need_not_end` that comparisons may wait
so.
-/

namespace Quill

open State

/-- The same settings, and what unspoken messages find is as quiet as before. -/
def State.LikeBefore (s s' : State) : Prop := Later s s' ∧ (s.types.Calm → s'.types.Calm)

theorem State.likeBefore_enduring : Enduring LikeBefore := later_enduring.and Types.calm_enduring

namespace Task

variable {v : Value} {s s' : State} {o : Outcome Value} {text : String}

theorem Gives.rawText (h : s.rawText? v = some text) :
    (Task.rawText v).Gives s (.ok (.str text)) s := by
  refine ⟨1, ?_⟩
  rw [Machine.start, work_rawText, h]
  rfl

theorem Gives.of_rawText (h : (Task.rawText v).Gives s o s') :
    ∃ text, s.rawText? v = some text ∧ o = .ok (.str text) ∧ s' = s := by
  cases htext : s.rawText? v with
  | some text =>
    obtain ⟨n, hrun⟩ := h
    obtain ⟨k, hrun'⟩ := rawText htext
    cases Machine.run_unique hrun hrun'
    exact ⟨text, rfl, rfl, rfl⟩
  | none =>
    obtain ⟨n, hrun⟩ := h
    have circles : (Machine.start (.rawText v) s).Circles := by
      refine ⟨v, rfl, ?_⟩
      rw [Machine.start, work_rawText]
      exact State.rawText?_eq_none_iff.mp htext
    have never := Machine.Reaches.run_none .refl circles n
    cases never.symm.trans hrun

end Task

namespace Step

variable {α : Type} {x : Step α} {es : List Episode} {o : Outcome α} {s s' : State} {l n : Nat}

/-- The machine is on the way of one of the tasks that the work waits for. -/
inductive Meets (m : Machine) : Step α → Prop
  | first {t : Task} {s : State} {resume : Resume α} :
      (Machine.start t s).Reaches m → Meets m (.wait t s resume)
  | later {t : Task} {s s' : State} {resume : Resume α} {o : Outcome Value} :
      t.Gives s o s' → Meets m (resume o s') → Meets m (.wait t s resume)

theorem Course.finishes (h : x.Course es o s') :
    ∃ k, ∀ fuel, k ≤ fuel → ∀ n, k ≤ n → x.finish fuel n = some (o, s') := by
  induction h with
  | done => exact ⟨0, fun fuel _ n _ ↦ by cases n <;> rfl⟩
  | @wait t s s₁ s' resume n o₁ es o hrun _ ih =>
    obtain ⟨k, hk⟩ := ih
    refine ⟨max n k + 1, fun fuel hfuel j hj ↦ ?_⟩
    obtain ⟨j, rfl⟩ : ∃ i, j = i + 1 := ⟨j - 1, by omega⟩
    have hfirst := Machine.run_mono hrun (show n ≤ fuel by omega)
    exact Option.bind_eq_some_iff.mpr ⟨_, hfirst, hk fuel (by omega) j (by omega)⟩

theorem course_of_chained (hx : x.Evolves LikeBefore s) (hl : s.config.stepLimit = some l)
    (hc : s.types.Calm) (hn : ∀ m, x.Meets m → m.chained ≤ n)
    (hfinite : ∀ m, x.Meets m → ¬ m.Circles) : ∃ es o s', x.Course es o s' := by
  induction x generalizing s with
  | done o s' => exact ⟨[], o, s', .done⟩
  | wait t s' resume ih =>
    have hl' : s'.config.stepLimit = some l := (congrArg _ hx.1.1.config).trans hl
    obtain ⟨o, s₁, k, hrun⟩ := Machine.gives_of_chained hl' (hx.1.2 hc)
      (fun m hm ↦ hn m (.first hm)) fun m hm ↦ hfinite m (.first hm)
    have after : LikeBefore s' s₁ := likeBefore_enduring.spans _ _ _ _ _ hrun
    obtain ⟨es, o', s₂, hrest⟩ := ih o s₁ (hx.2 o s₁) ((congrArg _ after.1.config).trans hl')
      (after.2 (hx.1.2 hc)) (fun m hm ↦ hn m (.later ⟨k, hrun⟩ hm))
      fun m hm ↦ hfinite m (.later ⟨k, hrun⟩ hm)
    exact ⟨_, o', s₂, .wait hrun hrest⟩

theorem chained_of_course (h : x.Course es o s') : ∃ n, ∀ m, x.Meets m → m.chained ≤ n := by
  induction h with
  | done => exact ⟨0, fun m hm ↦ nomatch hm⟩
  | @wait t s s₁ s' resume k o₁ es o hrun _ ih =>
    obtain ⟨n, hn⟩ := ih
    refine ⟨max k n, fun m hm ↦ ?_⟩
    cases hm with
    | first hm => exact Nat.le_trans (Machine.chained_le_of_run hrun hm) (Nat.le_max_left k n)
    | later hgives hm =>
      obtain ⟨j, hj⟩ := hgives
      cases Machine.run_unique hrun hj
      exact Nat.le_trans (hn m hm) (Nat.le_max_right k n)

theorem not_circles_of_course (h : x.Course es o s') (m : Machine) (hm : x.Meets m) :
    ¬ m.Circles := by
  induction h with
  | done => exact nomatch hm
  | wait hrun _ ih =>
    cases hm with
    | first hm => exact hm.not_circles hrun
    | later hgives hm =>
      obtain ⟨j, hj⟩ := hgives
      cases Machine.run_unique hrun hj
      exact ih hm

end Step

namespace Eval

variable {x : Eval String} {v : Value} {s s' : State}

/-- The text that work finds, or the raw text of a value if that unwinds. -/
def orRaw (x : Eval String) (v : Value) : Eval String := do
  match ← attempt x with
  | .ok text => return text
  | .error _ =>
    let found ← perform (.rawText v)
    return found.str?.getD ""

theorem orRaw_gives_iff : (∃ o s', (orRaw x v).Gives s o s') ↔ ∃ o s', x.Gives s o s' ∧
    ∀ u, o = .error u → (s'.rawText? v).isSome := by
  constructor
  · rintro ⟨o, s', es, hes⟩
    unfold orRaw at hes
    rw [bind_apply] at hes
    obtain ⟨u, rfl, hx⟩ | ⟨o', es₁, es₂, s₁, rfl, hx, hrest⟩ := hes.bind
    · obtain ⟨o', ho', -⟩ := hx.attempt
      cases ho'
    · obtain ⟨o', ⟨⟩, hx⟩ := hx.attempt
      refine ⟨o', s₁, ⟨es₁, hx⟩, ?_⟩
      rintro u rfl
      cases hrest with
      | wait hrun _ =>
        obtain ⟨text, htext, -⟩ := Task.Gives.of_rawText ⟨_, hrun⟩
        rw [htext]
        rfl
  · rintro ⟨o, s', hx, hraw⟩
    cases o with
    | ok text => exact ⟨_, _, hx.attempt.bind (.pure text s')⟩
    | error u =>
      obtain ⟨text, htext⟩ := Option.isSome_iff_exists.mp (hraw u rfl)
      have found := Gives.perform (Task.Gives.rawText htext)
      exact ⟨_, _, hx.attempt.bind (found.bind (.pure _ s'))⟩

theorem Composed.orRaw_evolves {R : State → State → Prop} {k : Kind} (hR : State.Stable R)
    (hx : Composed k x) (v : Value) (s : State) : (orRaw x v s).Evolves R s := by
  unfold orRaw
  rw [bind_apply]
  refine (hx.evolves hR s).attempt.bind hR fun o s' ↦ ?_
  cases o with
  | ok text => exact hR.refl s'
  | error u => exact ⟨hR.refl s', fun o s'' ↦ by cases o <;> exact hR.refl s''⟩

/-- Finds the text of a raised value that nothing rescued. -/
def uncaught (s : State) (v : Value) : Eval String :=
  if v.object?.isSome && s.isInstance v CoreType.error.id then
    match s.attr v "message" with
    | .nil => return s.typeName v
    | message => orRaw (holding [v] (display message)) message
  else orRaw (inspect v) v

theorem uncaught_evolves {R : State → State → Prop} (hR : State.Stable R) (s : State)
    (v : Value) (s' : State) : (uncaught s v s').Evolves R s' := by
  unfold uncaught
  split
  · cases s.attr v "message" with
    | nil => exact hR.refl s'
    | _ => exact (Composed.holding _ (.display (k := .closed) _)).orRaw_evolves hR _ s'
  · exact (Composed.inspect (k := .closed) v).orRaw_evolves hR v s'

end Eval

namespace Interpreter

variable {i i' : Interpreter} {p : Program} {m : Machine} {l n : Nat}

/-- The machine is on the way of a program, or of finding the text of what it does not rescue. -/
inductive Meets (i : Interpreter) (p : Program) (m : Machine) : Prop
  | statements : (i.machine p).Reaches m → Meets i p m
  | text {n : Nat} {r : Raised} {s : State} :
      (i.machine p).run n = some (.error (.raise r), s) →
      (Eval.uncaught s r.value s).Meets m → Meets i p m

/-- What takes fuel comes to an end with enough of it exactly if `P`. -/
structure EndsIff {α : Type} (f : Nat → Option α) (P : Prop) : Prop where
  ended {fuel : Nat} : (f fuel).isSome → P
  enough : P → ∃ k, ∀ fuel, k ≤ fuel → (f fuel).isSome

theorem textBy_endsIff (shown : Value → Eval String) (v : Value) : EndsIff (i.textBy shown v)
    (∃ o s', (Eval.orRaw (shown v) v).Gives i.state o s') := by
  rw [Eval.orRaw_gives_iff]
  constructor
  · intro fuel h
    obtain ⟨⟨text, j⟩, htext⟩ := Option.isSome_iff_exists.mp h
    obtain ⟨o, hperform, hcase⟩ := textBy_eq_some.mp htext
    obtain ⟨⟨o', s'⟩, hfinish, hpair⟩ := Option.map_eq_some_iff.mp hperform
    cases hpair
    refine ⟨o, s', Step.exists_course hfinish, ?_⟩
    rintro u rfl
    obtain h | ⟨-, hraw⟩ := hcase
    · cases h
    · rw [hraw]
      rfl
  · rintro ⟨o, s', ⟨es, hcourse⟩, hraw⟩
    obtain ⟨k, hk⟩ := hcourse.finishes
    refine ⟨k, fun fuel hfuel ↦ ?_⟩
    have hperform : i.perform (shown v) fuel = some (o, ⟨s'⟩) :=
      Option.map_eq_some_iff.mpr ⟨_, hk fuel hfuel fuel hfuel, rfl⟩
    obtain ⟨text, hcase⟩ : ∃ text, o = .ok text ∨
        (∃ u, o = .error u) ∧ s'.rawText? v = some text := by
      cases o with
      | ok text => exact ⟨text, .inl rfl⟩
      | error u =>
        obtain ⟨text, htext⟩ := Option.isSome_iff_exists.mp (hraw u rfl)
        exact ⟨text, .inr ⟨⟨u, rfl⟩, htext⟩⟩
    exact Option.isSome_iff_exists.mpr ⟨_, textBy_eq_some.mpr ⟨o, hperform, hcase⟩⟩

theorem uncaughtText_endsIff (v : Value) : EndsIff (i.uncaughtText v)
    (∃ o s', (Eval.uncaught i.state v).Gives i.state o s') := by
  unfold uncaughtText Eval.uncaught
  split
  · cases i.state.attr v "message" with
    | nil => exact ⟨fun _ ↦ ⟨_, _, .pure _ _⟩, fun _ ↦ ⟨0, fun _ _ ↦ rfl⟩⟩
    | _ => exact textBy_endsIff _ _
  · exact textBy_endsIff _ v

theorem result_raise_endsIff (r : Raised) (span : Span) :
    EndsIff (i.result (.error (.raise r)) span)
      (∃ o s', (Eval.uncaught i.state r.value).Gives i.state o s') := by
  have hsame (fuel : Nat) : (i.result (.error (.raise r)) span fuel).isSome =
      (i.uncaughtText r.value fuel).isSome := by
    simp only [result]
    cases i.uncaughtText r.value fuel <;> rfl
  have htext := uncaughtText_endsIff (i := i) r.value
  constructor
  · intro fuel h
    exact htext.ended ((hsame fuel).symm.trans h)
  · intro h
    obtain ⟨k, hk⟩ := htext.enough h
    exact ⟨k, fun fuel hfuel ↦ (hsame fuel).trans (hk fuel hfuel)⟩

theorem result_isSome {o : Outcome Value} (h : ∀ r, o ≠ .error (.raise r)) (span : Span)
    (fuel : Nat) : (i.result o span fuel).isSome := by
  rcases o with (r | _ | _ | _ | _ | _) | v
  · exact absurd rfl (h r)
  all_goals rfl

theorem run_isSome {fuel : Nat} : (i.run p fuel).isSome ↔
    ∃ o s, (i.machine p).run fuel = some (o, s) ∧
      ((Interpreter.mk s).result o p.span fuel).isSome := by
  simp only [Option.isSome_iff_exists, Prod.exists]
  constructor
  · rintro ⟨r, i', h⟩
    obtain ⟨o, s, j, hrun, hres, -⟩ := run_eq_some.mp h
    exact ⟨o, s, hrun, r, j, hres⟩
  · rintro ⟨o, s, hrun, r, j, hres⟩
    exact ⟨r, _, run_eq_some.mpr ⟨o, s, j, hrun, hres, rfl⟩⟩

/-- Within a step limit a program ends, unless comparisons wait for comparisons without end, or the
raw text is looked for of a value that contains itself. -/
theorem ends_of_chained (hl : i.state.config.stepLimit = some l) (hc : i.state.types.Calm)
    (hn : ∀ m, i.Meets p m → m.chained ≤ n) (hfinite : ∀ m, i.Meets p m → ¬ m.Circles) :
    ∃ fuel, (i.run p fuel).isSome := by
  obtain ⟨o, s, k, hrun⟩ := Machine.gives_of_chained (s := i.rested.state) hl hc
    (fun m hm ↦ hn m (.statements hm)) fun m hm ↦ hfinite m (.statements hm)
  suffices ∃ j, ∀ fuel, j ≤ fuel → ((Interpreter.mk s).result o p.span fuel).isSome by
    obtain ⟨j, hj⟩ := this
    exact ⟨max k j, run_isSome.mpr
      ⟨o, s, Machine.run_mono hrun (Nat.le_max_left k j), hj _ (Nat.le_max_right k j)⟩⟩
  by_cases hraise : ∃ r, o = .error (.raise r)
  · obtain ⟨r, rfl⟩ := hraise
    have after : LikeBefore i.rested.state s := likeBefore_enduring.spans _ _ _ _ _ hrun
    have evolves := Eval.uncaught_evolves likeBefore_enduring.toStable s r.value s
    obtain ⟨es, o', s', hcourse⟩ := Step.course_of_chained evolves
      ((congrArg _ after.1.config).trans hl) (after.2 hc) (fun m hm ↦ hn m (.text hrun hm))
      fun m hm ↦ hfinite m (.text hrun hm)
    exact (result_raise_endsIff r p.span).enough ⟨o', s', es, hcourse⟩
  · exact ⟨0, fun fuel _ ↦ result_isSome (fun r hr ↦ hraise ⟨r, hr⟩) p.span fuel⟩

theorem met_of_ends {fuel : Nat} (h : (i.run p fuel).isSome) :
    (∃ n, ∀ m, i.Meets p m → m.chained ≤ n) ∧ ∀ m, i.Meets p m → ¬ m.Circles := by
  obtain ⟨o, s, hrun, hres⟩ := run_isSome.mp h
  have statements (m : Machine) (hm : (i.machine p).Reaches m) : m.chained ≤ fuel :=
    Machine.chained_le_of_run hrun hm
  by_cases hraise : ∃ r, o = .error (.raise r)
  · obtain ⟨r, rfl⟩ := hraise
    obtain ⟨o', s', es, hcourse⟩ := (result_raise_endsIff r p.span).ended hres
    obtain ⟨n, hn⟩ := Step.chained_of_course hcourse
    refine ⟨⟨max fuel n, fun m hm ↦ ?_⟩, fun m hm ↦ ?_⟩
    · cases hm with
      | statements hm => exact Nat.le_trans (statements m hm) (Nat.le_max_left fuel n)
      | text hrun' hm =>
        cases Machine.run_unique hrun hrun'
        exact Nat.le_trans (hn m hm) (Nat.le_max_right fuel n)
    · cases hm with
      | statements hm => exact hm.not_circles hrun
      | text hrun' hm =>
        cases Machine.run_unique hrun hrun'
        exact Step.not_circles_of_course hcourse m hm
  · have only (m : Machine) (hm : i.Meets p m) : (i.machine p).Reaches m := by
      cases hm with
      | statements hm => exact hm
      | text hrun' hm =>
        cases Machine.run_unique hrun hrun'
        exact absurd ⟨_, rfl⟩ hraise
    exact ⟨⟨fuel, fun m hm ↦ statements m (only m hm)⟩, fun m hm ↦ (only m hm).not_circles hrun⟩

theorem run_calm {fuel : Nat} {r : Result} (hc : i.state.types.Calm)
    (h : i.run p fuel = some (r, i')) : i'.state.types.Calm := by
  obtain ⟨o, s, j, hrun, hres, rfl⟩ := run_eq_some.mp h
  have spans := Types.calm_enduring.spans
  have rest : s.types.Calm → j.state.types.Calm :=
    result_spans Types.calm_enduring.toStable spans hres
  exact rest (spans _ _ _ _ _ hrun hc)

end Interpreter

open Machine

/-- A task within a step limit ends exactly if there is a bound on how often comparisons wait for
comparisons, and the raw text is never looked for of a value that contains itself. So does a
program, with the text of an error that it ends in. There is such a bound as long as no `==`
compares its argument with a pattern. All this is about interpreters whose built-in methods for
unspoken messages are quiet; the standard ones are, and stay so. -/
theorem limited_runs_end_iff (i : Interpreter) (t : Task) (p : Program) (v : Value) :
    (∀ l : Nat, i.state.config.stepLimit = some l → i.state.types.Calm →
      ((∃ o s, t.Gives i.state o s) ↔
        (∃ n, ∀ m, (start t i.state).Reaches m → m.chained ≤ n) ∧
        ∀ m, (start t i.state).Reaches m → ¬ m.Circles) ∧
      (i.state.types.ComparePlainly →
        (∀ m, (start t i.state).Reaches m → m.work.state.types.ComparePlainly) →
        (∀ m, (start t i.state).Reaches m → ¬ m.Circles) → ∃ o s, t.Gives i.state o s) ∧
      ((∃ fuel, (i.run p fuel).isSome) ↔
        (∃ n, ∀ m, i.Meets p m → m.chained ≤ n) ∧ ∀ m, i.Meets p m → ¬ m.Circles)) ∧
    (∀ config : Config, (State.initial config).types.Calm) ∧
    (∀ (i' : Interpreter) (fuel : Nat) (r : Result), i.state.types.Calm →
      i.run p fuel = some (r, i') → i'.state.types.Calm) ∧
    ((i.state.rawText? v).isSome ↔ ¬ i.state.ContainsItself v) := by
  refine ⟨fun l hl hc ↦ ⟨⟨?_, ?_⟩, fun hs hplain hfinite ↦ ?_, ?_, ?_⟩, ?_, ?_,
    isSome_rawText?_iff⟩
  · rintro ⟨o, s', n, hrun⟩
    exact ⟨⟨n, fun m hm ↦ chained_le_of_run hrun hm⟩, fun m hm ↦ hm.not_circles hrun⟩
  · rintro ⟨⟨n, hn⟩, hfinite⟩
    exact gives_of_chained hl hc hn hfinite
  · exact gives_of_chained hl hc (fun m hm ↦ Nat.le_of_eq (chained_of_plain hs hplain hm)) hfinite
  · rintro ⟨fuel, h⟩
    exact Interpreter.met_of_ends h
  · rintro ⟨⟨n, hn⟩, hfinite⟩
    exact Interpreter.ends_of_chained hl hc hn hfinite
  · exact fun _ ↦ Types.calm_standard
  · exact fun i' fuel r hc h ↦ Interpreter.run_calm hc h

theorem limited_runs_end_iff_of_one :
    let i : Interpreter := ⟨.initial ⟨some 1, 8, false⟩⟩
    let one : Expr := ⟨.literal (.int 1), .origin⟩
    (∃ o s, (Task.eval one State.topContext).Gives i.state o s) ∧
      (∃ n, ∀ m, (start (.eval one State.topContext) i.state).Reaches m → m.chained ≤ n) ∧
      (∃ n, ∀ m, i.Meets ⟨[one], .origin⟩ m → m.chained ≤ n) ∧
      ∃ r i', i.run ⟨[one], .origin⟩ 9 = some (r, i') ∧ i'.state.types.Calm := by
  intro i one
  obtain ⟨hlimited, hstandard, hcalm, -⟩ :=
    limited_runs_end_iff i (.eval one State.topContext) ⟨[one], .origin⟩ .nil
  obtain ⟨htask, hplain, hprogram⟩ := hlimited 1 rfl (hstandard _)
  -- The machine has no other work than to evaluate the number.
  have only (m : Machine) (hm : (start (.eval one State.topContext) i.state).Reaches m) :
      m = start (.eval one State.topContext) i.state := reaches_eq rfl hm
  have hends := hplain Types.comparePlainly_standard
    (fun m hm ↦ only m hm ▸ Types.comparePlainly_standard)
    fun m hm ⟨v, hv, _⟩ ↦ by rw [only m hm] at hv; cases hv
  exact ⟨hends, (htask.mp hends).1, (hprogram.mp ⟨9, rfl⟩).1, _, _, rfl,
    hcalm _ 9 _ (hstandard _) rfl⟩

/-- Waits for the task before anything else, in a state as `P` says. -/
def Eval.AsksFirst {α : Type} (t : Task) (P : State → Prop) (x : Eval α) (s : State) : Prop :=
  ∃ s' resume, x s = .wait t s' resume ∧ P s'

namespace Eval.AsksFirst

variable {α β : Type} {t : Task} {P : State → Prop} {x : Eval α} {s s' : State}

theorem perform (h : P s) : AsksFirst t P (perform t) s := ⟨s, _, rfl, h⟩

theorem bind {f : α → Eval β} (h : AsksFirst t P x s) : AsksFirst t P (x >>= f) s := by
  obtain ⟨s', resume, hx, hs'⟩ := h
  exact ⟨s', _, by rw [bind_apply, hx]; rfl, hs'⟩

theorem after {f : α → Eval β} {a : α} (hx : x s = .done (.ok a) s')
    (h : AsksFirst t P (f a) s') : AsksFirst t P (x >>= f) s := by
  obtain ⟨s'', resume, hf, hs''⟩ := h
  exact ⟨s'', resume, by rw [bind_apply, hx]; exact hf, hs''⟩

theorem keeping {h : Held} (hx : AsksFirst t P x { s with held := h :: s.held }) :
    AsksFirst t P (keeping h x) s := by
  obtain ⟨s', resume, hx, hs'⟩ := hx
  exact ⟨s', _, by rw [Eval.keeping, hx]; rfl, hs'⟩

end Eval.AsksFirst

/-- `def ==([_, 0])` with no statements. -/
def comparingMethod : MethodDef :=
  ⟨⟨"==", .origin⟩, false,
    ⟨[.list [.wildcard .origin, .literal (.int 0) .origin] .origin], none⟩, none,
    ⟨[], [], none, none, .origin⟩, none, .origin⟩

/-- The types after numbers got that method. -/
def comparingTypes : Types :=
  Types.standard.addMethod CoreType.int.id "==" (.user comparingMethod)

/-- Numbers have that method, and the second item of the first list is that list itself. -/
structure State.Knotted (s : State) : Prop where
  types : s.types = comparingTypes
  lists : s.lists = #[#[.int 1, .list ⟨0⟩]]

theorem comparingTypes_found : ∃ rest,
    comparingTypes.firstWith "==" (comparingTypes.ancestors CoreType.int.id) =
      some (CoreType.int.id, .user comparingMethod :: rest) := by
  have hint : (Types.standard.get? CoreType.int.id).isSome := by decide +kernel
  have hown : (Types.standard.method? CoreType.int.id "==").isNone := by decide +kernel
  have hhead : (comparingTypes.ancestors CoreType.int.id).head? = some CoreType.int.id := by
    decide +kernel
  have hmethod : comparingTypes.method? CoreType.int.id "==" = some [.user comparingMethod] := by
    obtain ⟨info, hinfo⟩ := Option.isSome_iff_exists.mp hint
    have hnone : info.methods.get? "==" = none := by
      simpa [Types.method?, hinfo] using hown
    unfold Types.get? at hinfo
    simp [comparingTypes, Types.addMethod, Types.method?, Types.get?, Types.modify, hinfo,
      Array.getElem?_modify, MethodTable.insert, Bindings.get?_set, hnone, Clause.insert]
  obtain ⟨rest, hrest⟩ := List.head?_eq_some_iff.mp hhead
  refine ⟨[], ?_⟩
  rw [hrest, Types.firstWith, hmethod]

/-- `0 == l` where the item `l` of the list is the list itself. -/
def knottedCall (span : Span) : Call := ⟨.int 0, [.list ⟨0⟩], none, span⟩

namespace State.Knotted

variable {s : State}

theorem held (h : s.Knotted) (held : List Held) : Knotted { s with held } := ⟨h.types, h.lists⟩

theorem newScope (h : s.Knotted) (outer : ScopeId) : (s.newScope outer).2.Knotted :=
  ⟨h.types, h.lists⟩

theorem items (h : s.Knotted) : (s.items ⟨0⟩).toList = [.int 1, .list ⟨0⟩] := by
  simp [State.items, h.lists]

theorem answer (h : s.Knotted) : ∃ m rest, s.answer (.int 0) "==" false = .method m ∧
    m.clauses = .user comparingMethod :: rest := by
  obtain ⟨rest, hrest⟩ := comparingTypes_found
  refine ⟨⟨"==", CoreType.int.id, false, .user comparingMethod :: rest⟩, rest, ?_, rfl⟩
  have hinstance : s.instanceMethod? (.int 0) "==" =
      some ⟨"==", CoreType.int.id, false, .user comparingMethod :: rest⟩ := by
    simp only [instanceMethod?, methodAmong, typeOf, h.types, hrest, Option.map_some]
  simp [State.answer, ownMethod?, Value.type?, hinstance]

open Eval AsksFirst

theorem matches_first (h : s.Knotted) (ctx : Context) :
    AsksFirst (.send "==" (knottedCall .origin)) Knotted
      (matchSequence ctx comparingMethod.params.items [.list ⟨0⟩]) s := by
  have hcount : countFits comparingMethod.params.items 1 = true := by decide
  simp only [matchSequence, List.length_cons, List.length_nil, hcount, if_true]
  simp only [comparingMethod, matchAll]
  refine .bind ?_
  unfold matchPattern
  refine .after (a := [.int 1, .list ⟨0⟩]) (congrArg (fun l ↦ Step.done (.ok l) s) h.items) ?_
  -- The first item fits anything; the second one is the list itself, and is compared with 0.
  refine .keeping ?_
  simp only [matchAll]
  refine .after (a := some []) (by unfold matchPattern; rfl) (.bind ?_)
  unfold matchPattern
  refine .bind (.keeping ?_)
  exact .bind (.keeping (.perform ((h.held _).held _ |>.held _)))

theorem asks_again (h : s.Knotted) (span : Span) :
    ∃ s' resume, (Task.send "==" (knottedCall span)).work s =
      .wait (.send "==" (knottedCall .origin)) s' resume ∧ s'.Knotted := by
  obtain ⟨m, rest, hanswer, hclauses⟩ := h.answer
  have asks : AsksFirst (.send "==" (knottedCall .origin)) Knotted
      (deliver "==" (knottedCall span)) s := by
    refine .after (a := .method m) (congrArg (fun a ↦ Step.done (.ok a) s) hanswer) ?_
    dsimp only
    rw [invoke, hclauses, runClauses]
    refine .bind ?_
    unfold bindClause
    have htakes : comparingMethod.params.takes (knottedCall span).args.length = true := rfl
    rw [if_pos htakes]
    refine .after (a := s.scopes.fresh) rfl (.bind (.keeping (.bind ?_)))
    exact matches_first ((h.newScope _).held _) _
  obtain ⟨s', resume, hx, hs'⟩ := asks
  exact ⟨s', _, by rw [Task.work, answering, bind_apply, hx]; rfl, hs'⟩

theorem never_ends (h : s.Knotted) (span : Span) (ps : List Pending) (n : Nat) :
    (Machine.mk (.send "==" (knottedCall span)) ((Task.send "==" (knottedCall span)).work s)
      ps).run n = none := by
  induction n generalizing s span ps with
  | zero => rfl
  | succ n ih =>
    obtain ⟨s', resume, hx, hs'⟩ := h.asks_again span
    rw [hx]
    exact ih hs' .origin _

end State.Knotted

def knottedProgram : Program :=
  ⟨[⟨.binary .eq ⟨.literal (.int 0), .origin⟩ ⟨.name "l", .origin⟩, .origin⟩], .origin⟩

/-- Where `l` is the list that contains itself. -/
def knottedState : State :=
  let s : State := .initial ⟨some 1000, 100, false⟩
  let knotted := { s with types := comparingTypes, lists := #[#[.int 1, .list ⟨0⟩]] }
  knotted.define State.mainScope "l" (.list ⟨0⟩)

/-- So a program within a step limit need not end: comparing an argument with a pattern counts
neither as a step nor as a call. -/
theorem limited_run_need_not_end : ¬ ∀ (i : Interpreter) (p : Program) (l : Nat),
    i.state.config.stepLimit = some l → ∃ fuel, (i.run p fuel).isSome := by
  intro h
  obtain ⟨fuel, hfuel⟩ := h ⟨knottedState⟩ knottedProgram 1000 rfl
  obtain ⟨o, s, hrun, -⟩ := Interpreter.run_isSome.mp hfuel
  obtain ⟨s', ps, hwalk, hknotted⟩ : ∃ s' ps,
      ((Interpreter.mk knottedState).machine knottedProgram).walk 6 =
        ⟨.send "==" (knottedCall .origin), (Task.send "==" (knottedCall .origin)).work s', ps⟩ ∧
        s'.Knotted := ⟨_, _, rfl, rfl, rfl⟩
  have never := run_none_of_reaches (reaches_walk 6 _) fun n ↦ by
    rw [hwalk]
    exact hknotted.never_ends .origin ps n
  cases hrun.symm.trans (never fuel)

end Quill
