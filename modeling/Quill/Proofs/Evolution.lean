import Quill.Proofs.Composition.Task
import Quill.Proofs.Reach

/-!
# How work changes the state

Between two waits, composed work only makes changes and puts things on hold. So a relation that
these respect holds along every stretch of work. The limits, the stacks and the count of steps do
not change at all. A relation that also spans every task spans all that an interpreter does.
-/

namespace Quill

namespace State

/-- A relation between earlier and later states that changes and holding respect. -/
structure Stable (R : State → State → Prop) : Prop where
  refl (s : State) : R s s
  trans {s s' s'' : State} : R s s' → R s' s'' → R s s''
  change {α : Type} {f : State → α × State} : Change f → ∀ s, R s (f s).2
  held (s : State) (held : List Held) : R s { s with held }

/-- A stable relation that counting a step and putting something on a stack respect, too. -/
structure Enduring (R : State → State → Prop) : Prop extends Stable R where
  counted (s : State) : R s { s with steps := s.steps + 1 }
  framed (s : State) (frames : Array CallFrame) : R s { s with frames }
  rescued (s : State) (rescuing : List Raised) : R s { s with rescuing }

theorem Enduring.and {R R' : State → State → Prop} (h : Enduring R) (h' : Enduring R') :
    Enduring fun s s' ↦ R s s' ∧ R' s s' where
  refl s := ⟨h.refl s, h'.refl s⟩
  trans hs hs' := ⟨h.trans hs.1 hs'.1, h'.trans hs.2 hs'.2⟩
  change hf s := ⟨h.change hf s, h'.change hf s⟩
  held s held := ⟨h.held s held, h'.held s held⟩
  counted s := ⟨h.counted s, h'.counted s⟩
  framed s frames := ⟨h.framed s frames, h'.framed s frames⟩
  rescued s rescuing := ⟨h.rescued s rescuing, h'.rescued s rescuing⟩

/-- A relation that holds between the beginning of a task and its end. -/
def Spans (R : State → State → Prop) : Prop :=
  ∀ t s n o s', (Machine.start t s).run n = some (o, s') → R s s'

structure SameControl (s s' : State) : Prop where
  config : s'.config = s.config
  frames : s'.frames = s.frames
  rescuing : s'.rescuing = s.rescuing
  steps : s'.steps = s.steps

theorem SameControl.trans {s s' s'' : State} (h : SameControl s s') (h' : SameControl s' s'') :
    SameControl s s'' :=
  ⟨h'.config.trans h.config, h'.frames.trans h.frames, h'.rescuing.trans h.rescuing,
    h'.steps.trans h.steps⟩

theorem Change.sameControl {α : Type} {f : State → α × State} (h : Change f) (s : State) :
    SameControl s (f s).2 := by
  cases h with
  | letGo name t =>
    obtain ⟨types, h⟩ := s.letGoAround_eq name t
    simp only [h]
    exact ⟨rfl, rfl, rfl, rfl⟩
  | _ => exact ⟨rfl, rfl, rfl, rfl⟩

theorem sameControl_stable : Stable SameControl where
  refl _ := ⟨rfl, rfl, rfl, rfl⟩
  trans := .trans
  change := Change.sameControl
  held _ _ := ⟨rfl, rfl, rfl, rfl⟩

end State

namespace Step

variable {α β : Type} {R : State → State → Prop}

/-- Whenever the work goes on, it changes the state as `R` says until it waits or is done. -/
def Evolves (R : State → State → Prop) : Step α → State → Prop
  | done _ s, s₀ => R s₀ s
  | wait _ s resume, s₀ => R s₀ s ∧ ∀ o s', (resume o s').Evolves R s'

namespace Evolves

theorem state {x : Step α} {s : State} (h : x.Evolves R s) : R s x.state := by
  cases x with
  | done o s' => exact h
  | wait t s' resume => exact h.1

theorem of_earlier (hR : State.Stable R) {x : Step α} {s s' : State} (h : R s s')
    (hx : x.Evolves R s') : x.Evolves R s := by
  cases x with
  | done o s'' => exact hR.trans h hx
  | wait t s'' resume => exact ⟨hR.trans h hx.1, hx.2⟩

theorem bind (hR : State.Stable R) {x : Step α} {f : α → State → Step β} {s : State}
    (hx : x.Evolves R s) (hf : ∀ a s', (f a s').Evolves R s') : (x.bind f).Evolves R s := by
  induction x generalizing s with
  | done o s' =>
    cases o with
    | ok a => exact of_earlier hR hx (hf a s')
    | error u => exact hx
  | wait t s' resume ih => exact ⟨hx.1, fun o s'' ↦ ih o s'' (hx.2 o s'')⟩

theorem attempt {x : Step α} {s : State} (hx : x.Evolves R s) : x.attempt.Evolves R s := by
  induction x generalizing s with
  | done o s' => exact hx
  | wait t s' resume ih => exact ⟨hx.1, fun o s'' ↦ ih o s'' (hx.2 o s'')⟩

theorem restoring (hR : State.Stable R) (before : List Held) {x : Step α} {s : State}
    (hx : x.Evolves R s) : (x.restoring before).Evolves R s := by
  induction x generalizing s with
  | done o s' => exact hR.trans hx (hR.held s' before)
  | wait t s' resume ih => exact ⟨hx.1, fun o s'' ↦ ih o s'' (hx.2 o s'')⟩

theorem finish (hR : State.Stable R) (hspans : State.Spans R) {x : Step α} {s s' : State}
    {fuel n : Nat} {o : Outcome α} (hx : x.Evolves R s) (h : x.finish fuel n = some (o, s')) :
    R s s' := by
  induction x generalizing s n with
  | done o' s₁ =>
    cases n <;> cases h <;> exact hx
  | wait t s₁ resume ih =>
    cases n with
    | zero => cases h
    | succ n =>
      obtain ⟨⟨o₂, s₂⟩, hrun, hrest⟩ := Option.bind_eq_some_iff.mp h
      have before := hR.trans hx.1 (hspans t s₁ fuel o₂ s₂ hrun)
      exact hR.trans before (ih o₂ s₂ (hx.2 o₂ s₂) hrest)

end Evolves

end Step

namespace Eval

variable {α : Type} {R : State → State → Prop}

theorem Composed.evolves (hR : State.Stable R) {k : Kind} {x : Eval α} (h : Composed k x)
    (s : State) : (x s).Evolves R s := by
  induction h generalizing s with
  | pure a => exact hR.refl s
  | @bind k α β x f hx hf ihx ihf =>
    rw [bind_apply]
    exact (ihx s).bind hR ihf
  | read hf => exact hR.refl s
  | change hf => exact hR.change hf s
  | unwind => exact hR.refl s
  | perform => exact ⟨hR.refl s, fun o s' ↦ hR.refl s'⟩
  | keeping h hx ih =>
    exact .restoring hR _ (.of_earlier hR (hR.held s _) (ih _))
  | @caught k α β x f hk hx hok herr hhalt ihx ihok iherr =>
    rw [bind_apply]
    refine (ihx s).attempt.bind hR fun o s' ↦ ?_
    cases o with
    | ok a => exact ihok a s'
    | error u =>
      cases u with
      | halt l => rw [hhalt l]; exact hR.refl s'
      | _ => exact iherr _ rfl s'

theorem Composed.spans (hR : State.Stable R) (hspans : State.Spans R) {k : Kind} {x : Eval α}
    (hx : Composed k x) {fuel : Nat} {s s' : State} {o : Outcome α}
    (h : x.run fuel s = some (o, s')) : R s s' :=
  (hx.evolves hR s).finish hR hspans h

end Eval

theorem Task.describe_evolves {R : State → State → Prop} (hR : State.Stable R) (v : Value)
    (s : State) : ((describe v).work s).Evolves R s := by
  rw [work_describe]
  have found := (Eval.Composed.inspect (k := .closed) v).evolves hR s
  exact found.attempt.bind hR fun o s' ↦ by cases o <;> exact hR.refl s'

section

variable {R : State → State → Prop}

theorem Task.work_evolves (hR : State.Enduring R) (t : Task) (s : State) :
    (t.work s).Evolves R s := by
  cases t with
  | eval e ctx =>
    rw [work_eval]
    apply Step.Evolves.of_earlier hR.toStable (hR.counted s)
    obtain h | ⟨l, -, -, h⟩ := Eval.tick_cases s <;> rw [h]
    · exact (Eval.Composed.answering (.expression e ctx)).evolves hR.toStable _
    · exact hR.refl _
  | framed frame t =>
    rw [work_framed]
    split
    · exact hR.refl s
    · exact ⟨hR.framed s _, fun o s' ↦ hR.framed s' _⟩
  | handling r t =>
    rw [work_handling]
    exact ⟨hR.rescued s _, fun o s' ↦ hR.rescued s' _⟩
  | describe v => exact describe_evolves hR.toStable v s
  | _ => exact (composed _ rfl).evolves hR.toStable s

namespace Machine

variable {t : Task} {s s' : State} {m m' : Machine} {o : Outcome Value} {n : Nat}

theorem evolves_kept (hR : State.Enduring R) :
    Kept (fun _ ↦ ()) fun m ↦ ∃ s, m.work.Evolves R s where
  starts {_ t' s _ _} _ := ⟨s, t'.work_evolves hR s⟩
  resumes {_ _ _ _ s' _ _ o} h _ _ := ⟨s', h.choose_spec.2 o s'⟩
  givesWay {_ t' s _} _ := ⟨⟨s, t'.work_evolves hR s⟩, rfl⟩

theorem Reaches.evolves (hR : State.Enduring R) (h : (start t s).Reaches m) (h' : m.Reaches m') :
    R m.work.state m'.work.state := by
  induction h' with
  | refl => exact hR.refl _
  | @tail m₁ m₂ hr hn ih =>
    refine hR.trans ih ?_
    obtain ⟨t', s', resume, hx, rfl⟩ | ⟨t', s', hx, rfl⟩ | ⟨o, s', p, ps, hx, hw, rfl⟩ :=
      next_cases hn <;> rw [hx]
    · exact (t'.work_evolves hR s').state
    · exact (t'.work_evolves hR s').state
    · have reached : (start t s).Reaches m₁ := h.trans hr
      obtain ⟨t', s₁, ⟨s₀, hwait⟩, -⟩ :=
        (evolves_kept hR).awaited ⟨s, t.work_evolves hR s⟩ reached hw
      exact (hwait.2 o s').state

theorem Reaches.evolves_start (hR : State.Enduring R) (h : (start t s).Reaches m) :
    R s m.work.state := hR.trans (t.work_evolves hR s).state (Reaches.evolves hR .refl h)

end Machine

theorem State.Enduring.spans (hR : State.Enduring R) : State.Spans R := by
  intro t s n o s' h
  obtain ⟨m, hr, he⟩ := Machine.run_iff.mp ⟨n, h⟩
  have hend := hr.evolves_start hR
  rwa [(Machine.next_inr he).1] at hend

end

namespace Interpreter

variable {R : State → State → Prop} {i i' : Interpreter} {fuel : Nat}

theorem perform_spans (hR : State.Stable R) (hspans : State.Spans R) {α : Type} {k : Kind}
    {work : Eval α} (hw : Eval.Composed k work) {o : Outcome α}
    (h : i.perform work fuel = some (o, i')) : R i.state i'.state := by
  obtain ⟨⟨o', s'⟩, hrun, heq⟩ := Option.map_eq_some_iff.mp h
  cases heq
  exact hw.spans hR hspans hrun

theorem result_spans (hR : State.Stable R) (hspans : State.Spans R) {o : Outcome Value}
    {span : Span} {r : Result} (h : i.result o span fuel = some (r, i')) :
    R i.state i'.state := by
  obtain rfl | ⟨raised, text, -, hperform | hperform⟩ := result_cases h
  · exact hR.refl _
  · exact perform_spans (k := .closed) hR hspans (.holding _ (.display _)) hperform
  · exact perform_spans (k := .closed) hR hspans (.inspect _) hperform

theorem run_spans (hR : State.Enduring R) {p : Program} {r : Result}
    (h : i.run p fuel = some (r, i')) : R i.rested.state i'.state := by
  obtain ⟨o, s, j, hbody, hresult, rfl⟩ := run_eq_some.mp h
  have hshown : R s j.state := result_spans hR.toStable hR.spans hresult
  exact hR.trans (hR.trans (hR.spans _ _ _ _ _ hbody) hshown) (hR.framed j.state _)

end Interpreter

end Quill
