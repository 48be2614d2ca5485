import Quill.Proofs.Composition
import Quill.Proofs.Reach

/-!
# The course of work

Work that ends has waited for a number of tasks, one after the other. Its course lists them with the
states before and after each. What the work does to the variables itself, it does between them.
-/

namespace Quill

/-- A task that was done, from its beginning to its end. -/
structure Episode where
  task : Task
  before : State
  outcome : Outcome Value
  after : State

namespace Step

variable {α β : Type}

/-- Work ends with an outcome in a state, after it waited for these tasks. -/
inductive Course : Step α → List Episode → Outcome α → State → Prop
  | done {o : Outcome α} {s : State} : Course (.done o s) [] o s
  | wait {t : Task} {s s₁ s' : State} {resume : Resume α} {n : Nat} {o₁ : Outcome Value}
      {es : List Episode} {o : Outcome α} : (Machine.start t s).run n = some (o₁, s₁) →
      Course (resume o₁ s₁) es o s' → Course (.wait t s resume) (⟨t, s, o₁, s₁⟩ :: es) o s'

theorem exists_course {x : Step α} {fuel n : Nat} {o : Outcome α} {s : State}
    (h : x.finish fuel n = some (o, s)) : ∃ es, x.Course es o s := by
  induction x generalizing n with
  | done o' s' =>
    cases n <;> cases h <;> exact ⟨[], .done⟩
  | wait t s' resume ih =>
    cases n with
    | zero => cases h
    | succ n =>
      obtain ⟨⟨o₁, s₁⟩, hrun, hrest⟩ := Option.bind_eq_some_iff.mp h
      obtain ⟨es, hes⟩ := ih o₁ s₁ hrest
      exact ⟨_, .wait hrun hes⟩

namespace Course

variable {es : List Episode} {s s' : State}

theorem of_done {o o' : Outcome α} (h : (Step.done o s).Course es o' s') :
    es = [] ∧ o' = o ∧ s' = s := by
  cases h
  exact ⟨rfl, rfl, rfl⟩

theorem bind {x : Step α} {f : α → State → Step β} {o : Outcome β}
    (h : (x.bind f).Course es o s') :
    (∃ u, o = .error u ∧ x.Course es (.error u) s') ∨
    ∃ a es₁ es₂ s₁, es = es₁ ++ es₂ ∧ x.Course es₁ (.ok a) s₁ ∧ (f a s₁).Course es₂ o s' := by
  induction x generalizing es with
  | done o' s₁ =>
    cases o' with
    | ok a => exact .inr ⟨a, [], es, s₁, rfl, .done, h⟩
    | error u =>
      obtain ⟨rfl, rfl, rfl⟩ := of_done h
      exact .inl ⟨u, rfl, .done⟩
  | wait t s₁ resume ih =>
    cases h with
    | wait hrun hrest =>
      obtain ⟨u, ho, hx⟩ | ⟨a, es₁, es₂, s₂, rfl, hx, hf⟩ := ih _ _ hrest
      · exact .inl ⟨u, ho, .wait hrun hx⟩
      · exact .inr ⟨a, _, es₂, s₂, rfl, .wait hrun hx, hf⟩

theorem attempt {x : Step α} {o : Outcome (Outcome α)} (h : x.attempt.Course es o s') :
    ∃ o', o = .ok o' ∧ x.Course es o' s' := by
  induction x generalizing es with
  | done o' s₁ =>
    obtain ⟨rfl, rfl, rfl⟩ := of_done h
    exact ⟨o', rfl, .done⟩
  | wait t s₁ resume ih =>
    cases h with
    | wait hrun hrest =>
      obtain ⟨o', ho, hx⟩ := ih _ _ hrest
      exact ⟨o', ho, .wait hrun hx⟩

theorem restoring {x : Step α} {held : List Held} {o : Outcome α}
    (h : (x.restoring held).Course es o s') : ∃ s₁, x.Course es o s₁ ∧ s' = { s₁ with held } := by
  induction x generalizing es with
  | done o' s₁ =>
    obtain ⟨rfl, rfl, rfl⟩ := of_done h
    exact ⟨s₁, .done, rfl⟩
  | wait t s₁ resume ih =>
    cases h with
    | wait hrun hrest =>
      obtain ⟨s₂, hx, hs⟩ := ih _ _ hrest
      exact ⟨s₂, .wait hrun hx, hs⟩

theorem restore {x : Step α} {o : Outcome α} (held : List Held) (h : x.Course es o s') :
    (x.restoring held).Course es o { s' with held } := by
  induction h with
  | done => exact .done
  | wait hrun _ ih => exact .wait hrun ih

end Course

end Step

section

variable {ω : Type} {view : Scopes Value → ω}

/-- What `view` shows of the variables changes only while one of the tasks is done. -/
def Untouched (view : Scopes Value → ω) : State → List Episode → State → Prop
  | s, [], s' => view s'.scopes = view s.scopes
  | s, e :: es, s' => view e.before.scopes = view s.scopes ∧ Untouched view e.after es s'

namespace Untouched

variable {s s₀ s₁ s' : State} {es es' : List Episode}

theorem of_same (h : Untouched view s es s') (hs : view s.scopes = view s₀.scopes) :
    Untouched view s₀ es s' := by
  cases es with
  | nil => exact Eq.trans h hs
  | cons e es => exact ⟨h.1.trans hs, h.2⟩

theorem append (h : Untouched view s es s₁) (h' : Untouched view s₁ es' s') :
    Untouched view s (es ++ es') s' := by
  induction es generalizing s with
  | nil => exact h'.of_same h
  | cons e es ih => exact ⟨h.1, ih h.2⟩

theorem to_same (h : Untouched view s es s₁) (hs : view s'.scopes = view s₁.scopes) :
    Untouched view s es s' := by
  have hnil : Untouched view s₁ [] s' := hs
  simpa only [List.append_nil] using h.append hnil

theorem part {υ : Type} (f : ω → υ) (h : Untouched view s es s') :
    Untouched (fun scopes ↦ f (view scopes)) s es s' := by
  induction es generalizing s with
  | nil => exact congrArg f h
  | cons e es ih => exact ⟨congrArg f h.1, ih h.2⟩

theorem through (view : Scopes Value → ω) (h : Untouched id s es s') : Untouched view s es s' :=
  h.part view

/-- If it does not change while one of the tasks is done either, it does not change at all. -/
theorem same (h : Untouched view s es s')
    (he : ∀ e ∈ es, view e.after.scopes = view e.before.scopes) :
    view s'.scopes = view s.scopes := by
  induction es generalizing s with
  | nil => exact h
  | cons e es ih =>
    obtain ⟨hfirst, hrest⟩ := List.forall_mem_cons.mp he
    exact (ih h.2 hrest).trans (hfirst.trans h.1)

end Untouched

namespace Eval

variable {α β : Type} {P : α → Prop} {R : β → Prop} {s s' : State} {es : List Episode}

/-- The work does not touch what `view` shows, and if it has a value, that is as `P` says. -/
def Quiet (view : Scopes Value → ω) (P : α → Prop) (x : Eval α) : Prop :=
  ∀ s es o s', (x s).Course es o s' → Untouched view s es s' ∧ ∀ a, o = .ok a → P a

namespace Quiet

theorem bind_course {x : Eval α} {f : α → Eval β} {o : Outcome β} (hx : Quiet view P x)
    (h : ((x >>= f) s).Course es o s') :
    (∃ u, o = .error u ∧ (x s).Course es (.error u) s' ∧ Untouched view s es s') ∨
    ∃ a es₁ es₂ s₁, es = es₁ ++ es₂ ∧ (x s).Course es₁ (.ok a) s₁ ∧ P a ∧
      Untouched view s es₁ s₁ ∧ (f a s₁).Course es₂ o s' := by
  rw [bind_apply] at h
  obtain ⟨u, ho, hu⟩ | ⟨a, es₁, es₂, s₁, hes, ha, hf⟩ := h.bind
  · exact .inl ⟨u, ho, hu, (hx _ _ _ _ hu).1⟩
  · have hq := hx _ _ _ _ ha
    exact .inr ⟨a, es₁, es₂, s₁, hes, ha, hq.2 a rfl, hq.1, hf⟩

theorem mono {Q : α → Prop} {x : Eval α} (hx : Quiet view P x) (h : ∀ a, P a → Q a) :
    Quiet view Q x := by
  intro s es o s' hc
  have hq := hx s es o s' hc
  exact ⟨hq.1, fun a ha ↦ h a (hq.2 a ha)⟩

theorem pure {a : α} (h : P a) : Quiet view P (Pure.pure a : Eval α) := by
  intro s es o s' hc
  obtain ⟨rfl, rfl, rfl⟩ := hc.of_done
  refine ⟨rfl, fun b hb ↦ ?_⟩
  cases hb
  exact h

theorem bind {x : Eval α} {f : α → Eval β} (hx : Quiet view P x)
    (hf : ∀ a, P a → Quiet view R (f a)) : Quiet view R (x >>= f) := by
  intro s es o s' hc
  obtain ⟨u, rfl, -, hu⟩ | ⟨a, es₁, es₂, s₁, rfl, -, ha, hq, hrest⟩ := hx.bind_course hc
  · exact ⟨hu, nofun⟩
  · have hr := hf a ha s₁ es₂ o s' hrest
    exact ⟨hq.append hr.1, hr.2⟩

theorem read (f : State → α) : Quiet view (fun _ ↦ True) (read f) := by
  intro s es o s' hc
  obtain ⟨rfl, rfl, rfl⟩ := hc.of_done
  exact ⟨rfl, fun _ _ ↦ trivial⟩

theorem unwind (u : Unwind) : Quiet view P (unwind u : Eval α) := by
  intro s es o s' hc
  obtain ⟨rfl, rfl, rfl⟩ := hc.of_done
  exact ⟨rfl, nofun⟩

theorem change {f : State → α × State} (h : ∀ s, view (f s).2.scopes = view s.scopes) :
    Quiet view (fun _ ↦ True) (modifyGet f : Eval α) := by
  intro s es o s' hc
  obtain ⟨rfl, rfl, rfl⟩ := hc.of_done
  exact ⟨h s, fun _ _ ↦ trivial⟩

theorem perform (t : Task) : Quiet view (fun _ ↦ True) (perform t) := by
  intro s es o s' hc
  cases hc with
  | wait hrun hrest =>
    obtain ⟨rfl, rfl, rfl⟩ := hrest.of_done
    exact ⟨⟨rfl, rfl⟩, fun _ _ ↦ trivial⟩

theorem keeping (h : Held) {x : Eval α} (hx : Quiet view P x) : Quiet view P (keeping h x) := by
  intro s es o s' hc
  obtain ⟨s₁, hx', rfl⟩ := Step.Course.restoring hc
  have hq := hx _ _ _ _ hx'
  have hu : Untouched view s es s₁ := hq.1.of_same rfl
  exact ⟨hu.to_same rfl, hq.2⟩

theorem holding (vs : List Value) {x : Eval α} (hx : Quiet view P x) :
    Quiet view P (holding vs x) := keeping _ hx

theorem attempt {x : Eval α} (hx : Quiet view P x) :
    Quiet view (fun _ ↦ True) (attempt x) := by
  intro s es o s' hc
  obtain ⟨o', rfl, hx'⟩ := Step.Course.attempt hc
  exact ⟨(hx _ _ _ _ hx').1, fun _ _ ↦ trivial⟩

end Quiet

end Eval

end

end Quill
