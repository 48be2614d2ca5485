import Quill.Proofs.Clauses
import Quill.Proofs.Evaluation

/-!
# Work that only asks

Some work does nothing but ask for tasks, a limited number of them, and come to a value by what they
answer. It lets pass whatever unwinds. So all that happens while it goes on happens in the tasks.
-/

namespace Quill

namespace State

/-- Nothing is different but what is held. -/
def AsBefore (s s' : State) : Prop := ∃ held, s' = { s with held }

namespace AsBefore

variable {s s' : State}

theorem held (h : s.AsBefore s') (held : List Held) : s.AsBefore { s' with held } := by
  obtain ⟨_, rfl⟩ := h
  exact ⟨held, rfl⟩

end AsBefore

instance : Lax AsBefore where
  refl s := ⟨s.held, rfl⟩
  trans h h' := by
    obtain ⟨held, rfl⟩ := h'
    exact h.held held
  held s held := ⟨held, rfl⟩

end State

/-- All the tasks had values if there is one in the end, and else all but the last. As that one
unwound, all ends. -/
def LetsPass {α : Type} (es : List Episode) : Outcome α → Prop
  | .ok _ => ∀ e ∈ es, ∃ v, e.outcome = .ok v
  | .error u => ∃ before e, es = before ++ [e] ∧ (∀ e ∈ before, ∃ v, e.outcome = .ok v) ∧
    e.outcome = .error u

theorem LetsPass.cons {α : Type} {e : Episode} {es : List Episode} {o : Outcome α} {v : Value}
    (he : e.outcome = .ok v) (h : LetsPass es o) : LetsPass (e :: es) o := by
  cases o with
  | ok a => exact List.forall_mem_cons.mpr ⟨⟨v, he⟩, h⟩
  | error u =>
    obtain ⟨before, last, rfl, hbefore, hlast⟩ := h
    exact ⟨e :: before, last, rfl, List.forall_mem_cons.mpr ⟨⟨v, he⟩, hbefore⟩, hlast⟩

namespace Step

variable {α β : Type} {A : Task → Prop} {P : α → Prop} {Q : β → Prop} {n k : Nat}
  {s s' : State} {x : Step α}

/-- From `s` on the work asks for `n` tasks of `A` at most, and changes nothing. Unless one of them
unwinds, it has a value as `P` says. -/
inductive Consults (A : Task → Prop) (P : α → Prop) : Nat → State → Step α → Prop
  | value {n : Nat} {s s' : State} {a : α} : s.AsBefore s' → P a →
      Consults A P n s (.done (.ok a) s')
  | ask {n : Nat} {s s' : State} {t : Task} {resume : Resume α} : s.AsBefore s' → A t →
      (∀ v s₁, Consults A P n s₁ (resume (.ok v) s₁)) →
      (∀ u s₁, ∃ s₂, s₁.AsBefore s₂ ∧ resume (.error u) s₁ = .done (.error u) s₂) →
      Consults A P (n + 1) s (.wait t s' resume)

namespace Consults

theorem of_earlier (hs : s.AsBefore s') (h : x.Consults A P n s') : x.Consults A P n s := by
  cases h with
  | value hs' ha => exact .value (State.Lax.trans hs hs') ha
  | ask hs' ht hv hu => exact .ask (State.Lax.trans hs hs') ht hv hu

theorem mono (h : x.Consults A P n s) {P' : α → Prop} (hP : ∀ a, P a → P' a) (hn : n ≤ k) :
    x.Consults A P' k s := by
  induction h generalizing k with
  | value hs ha => exact .value hs (hP _ ha)
  | ask hs ht _ hu ih =>
    obtain ⟨k, rfl⟩ := Nat.exists_eq_add_of_lt hn
    exact .ask hs ht (fun v s₁ ↦ ih v s₁ (by omega)) hu

theorem bind {f : α → State → Step β} (h : x.Consults A P n s)
    (hf : ∀ a s', P a → (f a s').Consults A Q k s') : (x.bind f).Consults A Q (n + k) s := by
  induction h with
  | value hs ha => exact (of_earlier hs (hf _ _ ha)).mono (fun _ h ↦ h) (Nat.le_add_left _ _)
  | ask hs ht _ hu ih =>
    rw [Nat.add_right_comm]
    refine .ask hs ht ih fun u s₁ ↦ ?_
    obtain ⟨s₂, hs₂, hu⟩ := hu u s₁
    exact ⟨s₂, hs₂, by rw [hu]; rfl⟩

theorem restoring (before : List Held) (h : x.Consults A P n s) :
    (x.restoring before).Consults A P n s := by
  induction h with
  | value hs ha => exact .value (hs.held before) ha
  | ask hs ht _ hu ih =>
    refine .ask hs ht ih fun u s₁ ↦ ?_
    obtain ⟨s₂, hs₂, hu⟩ := hu u s₁
    exact ⟨_, hs₂.held before, by rw [hu]; rfl⟩

theorem asks {es : List Episode} {t : Task} {resume : Resume α} (h : x.Consults A P n s)
    (hx : x.Comes es (.wait t s' resume)) : A t := by
  induction h generalizing es with
  | value _ _ => cases hx.of_done.2
  | ask _ ht _ hu ih =>
    cases hx with
    | here => exact ht
    | @wait _ _ s₁ _ _ o₁ _ _ _ hrest =>
      cases o₁ with
      | ok v => exact ih v s₁ hrest
      | error u =>
        obtain ⟨s₂, -, hu⟩ := hu u s₁
        rw [hu] at hrest
        cases hrest.of_done.2

theorem course {es : List Episode} {o : Outcome α} (h : x.Consults A P n s)
    (hx : x.Course es o s') :
    es.length ≤ n ∧ (∀ e ∈ es, A e.task) ∧ LetsPass es o ∧ Along State.AsBefore s es s' ∧
      ∀ a, o = .ok a → P a := by
  induction h generalizing es with
  | value hs ha =>
    obtain ⟨rfl, rfl, rfl⟩ := hx.of_done
    refine ⟨Nat.zero_le _, List.forall_mem_nil _, List.forall_mem_nil _, hs, fun a ho ↦ ?_⟩
    cases ho
    exact ha
  | ask hs ht _ hu ih =>
    cases hx with
    | @wait _ _ s₁ _ _ _ o₁ _ _ _ hrest =>
      cases o₁ with
      | ok v =>
        obtain ⟨hlength, htasks, hpass, halong, hP⟩ := ih v s₁ hrest
        exact ⟨Nat.succ_le_succ hlength, List.forall_mem_cons.mpr ⟨ht, htasks⟩, hpass.cons rfl,
          ⟨hs, halong⟩, hP⟩
      | error u =>
        obtain ⟨s₂, hs₂, hu⟩ := hu u s₁
        rw [hu] at hrest
        obtain ⟨rfl, rfl, rfl⟩ := hrest.of_done
        exact ⟨Nat.succ_le_succ (Nat.zero_le _), List.forall_mem_singleton.mpr ht,
          ⟨[], _, rfl, List.forall_mem_nil _, rfl⟩, ⟨hs, hs₂⟩, nofun⟩

end Consults

theorem Comes.restoring {es : List Episode} {y : Step α} (h : x.Comes es y) (before : List Held) :
    (x.restoring before).Comes es (y.restoring before) := by
  induction h with
  | here => exact .here
  | wait hrun _ ih => exact .wait hrun ih

theorem Comes.gives {es es' : List Episode} {t : Task} {s₁ : State} {resume : Resume α}
    {o : Outcome α} (h : x.Comes es (.wait t s₁ resume)) (hx : x.Course es' o s') :
    ∃ o s, t.Gives s₁ o s := by
  obtain ⟨_, -, hrest⟩ := h.course hx
  cases hrest with
  | wait hrun _ => exact ⟨_, _, _, hrun⟩

theorem exists_course_of_comes (x : Step α)
    (h : ∀ es t s resume, x.Comes es (.wait t s resume) → ∃ o s', t.Gives s o s') :
    ∃ es o s', x.Course es o s' := by
  induction x with
  | done o s => exact ⟨[], o, s, .done⟩
  | wait t s resume ih =>
    obtain ⟨o₁, s₁, n, hrun⟩ := h [] t s resume .here
    obtain ⟨es, o, s', hrest⟩ := ih o₁ s₁ fun es t' s₂ resume' hcomes ↦
      h _ t' s₂ resume' (.wait hrun hcomes)
    exact ⟨_, o, s', .wait hrun hrest⟩

end Step

namespace Eval

variable {α β : Type} {A : Task → Prop} {P : α → Prop} {Q : β → Prop} {n k : Nat}

/-- The work asks for `n` tasks of `A` at most, and changes nothing. Unless one of them unwinds, it
has a value as `P` says. -/
def Consults (A : Task → Prop) (P : α → Prop) (n : Nat) (x : Eval α) : Prop :=
  ∀ s, (x s).Consults A P n s

namespace Consults

theorem pure {a : α} (h : P a) : Consults A P n (Pure.pure a : Eval α) :=
  fun s ↦ .value (State.Lax.refl s) h

theorem mono {x : Eval α} (h : Consults A P n x) {P' : α → Prop} (hP : ∀ a, P a → P' a)
    (hn : n ≤ k) : Consults A P' k x := fun s ↦ (h s).mono hP hn

theorem bind {x : Eval α} {f : α → Eval β} (h : Consults A P n x)
    (hf : ∀ a, P a → Consults A Q k (f a)) : Consults A Q (n + k) (x >>= f) := by
  intro s
  rw [bind_apply]
  exact (h s).bind fun a s' ha ↦ hf a ha s'

theorem perform {t : Task} (h : A t) : Consults A (fun _ ↦ True) 1 (perform t) :=
  fun s ↦ .ask (State.Lax.refl s) h (fun _ s₁ ↦ .value (State.Lax.refl s₁) trivial)
    fun _ s₁ ↦ ⟨s₁, State.Lax.refl s₁, rfl⟩

theorem holding (vs : List Value) {x : Eval α} (h : Consults A P n x) :
    Consults A P n (holding vs x) :=
  fun s ↦ .restoring _ (.of_earlier (State.Lax.held s _) (h _))

theorem valuesEqual (a b : Value) (h : A (.send "==" ⟨a, [b], none, .origin⟩)) :
    Consults A (fun _ ↦ True) 1 (valuesEqual a b) := by
  unfold Eval.valuesEqual
  cases a.scalarEq? b with
  | some answer => exact .pure trivial
  | none => exact .bind (k := 0) (.holding _ (.perform h)) fun _ _ ↦ .pure trivial

end Consults

end Eval

end Quill
