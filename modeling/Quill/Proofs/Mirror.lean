import Quill.Proofs.Composition.Task

/-!
# The same work with another step limit

Composed work does the same whatever the step limit is: it ends or waits in states that differ in
nothing else (`Eval.Composed.mirrors`).
-/

namespace Quill

namespace State

variable (s : State) (l : Option Nat)

theorem references_limitFree : (s.withStepLimit l).references = s.references := by
  funext r
  cases r <;> rfl

theorem letGoOf_limitFree (n : Nat) (counts : Array Nat) (gone : List Referent) :
    (s.withStepLimit l).letGoOf n counts gone = s.letGoOf n counts gone := by
  induction n generalizing counts gone with
  | zero => rfl
  | succ n ih =>
    cases gone with
    | nil => rfl
    | cons r gone => simp only [letGoOf, references_limitFree, ih]

theorem counts_limitFree : (s.withStepLimit l).counts = s.counts := by
  unfold counts
  simp only [references_limitFree, letGoOf_limitFree]
  rfl

theorem leadsTo_limitFree (target : Referent) (n : Nat) (seen : Std.HashSet Nat)
    (new : List Referent) :
    (s.withStepLimit l).leadsTo target n seen new = s.leadsTo target n seen new := by
  induction n generalizing seen new with
  | zero => cases new <;> rfl
  | succ n ih =>
    cases new with
    | nil => rfl
    | cons r new => simp only [leadsTo, references_limitFree, ih]

theorem reaches_limitFree (given : List Referent) (target : Referent) :
    (s.withStepLimit l).reaches given target = s.reaches given target :=
  s.leadsTo_limitFree l target _ _ _

theorem isRetained_limitFree (t : TypeId) :
    (s.withStepLimit l).isRetained t = s.isRetained t := by
  simp only [isRetained, reaches_limitFree, counts_limitFree]
  rfl

theorem letGoWithin_withStepLimit (name : String) (n : Nat) (t : TypeId) :
    letGoWithin name n t (s.withStepLimit l) = (letGoWithin name n t s).withStepLimit l := by
  induction n generalizing t with
  | zero => rfl
  | succ n ih =>
    have htypes : (s.withStepLimit l).types = s.types := rfl
    simp only [letGoWithin, isRetained_limitFree, ih, htypes]
    split
    · rfl
    · cases s.types.parent t with
      | none => rfl
      | some outer =>
        dsimp only
        split <;> rfl

variable {s l}

theorem Change.withStepLimit {α : Type} {f : State → α × State} (h : Change f) (s : State)
    (l : Option Nat) : f (s.withStepLimit l) = ((f s).1, (f s).2.withStepLimit l) := by
  cases h with
  | @newList f hf =>
    have h := hf s l
    simp only [h]
    rfl
  | letGo name t =>
    have h := s.letGoWithin_withStepLimit l name (s.types.all.size + 1) t
    exact congrArg (Prod.mk ()) h
  | _ => rfl

end State

namespace Step

variable {α β : Type} {l : Option Nat}

/-- The other work does the same with the step limit `l`. -/
def Mirrors (l : Option Nat) : Step α → Step α → Prop
  | done o s, y => y = done o (s.withStepLimit l)
  | wait t s resume, y => ∃ resume', y = wait t (s.withStepLimit l) resume' ∧
      ∀ o s', (resume o s').Mirrors l (resume' o (s'.withStepLimit l))

namespace Mirrors

theorem bind {x y : Step α} {f : α → State → Step β} (h : x.Mirrors l y)
    (hf : ∀ a s, (f a s).Mirrors l (f a (s.withStepLimit l))) :
    (x.bind f).Mirrors l (y.bind f) := by
  induction x generalizing y with
  | done o s =>
    cases h
    cases o with
    | ok a => exact hf a s
    | error u => exact rfl
  | wait t s resume ih =>
    obtain ⟨resume', rfl, hr⟩ := h
    exact ⟨_, rfl, fun o s' ↦ ih o s' (hr o s')⟩

theorem attempt {x y : Step α} (h : x.Mirrors l y) : x.attempt.Mirrors l y.attempt := by
  induction x generalizing y with
  | done o s =>
    cases h
    exact rfl
  | wait t s resume ih =>
    obtain ⟨resume', rfl, hr⟩ := h
    exact ⟨_, rfl, fun o s' ↦ ih o s' (hr o s')⟩

theorem restoring (before : List Held) {x y : Step α} (h : x.Mirrors l y) :
    (x.restoring before).Mirrors l (y.restoring before) := by
  induction x generalizing y with
  | done o s =>
    cases h
    exact rfl
  | wait t s resume ih =>
    obtain ⟨resume', rfl, hr⟩ := h
    exact ⟨_, rfl, fun o s' ↦ ih o s' (hr o s')⟩

end Mirrors

end Step

namespace Eval

variable {α : Type}

theorem Composed.mirrors {k : Kind} {x : Eval α} (h : Composed k x) (l : Option Nat) (s : State) :
    (x s).Mirrors l (x (s.withStepLimit l)) := by
  induction h generalizing s with
  | pure a => exact rfl
  | @bind k α β x f hx hf ihx ihf =>
    rw [bind_apply, bind_apply]
    exact (ihx s).bind ihf
  | @read k α f hf =>
    change _ = Step.done (.ok (f s)) _
    rw [← hf s l]
    rfl
  | @change k α f hf =>
    change _ = Step.done (.ok (f s).1) _
    have h := hf.withStepLimit s l
    change Step.done (.ok (f (s.withStepLimit l)).1) (f (s.withStepLimit l)).2 = _
    rw [h]
  | unwind => exact rfl
  | perform => exact ⟨_, rfl, fun o s' ↦ rfl⟩
  | keeping h hx ih => exact (ih { s with held := h :: s.held }).restoring s.held
  | @caught k α β x f hk hx hok herr hhalt ihx ihok iherr =>
    rw [bind_apply, bind_apply]
    refine (ihx s).attempt.bind fun o s' ↦ ?_
    cases o with
    | ok a => exact ihok a s'
    | error u =>
      cases u with
      | halt l =>
        rw [hhalt l]
        exact rfl
      | _ => exact iherr _ rfl s'

end Eval

namespace Task

theorem work_mirrors {t : Task} {s : State} {l : Option Nat}
    (ht : ∀ e ctx, t = eval e ctx →
      Eval.tick s = .done (.ok ()) { s with steps := s.steps + 1 } ∧
      Eval.tick (s.withStepLimit l) =
        .done (.ok ()) ({ s with steps := s.steps + 1 }.withStepLimit l)) :
    (t.work s).Mirrors l (t.work (s.withStepLimit l)) := by
  cases t with
  | eval e ctx =>
    obtain ⟨h, h'⟩ := ht e ctx rfl
    rw [work_eval, work_eval, h, h']
    exact (Eval.Composed.answering (.expression e ctx)).mirrors l _
  | framed frame t =>
    rw [work_framed, work_framed]
    change Step.Mirrors l _ (if s.config.maxCallDepth ≤ s.frames.size then _ else _)
    split
    · exact rfl
    · exact ⟨_, rfl, fun o s' ↦ rfl⟩
  | handling r t =>
    rw [work_handling, work_handling]
    exact ⟨_, rfl, fun o s' ↦ rfl⟩
  | describe v =>
    rw [work_describe, work_describe]
    refine ((Eval.Composed.inspect (k := .closed) v).mirrors l s).attempt.bind fun o s' ↦ ?_
    cases o <;> exact rfl
  | _ => exact (composed _ rfl).mirrors l s

end Task

end Quill
