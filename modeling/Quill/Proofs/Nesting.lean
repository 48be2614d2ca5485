import Mathlib.Data.List.Chain
import Mathlib.Data.List.Induction
import Quill.Proofs.Asking
import Quill.Proofs.Jumps
import Quill.Proofs.Stacks

/-!
# How deep calls nest

The body of a method runs in a call of its own, and the limit bounds these. What is evaluated for a
message before its body is not in that call: guards, comparisons with the parameters, and texts for
an error message. Main statement: `calls_nest`.
-/

namespace Quill

namespace Machine

variable {t t' : Task} {s s' : State} {m : Machine} {asks : Task → Task → Prop}

/-- Who may wait for whom, without regard to which round of a loop they have come to. -/
structure Waits (asks : Task → Task → Prop) : Prop where
  work (t : Task) (s : State) : (t.work s).Awaits (asks t)
  family {t u u' : Task} : u'.family = u.family → asks t u → asks t u'

/-- What is known of a machine that has come to a task. -/
def Asking (asks : Task → Task → Prop) (m : Machine) : Prop :=
  m.work.Awaits (asks m.task) ∧ m.work.Ends fun r ↦ ∀ t, r = .task t → t.family = m.task.family

theorem asking_work (hw : Waits asks) (t : Task) (s : State) (ps : List Pending) :
    Asking asks ⟨t, t.work s, ps⟩ := ⟨hw.work t s, t.work_leads_family s⟩

theorem asking_kept (hw : Waits asks) : Kept Task.family (Asking asks) where
  starts _ := asking_work hw _ _ _
  resumes h _ _ := ⟨h.1.2 _ _, h.2 _ _⟩
  givesWay h := ⟨asking_work hw _ _ _, h.2 _ rfl _ rfl⟩

theorem chain_of_waiting {P : Machine → Prop}
    (hfamily : ∀ t u u', u'.family = u.family → asks t u → asks t u')
    (hP : ∀ m, P m → m.work.Awaits (asks m.task)) {root : Task} {ps : List Pending}
    (h : Kept.Waiting Task.family P root t ps) :
    (t :: ps.map (·.task)).IsChain (fun inner outer ↦ asks outer inner) ∧
      ∃ last, (t :: ps.map (·.task)).getLast? = some last ∧ last.family = root := by
  induction ps generalizing t with
  | nil => exact ⟨by simp, t, rfl, h⟩
  | cons p ps ih =>
    obtain ⟨⟨t₁, s₁, hp, hsame⟩, hrest⟩ := h
    obtain ⟨hchain, hlast⟩ := ih hrest
    have hasks : asks p.task t₁ := (hP _ hp).1
    exact ⟨by simpa using ⟨hfamily _ _ _ hsame hasks, hchain⟩, by simpa using hlast⟩

/-- Every task in progress may wait for the one inside of it, and the last is the first there
was. -/
theorem Reaches.chain (hw : Waits asks) (h : (start t s).Reaches m) :
    (m.task :: m.waitingTasks).IsChain (fun inner outer ↦ asks outer inner) ∧
      ∃ last, (m.task :: m.waitingTasks).getLast? = some last ∧ last.family = t.family := by
  have waiting := ((asking_kept hw).reaches_waiting (asking_work hw t s []) h).2
  refine chain_of_waiting ?_ (fun _ hm ↦ hm.1) waiting
  exact fun _ _ _ ↦ hw.family

theorem Reaches.chain_starts (hw : Waits asks) (h : (start t s).Reaches m)
    (hm : m.starts = some (t', s')) :
    (t' :: m.inProgress).IsChain (fun inner outer ↦ asks outer inner) ∧
      ∃ last, (t' :: m.inProgress).getLast? = some last ∧ last.family = t.family := by
  obtain ⟨ps, hn, hps⟩ := next_of_starts hm
  have reached : (start t s).Reaches ⟨t', t'.work s', ps⟩ := h.tail hn
  rw [← hps]
  exact reached.chain hw

end Machine

namespace Task

def isFramed : Task → Bool
  | framed .. => true
  | _ => false

def isMessage : Task → Bool
  | send .. | super .. => true
  | _ => false

def isComparison : Task → Bool
  | send name _ => name == "=="
  | _ => false

def args : Task → List Value
  | send _ c | super _ c => c.args
  | _ => []

def asksInCall (t t' : Task) : Prop := t.isMessage → PartOfCall t.args t'

end Task

theorem Step.Asks.awaits {α : Type} {A : Task → Prop} {R : State → State → Prop} {x : Step α}
    {s : State} (h : x.Asks A R s) : x.Awaits A := by
  induction x generalizing s with
  | done o s' => trivial
  | wait t s' resume ih => exact ⟨h.2.1, fun o s'' ↦ ih o s'' (h.2.2 o s'')⟩

theorem Step.awaits_all {α : Type} {A : Task → Prop} (h : ∀ t, A t) (x : Step α) :
    x.Awaits A := by
  induction x with
  | done o s => trivial
  | wait t s resume ih => exact ⟨h t, fun o s' ↦ ih o s'⟩

instance State.gentle_true : State.Gentle fun _ _ ↦ True where
  refl _ := trivial
  trans _ _ := trivial
  held _ _ := trivial
  newObject _ _ _ := trivial
  letGo _ _ _ := trivial
  newList _ _ := trivial
  newScope _ _ := trivial
  define _ _ _ _ := trivial
  assign _ _ _ _ := trivial

namespace Task

theorem work_in_call (t : Task) (s : State) : (t.work s).Awaits t.asksInCall := by
  cases t with
  | send name c =>
    have h : Eval.Asks (PartOfCall c.args) (fun _ _ ↦ True) (Eval.deliver name c) :=
      .deliver name fun _ h ↦ h
    exact (Eval.Asks.answering h s).mono (fun _ h _ ↦ h) |>.awaits
  | super frame c =>
    have h : Eval.Asks (PartOfCall c.args) (fun _ _ ↦ True) (Eval.deliverSuper frame c) :=
      .deliverSuper frame fun _ h ↦ h
    exact (Eval.Asks.answering h s).mono (fun _ h _ ↦ h) |>.awaits
  | _ => exact Step.awaits_all (fun _ h ↦ nomatch h) _

theorem PartOfCall.family {args : List Value} {t t' : Task} (h : PartOfCall args t)
    (ht : t'.family = t.family) : PartOfCall args t' := by
  cases h with
  | describe v hargs | rawText v hargs =>
    cases t' with
    | describe w => exact .describe w hargs
    | rawText w => exact .rawText w hargs
    | _ => cases ht
  | _ =>
    cases t' <;> cases ht
    first
      | exact .body _ _ _
      | exact .native _ _ _
      | exact .block _ _ _
      | exact .guard _ _
      | exact .compare _ _ ‹_›

end Task

open Machine

theorem waitsInCall : Waits Task.asksInCall where
  work := Task.work_in_call
  family hf h ht := (h ht).family hf

variable {t q : Task} {s s' : State} {m : Machine} {e : Expr} {ctx : Context}

theorem length_frames (ts : List Task) :
    (ts.flatMap Task.frames).length = ts.countP Task.isFramed := by
  induction ts with
  | nil => rfl
  | cons t ts ih =>
    rw [List.flatMap_cons, List.length_append, List.countP_cons, ih]
    cases t <;> simp [Task.frames, Task.isFramed, Nat.add_comm]

theorem Machine.Reaches.frames_size (h : (start t s).Reaches m) :
    m.work.state.frames.size = m.inProgress.countP Task.isFramed + s.frames.size := by
  have hlength := congrArg List.length h.stacked.frames
  rw [List.length_append, length_frames] at hlength
  simpa using hlength

theorem Machine.Reaches.part (hq : q.isMessage) (h : (start q s).Reaches m)
    (hm : m.starts = some (.eval e ctx, s')) :
    ∃ inner part, m.inProgress = inner ++ [part, q] ∧ Task.PartOfCall q.args part := by
  obtain ⟨hchain, last, hlast, hfamily⟩ := h.chain_starts waitsInCall hm
  obtain ⟨ys, hys⟩ := List.getLast?_eq_some_iff.mp hlast
  have hsame : last = q := by
    cases q <;> cases last <;> simp_all [Task.family, Task.isMessage]
  subst hsame
  cases ys using List.reverseRecOn with
  | nil =>
    have he : .eval e ctx = last := by simpa using congrArg List.head? hys
    simp [← he, Task.isMessage] at hq
  | append_singleton outer part =>
    rw [hys, List.append_assoc, List.isChain_append] at hchain
    have hpart : Task.PartOfCall last.args part := by
      have hasks : Task.asksInCall last part := by simpa using hchain.2.1
      exact hasks hq
    cases outer with
    | nil =>
      have he : .eval e ctx = part := by simpa using congrArg List.head? hys
      cases he
      cases hpart
    | cons first inner =>
      exact ⟨inner, part, by simpa using (List.cons.inj hys).2, hpart⟩

/-- An invocation of a method in progress: a guard is evaluated for it, or its body is run. -/
def Task.isInvocation : Task → Bool
  | guard .. | framed _ (body ..) => true
  | _ => false

/-- What is evaluated for a message, but not in the call that answers it. -/
def Task.isBeforeCall : Task → Bool
  | guard .. | describe _ | rawText _ => true
  | send name _ => name == "=="
  | _ => false

theorem countP_invocations (ts : List Task) :
    ts.countP Task.isInvocation ≤ ts.countP Task.isFramed + ts.countP Task.isGuard := by
  induction ts with
  | nil => simp
  | cons t ts ih =>
    have hone : (if t.isInvocation then 1 else 0) ≤
        (if t.isFramed then 1 else 0) + (if t.isGuard then 1 else 0) := by
      cases t with
      | framed frame t => cases t <;> simp [Task.isInvocation, Task.isFramed, Task.isGuard]
      | _ => simp [Task.isInvocation, Task.isFramed, Task.isGuard]
    simp only [List.countP_cons]
    omega

theorem Task.PartOfCall.counts {args : List Value} (h : PartOfCall args t) :
    t.isFramed ∨ t.isBeforeCall := by
  cases h <;> simp [isFramed, isBeforeCall]

theorem countP_messages {ts : List Task}
    (h : ts.IsChain fun inner outer ↦ Task.asksInCall outer inner) :
    ts.countP Task.isMessage ≤
      1 + ts.countP Task.isFramed + ts.countP Task.isBeforeCall := by
  cases ts with
  | nil => simp
  | cons t ts =>
    have houter : ts.countP Task.isMessage ≤
        (t :: ts).countP Task.isFramed + (t :: ts).countP Task.isBeforeCall := by
      induction ts generalizing t with
      | nil => simp
      | cons u ts ih =>
        obtain ⟨hu, hrest⟩ := List.isChain_cons_cons.mp h
        have hle := ih u hrest
        have hone : (if u.isMessage then 1 else 0) ≤
            (if t.isFramed then 1 else 0) + (if t.isBeforeCall then 1 else 0) := by
          cases hmessage : u.isMessage with
          | false => simp
          | true => rcases (hu hmessage).counts with ht | ht <;> simp [ht]
        simp only [List.countP_cons] at hle ⊢
        omega
    have hinner : (if t.isMessage then 1 else 0) ≤ 1 := by split <;> simp
    rw [List.countP_cons]
    omega

theorem chain_inProgress (h : (start t s).Reaches m) :
    m.inProgress.IsChain fun inner outer ↦ Task.asksInCall outer inner := by
  have hchain := (h.chain waitsInCall).1
  unfold inProgress
  split
  · exact hchain
  · exact hchain.tail

theorem framed_le (h : (start t s).Reaches m) (hs : s.frames.size ≤ s.config.maxCallDepth) :
    m.inProgress.countP Task.isFramed + s.frames.size ≤ s.config.maxCallDepth := by
  rw [← h.frames_size]
  exact h.stacked.depth hs

/-- Code that is evaluated for a message has more calls around it than the message exactly if it is
in a call that the message led to. The body of the method is, but the guards of its clauses are not.
So the limit bounds how deep bodies nest, and messages as far as they do not wait for guards,
comparisons with parameters or texts for error messages. -/
theorem calls_nest (t : Task) (s : State) :
    (t.isMessage → ∀ (m : Machine) (e : Expr) (ctx : Context) (s' : State),
      (start t s).Reaches m → m.starts = some (.eval e ctx, s') →
        ∃ inner part, m.inProgress = inner ++ [part, t] ∧ Task.PartOfCall t.args part ∧
          (s.frames.size < s'.frames.size ↔ ∃ u ∈ inner ++ [part], u.isFramed)) ∧
    (s.frames.size ≤ s.config.maxCallDepth → ∀ m : Machine, (start t s).Reaches m →
      m.inProgress.countP Task.isFramed + s.frames.size ≤ s.config.maxCallDepth ∧
      m.inProgress.countP Task.isInvocation + s.frames.size ≤
        s.config.maxCallDepth + m.inProgress.countP Task.isGuard ∧
      m.inProgress.countP Task.isMessage + s.frames.size ≤
        1 + s.config.maxCallDepth + m.inProgress.countP Task.isBeforeCall) ∧
    (s.config.maxCallDepth ≤ s.frames.size → ∀ frame : CallFrame,
      (Task.framed frame t).work s =
        .done (.error (.halt (.depth s.config.maxCallDepth))) s) := by
  refine ⟨fun hmessage m e ctx s' h hm ↦ ?_, fun hs m h ↦ ?_, fun hs frame ↦ ?_⟩
  · obtain ⟨inner, part, hin, hpart⟩ := h.part hmessage hm
    refine ⟨inner, part, hin, hpart, ?_⟩
    have hframed : t.isFramed = false := by
      cases t <;> simp_all [Task.isFramed, Task.isMessage]
    have hsize := h.frames_size
    have hsplit : m.inProgress.countP Task.isFramed =
        (inner ++ [part]).countP Task.isFramed := by
      simp [hin, List.countP_cons, hframed]
    rw [state_of_starts hm, hsplit] at hsize
    rw [← List.countP_pos_iff]
    omega
  · have hle := framed_le h hs
    have hinvocations := countP_invocations m.inProgress
    have hmessages := countP_messages (chain_inProgress h)
    refine ⟨hle, by omega, by omega⟩
  · rw [Task.work_framed, if_pos hs]

/-- How many calls are in progress where an expression is about to be evaluated. -/
def Machine.framesAtEval (m : Machine) : Option Nat :=
  match m.starts with
  | some (.eval .., s) => some s.frames.size
  | _ => none

theorem Machine.starts_of_framesAtEval {n : Nat} (h : m.framesAtEval = some n) :
    ∃ e ctx s, m.starts = some (.eval e ctx, s) ∧ s.frames.size = n := by
  unfold framesAtEval at h
  split at h
  case h_1 e ctx s hm => exact ⟨e, ctx, s, hm, Option.some.inj h⟩
  case h_2 => cases h

theorem calls_nest_askGuarded :
    ∃ m e ctx s' inner part, (start askGuarded guardedState).Reaches m ∧
      m.starts = some (.eval e ctx, s') ∧ m.inProgress = inner ++ [part, askGuarded] ∧
      Task.PartOfCall askGuarded.args part ∧ (∀ u ∈ inner ++ [part], ¬ u.isFramed) ∧
      m.inProgress.countP Task.isInvocation ≤
        guardedState.config.maxCallDepth + m.inProgress.countP Task.isGuard := by
  obtain ⟨hparts, hcounts, -⟩ := calls_nest askGuarded guardedState
  let m := (start askGuarded guardedState).walk 1
  have hr : (start askGuarded guardedState).Reaches m := reaches_walk 1 _
  have heval : m.framesAtEval = some 0 := by decide +kernel
  obtain ⟨e, ctx, s', hstarts, hsize⟩ := m.starts_of_framesAtEval heval
  obtain ⟨inner, part, hin, hpart, hframed⟩ := hparts rfl m e ctx s' hr hstarts
  obtain ⟨-, hinvocations, -⟩ := hcounts (Nat.zero_le _) m hr
  refine ⟨m, e, ctx, s', inner, part, hr, hstarts, hin, hpart, fun u hu hu' ↦ ?_,
    Nat.le_trans (Nat.le_add_right _ _) hinvocations⟩
  have hlt := hframed.mpr ⟨u, hu, hu'⟩
  rw [hsize] at hlt
  exact Nat.not_lt_zero _ hlt

/-- A guard is evaluated with no call around it, even where no call is allowed. -/
theorem guards_not_counted :
    (¬ ∀ (q : Task) (s s' : State) (m : Machine) (e : Expr) (ctx : Context), q.isMessage →
      (start q s).Reaches m → m.starts = some (.eval e ctx, s') →
        s.frames.size < s'.frames.size) ∧
    ¬ ∀ (t : Task) (s : State) (m : Machine), (start t s).Reaches m →
      s.frames.size ≤ s.config.maxCallDepth →
        m.inProgress.countP Task.isInvocation ≤ s.config.maxCallDepth := by
  let s : State := { guardedState with config := { guardedState.config with maxCallDepth := 0 } }
  let m := (start askGuarded s).walk 1
  have hr : (start askGuarded s).Reaches m := reaches_walk 1 _
  have hguard : m.inProgress.countP Task.isInvocation = 1 := by decide +kernel
  have heval : m.framesAtEval = some 0 := by decide +kernel
  constructor
  · intro h
    obtain ⟨e, ctx, s', hm, hsize⟩ := m.starts_of_framesAtEval heval
    have hlt := h askGuarded s s' m e ctx rfl hr hm
    rw [hsize] at hlt
    exact absurd hlt (Nat.not_lt_zero _)
  · intro h
    have hle := h askGuarded s m hr (Nat.zero_le _)
    rw [hguard] at hle
    cases hle

end Quill
