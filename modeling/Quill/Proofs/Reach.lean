import Mathlib.Logic.Relation
import Quill.Interpreter

/-!
# The way of a machine

What a machine comes to on its way, and how that bears on the outcome. Main statements:
`Machine.run_iff` and `Machine.Kept.reaches`, by which a property of all machines on the way follows
from what the work on a single task does.
-/

namespace Quill

namespace Step

variable {α β : Type}

def state : Step α → State
  | done _ s => s
  | wait _ s _ => s

end Step

/-- How a task ends that has the outcome itself, and no other task. -/
def Outcome.reply (o : Outcome Value) : Outcome Reply :=
  match o with
  | .ok v => .ok (.value v)
  | .error u => .error u

theorem Outcome.reply_error {o : Outcome Value} {P : Unwind → Prop} (h : ∀ u, o = .error u → P u)
    (u : Unwind) (hu : o.reply = .error u) : P u := by
  cases o with
  | ok v => cases hu
  | error u' =>
    cases hu
    exact h u rfl

namespace Machine

variable {m m' : Machine} {r : Outcome Value × State}

/-- The machine comes to another one on its way. -/
def Reaches : Machine → Machine → Prop := Relation.ReflTransGen fun m m' ↦ m.next = .inl m'

def starts (m : Machine) : Option (Task × State) :=
  match m.work with
  | .wait t s _ => some (t, s)
  | .done (.ok (.task t)) s => some (t, s)
  | .done .. => none

def waitingTasks (m : Machine) : List Task := m.waiting.map (·.task)

/-- The tasks that something else goes on inside of, the innermost first. -/
def inProgress (m : Machine) : List Task :=
  match m.work with
  | .wait .. => m.task :: m.waitingTasks
  | .done .. => m.waitingTasks

theorem state_of_starts {t : Task} {s : State} (h : m.starts = some (t, s)) :
    m.work.state = s := by
  unfold starts at h
  split at h
  · rename_i hw
    cases h
    rw [hw]
    rfl
  · rename_i hw
    cases h
    rw [hw]
    rfl
  · cases h

theorem next_of_starts {t : Task} {s : State} (h : m.starts = some (t, s)) :
    ∃ ps, m.next = .inl ⟨t, t.work s, ps⟩ ∧ ps.map (·.task) = m.inProgress := by
  obtain ⟨t', x, ps⟩ := m
  match x with
  | .wait t'' s' resume =>
    cases h
    exact ⟨_, rfl, rfl⟩
  | .done (.ok (.task t'')) s' =>
    cases h
    exact ⟨_, rfl, rfl⟩
  | .done (.ok (.value v)) s' => cases h
  | .done (.error u) s' => cases h

/-- All that the next step can be: a task is started, it gives way to another, or one that waited
goes on. -/
theorem next_cases (h : m.next = .inl m') :
    (∃ t s resume, m.work = .wait t s resume ∧
      m' = ⟨t, t.work s, ⟨m.task, resume⟩ :: m.waiting⟩) ∨
    (∃ t s, m.work = .done (.ok (.task t)) s ∧ m' = ⟨t, t.work s, m.waiting⟩) ∨
    (∃ o s p ps, m.work = .done (Outcome.reply o) s ∧ m.waiting = p :: ps ∧
      m' = ⟨p.task, p.resume o s, ps⟩) := by
  obtain ⟨t, x, ps⟩ := m
  cases x with
  | wait t' s resume => exact .inl ⟨t', s, resume, rfl, (Sum.inl.inj h).symm⟩
  | done o s =>
    match o, ps with
    | .ok (.task t'), ps => exact .inr (.inl ⟨t', s, rfl, (Sum.inl.inj h).symm⟩)
    | .ok (.value v), p :: ps =>
      exact .inr (.inr ⟨.ok v, s, p, ps, rfl, rfl, (Sum.inl.inj h).symm⟩)
    | .error u, p :: ps =>
      exact .inr (.inr ⟨.error u, s, p, ps, rfl, rfl, (Sum.inl.inj h).symm⟩)
    | .ok (.value v), [] => exact absurd h Sum.inr_ne_inl
    | .error u, [] => exact absurd h Sum.inr_ne_inl

theorem next_inr (h : m.next = .inr r) :
    m.work = .done (Outcome.reply r.1) r.2 ∧ m.waiting = [] := by
  obtain ⟨t, x, ps⟩ := m
  cases x with
  | wait t' s resume => exact absurd h Sum.inl_ne_inr
  | done o s =>
    match o, ps with
    | .ok (.task t'), ps => exact absurd h Sum.inl_ne_inr
    | .ok (.value v), p :: ps => exact absurd h Sum.inl_ne_inr
    | .error u, p :: ps => exact absurd h Sum.inl_ne_inr
    | .ok (.value v), [] => exact Sum.inr.inj h ▸ ⟨rfl, rfl⟩
    | .error u, [] => exact Sum.inr.inj h ▸ ⟨rfl, rfl⟩

theorem run_iff : (∃ n, m.run n = some r) ↔ ∃ m', m.Reaches m' ∧ m'.next = .inr r := by
  constructor
  · rintro ⟨n, h⟩
    induction n generalizing m with
    | zero => cases h
    | succ n ih =>
      unfold run at h
      split at h
      · rename_i m' hn
        obtain ⟨m'', hr, he⟩ := ih h
        exact ⟨m'', hr.head hn, he⟩
      · rename_i r' hn
        cases h
        exact ⟨m, .refl, hn⟩
  · rintro ⟨m', hr, he⟩
    induction hr using Relation.ReflTransGen.head_induction_on with
    | refl => exact ⟨1, by rw [run, he]⟩
    | head hn _ ih =>
      obtain ⟨n, h⟩ := ih
      exact ⟨n + 1, by rw [run, hn]; exact h⟩

theorem run_mono {n k : Nat} (h : m.run n = some r) (hk : n ≤ k) : m.run k = some r := by
  induction n generalizing m k with
  | zero => cases h
  | succ n ih =>
    obtain ⟨k, rfl⟩ : ∃ j, k = j + 1 := ⟨k - 1, by omega⟩
    unfold run at h ⊢
    split at h
    · exact ih h (by omega)
    · exact h

theorem run_unique {n k : Nat} {r' : Outcome Value × State} (h : m.run n = some r)
    (h' : m.run k = some r') : r = r' := by
  have hn := run_mono h (Nat.le_max_left n k)
  have hk := run_mono h' (Nat.le_max_right n k)
  exact Option.some.inj (hn.symm.trans hk)

/-- Where a machine is after `n` steps, or at its end. -/
def walk : Nat → Machine → Machine
  | 0, m => m
  | n + 1, m => match m.next with
    | .inl m' => m'.walk n
    | .inr _ => m

theorem reaches_walk (n : Nat) (m : Machine) : m.Reaches (m.walk n) := by
  induction n generalizing m with
  | zero => exact .refl
  | succ n ih =>
    unfold walk
    split
    · rename_i m' hn
      exact (ih m').head hn
    · exact .refl

theorem Reaches.exists_walk (h : m.Reaches m') : ∃ n, m.walk n = m' := by
  induction h using Relation.ReflTransGen.head_induction_on with
  | refl => exact ⟨0, rfl⟩
  | head hn _ ih =>
    obtain ⟨n, rfl⟩ := ih
    exact ⟨n + 1, by rw [walk, hn]⟩

theorem walk_end (h : m.next = .inr r) (n : Nat) : m.walk n = m := by
  cases n with
  | zero => rfl
  | succ n => rw [walk, h]

theorem walk_circle (h : m.next = .inl m) (n : Nat) : m.walk n = m := by
  induction n with
  | zero => rfl
  | succ n ih => rwa [walk, h]

theorem walk_add (k n : Nat) (m : Machine) : m.walk (k + n) = (m.walk k).walk n := by
  induction k generalizing m with
  | zero =>
    rw [Nat.zero_add]
    rfl
  | succ k ih =>
    rw [Nat.succ_add]
    cases hn : m.next with
    | inl m' =>
      rw [walk, hn, walk, hn]
      exact ih m'
    | inr r => rw [walk_end hn, walk_end hn, walk_end hn]

theorem Reaches.eq_walk {k : Nat} {P : Machine → Prop} (h : m.Reaches m') (hm : P m')
    (hk : (m.walk k).next = .inl (m.walk k)) (hearlier : ∀ n < k, ¬ P (m.walk n)) :
    m' = m.walk k := by
  obtain ⟨n, rfl⟩ := h.exists_walk
  obtain hlt | hle := Nat.lt_or_ge n k
  · exact absurd hm (hearlier n hlt)
  · obtain ⟨j, rfl⟩ := Nat.exists_eq_add_of_le hle
    rw [walk_add, walk_circle hk]

/-- A property of machines that is kept by what the work on a single task does. Of the task that is
waited for, it is known how it ends, and that its `kind` is that of the task that was started. -/
structure Kept {κ : Type} (kind : Task → κ) (P : Machine → Prop) : Prop where
  starts {t t' : Task} {s : State} {resume : Resume Reply} {ps : List Pending} :
    P ⟨t, .wait t' s resume, ps⟩ → P ⟨t', t'.work s, ⟨t, resume⟩ :: ps⟩
  resumes {t t' t'' : Task} {s s' : State} {resume : Resume Reply} {ps : List Pending}
    {o : Outcome Value} :
    P ⟨t, .wait t' s resume, ps⟩ → kind t'' = kind t' →
      P ⟨t'', .done o.reply s', ⟨t, resume⟩ :: ps⟩ → P ⟨t, resume o s', ps⟩
  givesWay {t t' : Task} {s : State} {ps : List Pending} :
    P ⟨t, .done (.ok (.task t')) s, ps⟩ → P ⟨t', t'.work s, ps⟩ ∧ kind t' = kind t

namespace Kept

variable {κ : Type} {kind : Task → κ} {P : Machine → Prop} {t : Task} {s : State}

/-- Each of the tasks that wait began to wait for one of the kind of the task before it, and `root`
is the kind of the last. -/
def Waiting (kind : Task → κ) (P : Machine → Prop) (root : κ) : Task → List Pending → Prop
  | t, [] => kind t = root
  | t, p :: ps => (∃ t' s', P ⟨p.task, .wait t' s' p.resume, ps⟩ ∧ kind t = kind t') ∧
      Waiting kind P root p.task ps

theorem next (hk : Kept kind P) {root : κ} (hm : P m) (hw : Waiting kind P root m.task m.waiting)
    (h : m.next = .inl m') : P m' ∧ Waiting kind P root m'.task m'.waiting := by
  obtain ⟨t, x, ps⟩ := m
  obtain ⟨t', s, resume, rfl, rfl⟩ | ⟨t', s, rfl, rfl⟩ | ⟨o, s, p, ps, rfl, rfl, rfl⟩ :=
    next_cases h
  · exact ⟨hk.starts hm, ⟨t', s, hm, rfl⟩, hw⟩
  · obtain ⟨hstart, hkind⟩ := hk.givesWay hm
    refine ⟨hstart, ?_⟩
    cases ps with
    | nil => exact hkind.trans hw
    | cons p ps =>
      obtain ⟨⟨t₁, s₁, hp, hk₁⟩, hrest⟩ := hw
      exact ⟨⟨t₁, s₁, hp, hkind.trans hk₁⟩, hrest⟩
  · -- What goes on began to wait for a task of the same kind as the one that ended.
    obtain ⟨⟨t₁, s₁, hp, hk₁⟩, hrest⟩ := hw
    exact ⟨hk.resumes hp hk₁ hm, hrest⟩

theorem reaches_waiting (hk : Kept kind P) (h : P (start t s)) (hr : (start t s).Reaches m) :
    P m ∧ Waiting kind P (kind t) m.task m.waiting := by
  induction hr with
  | refl => exact ⟨h, rfl⟩
  | tail _ hn ih => exact hk.next ih.1 ih.2 hn

theorem reaches (hk : Kept kind P) (h : P (start t s)) (hr : (start t s).Reaches m) : P m :=
  (hk.reaches_waiting h hr).1

theorem awaited (hk : Kept kind P) (h : P (start t s)) (hr : (start t s).Reaches m) {p : Pending}
    {ps : List Pending} (hw : m.waiting = p :: ps) :
    ∃ t' s', P ⟨p.task, .wait t' s' p.resume, ps⟩ ∧ kind m.task = kind t' := by
  have waiting := (hk.reaches_waiting h hr).2
  rw [hw] at waiting
  exact waiting.1

theorem last (hk : Kept kind P) (h : P (start t s)) (hr : (start t s).Reaches m)
    (hw : m.waiting = []) : kind m.task = kind t := by
  have waiting := (hk.reaches_waiting h hr).2
  rw [hw] at waiting
  exact waiting

end Kept

end Machine

theorem Eval.run_perform (t : Task) (fuel : Nat) (s : State) :
    (Eval.perform t).run fuel s = (Machine.start t s).run fuel := by
  cases fuel with
  | zero => rfl
  | succ n =>
    change ((Machine.start t s).run (n + 1)).bind (fun r ↦ Step.finish _ _ (.done r.1 r.2)) = _
    cases (Machine.start t s).run (n + 1) with
    | none => rfl
    | some r => cases n <;> rfl

namespace Interpreter

def machine (i : Interpreter) (p : Program) : Machine :=
  .start (.statements p.body State.topContext) i.rested.state

theorem run_eq_some {i i' : Interpreter} {p : Program} {fuel : Nat} {r : Result} :
    i.run p fuel = some (r, i') ↔ ∃ o s j, (i.machine p).run fuel = some (o, s) ∧
      result ⟨s⟩ o p.span fuel = some (r, j) ∧ i' = ⟨{ j.state with frames := #[] }⟩ := by
  have hrun : i.run p fuel = ((i.machine p).run fuel).bind fun x ↦
      (result ⟨x.2⟩ x.1 p.span fuel).bind fun y ↦
        some (y.1, ⟨{ y.2.state with frames := #[] }⟩) := by
    unfold run perform machine
    rw [Eval.run_perform]
    cases (Machine.start (.statements p.body State.topContext) i.rested.state).run fuel <;> rfl
  rw [hrun]
  constructor
  · intro h
    obtain ⟨⟨o, s⟩, ho, h⟩ := Option.bind_eq_some_iff.mp h
    obtain ⟨⟨r', j⟩, hr, h⟩ := Option.bind_eq_some_iff.mp h
    cases h
    exact ⟨o, s, j, ho, hr, rfl⟩
  · rintro ⟨o, s, j, ho, hr, rfl⟩
    rw [ho, Option.bind_some, hr]
    rfl

variable {i i' : Interpreter} {fuel : Nat}

theorem textBy_eq_some {shown : Value → Eval String} {v : Value} {text : String} :
    i.textBy shown v fuel = some (text, i') ↔ ∃ o, i.perform (shown v) fuel = some (o, i') ∧
      (o = .ok text ∨ (∃ u, o = .error u) ∧ i'.state.rawText? v = some text) := by
  constructor
  · intro h
    obtain ⟨⟨o, j⟩, hperform, hres⟩ := Option.bind_eq_some_iff.mp h
    cases o with
    | ok text' =>
      cases hres
      exact ⟨_, hperform, .inl rfl⟩
    | error u =>
      obtain ⟨text', hraw, hres⟩ := Option.bind_eq_some_iff.mp hres
      cases hres
      exact ⟨_, hperform, .inr ⟨⟨u, rfl⟩, hraw⟩⟩
  · rintro ⟨o, hperform, rfl | ⟨⟨u, rfl⟩, hraw⟩⟩
    · exact Option.bind_eq_some_iff.mpr ⟨_, hperform, rfl⟩
    · refine Option.bind_eq_some_iff.mpr ⟨_, hperform, ?_⟩
      exact Option.bind_eq_some_iff.mpr ⟨text, hraw, rfl⟩

theorem result_cases {o : Outcome Value} {span : Span} {r : Result}
    (h : i.result o span fuel = some (r, i')) :
    i' = i ∨ ∃ raised text, o = .error (.raise raised) ∧
      (i.perform (Eval.holding [raised.value]
          (Eval.display (i.state.attr raised.value "message"))) fuel = some (text, i') ∨
        i.perform (Eval.inspect raised.value) fuel = some (text, i')) := by
  unfold result at h
  split at h
  case h_3 raised =>
    obtain ⟨⟨text, j⟩, htext, hres⟩ := Option.bind_eq_some_iff.mp h
    cases hres
    unfold uncaughtText at htext
    split at htext
    · split at htext
      · cases htext
        exact .inl rfl
      · obtain ⟨o', hperform, -⟩ := textBy_eq_some.mp htext
        exact .inr ⟨raised, o', rfl, .inl hperform⟩
    · obtain ⟨o', hperform, -⟩ := textBy_eq_some.mp htext
      exact .inr ⟨raised, o', rfl, .inr hperform⟩
  all_goals
    cases h
    exact .inl rfl

end Interpreter

end Quill
