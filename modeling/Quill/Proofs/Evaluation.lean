import Quill.Proofs.Course

/-!
# How work ends

`Task.Gives` tells how a task ends and in which state, and `Eval.Gives` the same of work. There is
one rule for each way to put work together, and `Task.Gives.of_work` leads from the work on a task
to the task. Simple work only adds to the contents of the state; `Task.Yields` says this of it
along with what its outcome is like.
-/

namespace Quill

namespace Step.Course

variable {α β : Type} {es es' : List Episode} {s s' : State}

theorem bind_ok {x : Step α} {f : α → State → Step β} {a : α} {o : Outcome β}
    (hx : x.Course es (.ok a) s) (hf : (f a s).Course es' o s') :
    (x.bind f).Course (es ++ es') o s' := by
  generalize ho : (.ok a : Outcome α) = o₁ at hx
  induction hx with
  | done =>
    subst ho
    exact hf
  | wait hrun _ ih => exact .wait hrun (ih hf ho)

theorem bind_error {x : Step α} {f : α → State → Step β} {u : Unwind}
    (hx : x.Course es (.error u) s') : (x.bind f).Course es (.error u) s' := by
  generalize ho : (.error u : Outcome α) = o at hx
  induction hx with
  | done =>
    subst ho
    exact .done
  | wait hrun _ ih => exact .wait hrun (ih ho)

theorem attempted {x : Step α} {o : Outcome α} (hx : x.Course es o s') :
    x.attempt.Course es (.ok o) s' := by
  induction hx with
  | done => exact .done
  | wait hrun _ ih => exact .wait hrun ih

end Step.Course

def Task.Gives (t : Task) (s : State) (o : Outcome Value) (s' : State) : Prop :=
  ∃ n, (Machine.start t s).run n = some (o, s')

def Eval.Gives {α : Type} (x : Eval α) (s : State) (o : Outcome α) (s' : State) : Prop :=
  ∃ es, (x s).Course es o s'

namespace Machine

variable {m m' : Machine}

def above (m : Machine) (ps : List Pending) : Machine := { m with waiting := m.waiting ++ ps }

theorem next_above (h : m.next = .inl m') (ps : List Pending) :
    (m.above ps).next = .inl (m'.above ps) := by
  obtain ⟨t, x, waiting⟩ := m
  obtain ⟨t', s, resume, rfl, rfl⟩ | ⟨t', s, rfl, rfl⟩ | ⟨o, s, p, waiting', rfl, rfl, rfl⟩ :=
    next_cases h
  · rfl
  · rfl
  · cases o <;> rfl

theorem Reaches.above (h : m.Reaches m') (ps : List Pending) :
    (m.above ps).Reaches (m'.above ps) := by
  induction h with
  | refl => exact .refl
  | tail _ hn ih => exact ih.tail (next_above hn ps)

theorem reaches_resume {t : Task} {s s' : State} {n : Nat} {o : Outcome Value}
    (h : (start t s).run n = some (o, s')) (p : Pending) (ps : List Pending) :
    Reaches ⟨t, t.work s, p :: ps⟩ ⟨p.task, p.resume o s', ps⟩ := by
  obtain ⟨m, hr, hn⟩ := run_iff.mp ⟨n, h⟩
  obtain ⟨t', x, waiting⟩ := m
  obtain ⟨rfl, rfl⟩ : x = .done (Outcome.reply o) s' ∧ waiting = [] := next_inr hn
  refine (hr.above (p :: ps)).tail ?_
  cases o <;> rfl

theorem reaches_end {x : Step Reply} {es : List Episode} {o : Outcome Reply} {s' : State}
    (h : x.Course es o s') (t : Task) (ps : List Pending) :
    Reaches ⟨t, x, ps⟩ ⟨t, .done o s', ps⟩ := by
  induction h with
  | done => exact .refl
  | @wait t' s _ _ resume _ _ _ _ hrun _ ih =>
    have hstart : Reaches ⟨t, .wait t' s resume, ps⟩ ⟨t', t'.work s, ⟨t, resume⟩ :: ps⟩ :=
      .single rfl
    exact hstart.trans ((reaches_resume hrun ⟨t, resume⟩ ps).trans ih)

end Machine

namespace Machine

theorem run_above {m : Machine} {p : Pending} {ps : List Pending} {n : Nat}
    {r : Outcome Value × State} (h : (m.above (p :: ps)).run n = some r) :
    ∃ k o s j, m.run k = some (o, s) ∧ j < n ∧ run j ⟨p.task, p.resume o s, ps⟩ = some r := by
  induction n generalizing m with
  | zero => cases h
  | succ n ih =>
    cases hn : m.next with
    | inl m' =>
      rw [run, next_above hn] at h
      obtain ⟨k, o, s, j, hk, hj, hrest⟩ := ih h
      exact ⟨k + 1, o, s, j, by rw [run, hn]; exact hk, by omega, hrest⟩
    | inr r' =>
      obtain ⟨t, x, waiting⟩ := m
      obtain ⟨o, s⟩ := r'
      obtain ⟨rfl, rfl⟩ : x = .done (Outcome.reply o) s ∧ waiting = [] := next_inr hn
      have hgoes : (above ⟨t, .done (Outcome.reply o) s, []⟩ (p :: ps)).next =
          .inl ⟨p.task, p.resume o s, ps⟩ := by cases o <;> rfl
      rw [run, hgoes] at h
      exact ⟨1, o, s, n, by rw [run, hn], Nat.lt_succ_self n, h⟩

theorem course_of_run {t : Task} {x : Step Reply} {n : Nat} {r : Outcome Value × State}
    (h : run n ⟨t, x, []⟩ = some r) :
    ∃ es o s k, x.Course es o s ∧ run k ⟨t, .done o s, []⟩ = some r := by
  induction n using Nat.strongRecOn generalizing x with
  | ind n ih =>
    cases x with
    | done o s => exact ⟨[], o, s, n, .done, h⟩
    | wait t' s resume =>
      cases n with
      | zero => cases h
      | succ n =>
        obtain ⟨k, o, s₁, j, hk, hj, hrest⟩ := run_above (m := start t' s) h
        obtain ⟨es, o', s', k', hes, hend⟩ := ih j (by omega) hrest
        exact ⟨_, o', s', k', .wait hk hes, hend⟩

end Machine

theorem Task.Gives.of_work {t : Task} {s s' : State} {o : Outcome Value}
    (h : t.work.Gives s (Outcome.reply o) s') : t.Gives s o s' := by
  obtain ⟨es, hes⟩ := h
  refine Machine.run_iff.mpr ⟨_, Machine.reaches_end hes t [], ?_⟩
  cases o <;> rfl

namespace Eval

variable {α β : Type} {s s₁ s' : State}

namespace Gives

theorem pure (a : α) (s : State) : (Pure.pure a : Eval α).Gives s (.ok a) s := ⟨[], .done⟩

theorem read (f : State → α) (s : State) : (read f).Gives s (.ok (f s)) s := ⟨[], .done⟩

theorem unwind (u : Unwind) (s : State) : (unwind u : Eval α).Gives s (.error u) s := ⟨[], .done⟩

theorem ofOutcome (o : Outcome α) (s : State) : (ofOutcome o).Gives s o s := ⟨[], .done⟩

theorem change (f : State → α × State) (s : State) :
    (modifyGet f : Eval α).Gives s (.ok (f s).1) (f s).2 := ⟨[], .done⟩

theorem bind {x : Eval α} {f : α → Eval β} {a : α} {o : Outcome β} (hx : x.Gives s (.ok a) s₁)
    (hf : (f a).Gives s₁ o s') : (x >>= f).Gives s o s' := by
  obtain ⟨es, hes⟩ := hx
  obtain ⟨es', hes'⟩ := hf
  refine ⟨es ++ es', ?_⟩
  rw [bind_apply]
  exact hes.bind_ok hes'

theorem bind_error {x : Eval α} {f : α → Eval β} {u : Unwind} (hx : x.Gives s (.error u) s') :
    (x >>= f).Gives s (.error u) s' := by
  obtain ⟨es, hes⟩ := hx
  refine ⟨es, ?_⟩
  rw [bind_apply]
  exact hes.bind_error

theorem perform {t : Task} {o : Outcome Value} (h : t.Gives s o s') :
    (perform t).Gives s o s' := by
  obtain ⟨n, hrun⟩ := h
  exact ⟨_, .wait hrun .done⟩

theorem keeping (h : Held) {x : Eval α} {o : Outcome α}
    (hx : x.Gives { s with held := h :: s.held } o s') :
    (keeping h x).Gives s o { s' with held := s.held } := by
  obtain ⟨es, hes⟩ := hx
  exact ⟨es, hes.restore s.held⟩

theorem attempt {x : Eval α} {o : Outcome α} (hx : x.Gives s o s') :
    (attempt x).Gives s (.ok o) s' := by
  obtain ⟨es, hes⟩ := hx
  exact ⟨es, hes.attempted⟩

theorem answering {x : Eval Value} {o : Outcome Value} (hx : x.Gives s o s') :
    (answering x).Gives s (Outcome.reply o) s' := by
  cases o with
  | ok v => exact hx.bind (.pure _ _)
  | error u => exact hx.bind_error

theorem of_answering {x : Eval Value} {o : Outcome Reply} (h : (Eval.answering x).Gives s o s') :
    ∃ o', o = Outcome.reply o' ∧ x.Gives s o' s' := by
  obtain ⟨es, hes⟩ := h
  unfold Eval.answering at hes
  rw [bind_apply] at hes
  obtain ⟨u, rfl, hu⟩ | ⟨v, es₁, es₂, s₁, rfl, hv, hrest⟩ := hes.bind
  · exact ⟨.error u, rfl, es, hu⟩
  · obtain ⟨rfl, rfl, rfl⟩ := hrest.of_done
    exact ⟨.ok v, rfl, es₁, hv⟩

theorem tick (h : s.config.stepLimit = none) :
    tick.Gives s (.ok ()) { s with steps := s.steps + 1 } := by
  have htick : Eval.tick s = .done (.ok ()) { s with steps := s.steps + 1 } := by
    simp only [Eval.tick, h]
  refine ⟨[], ?_⟩
  rw [htick]
  exact .done

theorem pushFrame (frame : CallFrame) (h : s.frames.size < s.config.maxCallDepth) :
    (pushFrame frame).Gives s (.ok ()) { s with frames := s.frames.push frame } := by
  have hpush : Eval.pushFrame frame s = .done (.ok ()) { s with frames := s.frames.push frame } :=
    if_neg (Nat.not_le.mpr h)
  refine ⟨[], ?_⟩
  rw [hpush]
  exact .done

theorem inFrame (frame : CallFrame) {t : Task} {o : Outcome Value}
    (h : s.frames.size < s.config.maxCallDepth)
    (ht : t.Gives { s with frames := s.frames.push frame } o s') :
    (inFrame frame t).Gives s o { s' with frames := s'.frames.pop } :=
  .bind (.pushFrame frame h)
    (.bind (.attempt (.perform ht)) (.bind (.change _ _) (.ofOutcome o _)))

theorem newList (items : List Value) (s : State) :
    (newList items).Gives s (.ok (.list ⟨s.lists.size⟩)) (s.newList items.toArray).2 :=
  .change (·.newList items.toArray) s

theorem fault (f : Fault) (span : Span) (s : State) :
    (fault f span : Eval α).Gives s (.error (.raise ⟨.object ⟨s.objects.size⟩, span, s.frames⟩))
      (s.newObject f.type.id ⟨[("message", .str f.message)]⟩).2 :=
  .bind (.change (·.newObject f.type.id ⟨[("message", .str f.message)]⟩) s)
    (.bind (.read _ _) (.unwind _ _))

end Gives

end Eval

theorem Task.gives_iff {t : Task} {x : Eval Value} {s s' : State} {o : Outcome Value}
    (h : t.work = Eval.answering x) : t.Gives s o s' ↔ x.Gives s o s' := by
  constructor
  · rintro ⟨n, hrun⟩
    obtain ⟨es, o', s₁, k, hes, hend⟩ := Machine.course_of_run hrun
    rw [h] at hes
    obtain ⟨o'', rfl, hx⟩ := Eval.Gives.of_answering ⟨es, hes⟩
    have hlast : Machine.next ⟨t, .done (Outcome.reply o'') s₁, []⟩ = .inr (o'', s₁) := by
      cases o'' <;> rfl
    cases k with
    | zero => cases hend
    | succ k =>
      rw [Machine.run, hlast] at hend
      cases hend
      exact hx
  · intro hx
    exact .of_work (h ▸ hx.answering)

namespace Task.Gives

variable {s s' : State} {o : Outcome Value}

theorem eval {e : Expr} {ctx : Context} (hs : s.config.stepLimit = none)
    (h : (Eval.expression e ctx).Gives { s with steps := s.steps + 1 } o s') :
    (Task.eval e ctx).Gives s o s' := of_work (.answering (.bind (.tick hs) h))

theorem statement {e : Expr} {ctx : Context} (h : (Task.eval e ctx).Gives s o s') :
    (Task.statements [e] ctx).Gives s o s' := of_work (.answering (.perform h))

theorem native {n : NativeMethod} {c : Call} (h : (n.routine.run c).Gives s o s') :
    (Task.native n c).Gives s o s' := of_work (.answering h)

theorem framed {frame : CallFrame} {t : Task} (hs : s.frames.size < s.config.maxCallDepth)
    (h : t.Gives { s with frames := s.frames.push frame } o s') :
    (Task.framed frame t).Gives s o { s' with frames := s'.frames.pop } :=
  of_work (.answering (.inFrame frame hs h))

theorem framed_deep (frame : CallFrame) (t : Task) (hs : s.config.maxCallDepth ≤ s.frames.size) :
    (Task.framed frame t).Gives s (.error (.halt (.depth s.config.maxCallDepth))) s := by
  have hpush : (Eval.pushFrame frame).Gives s (.error (.halt (.depth s.config.maxCallDepth))) s :=
    ⟨[], by rw [Eval.pushFrame, if_pos hs]; exact .done⟩
  exact of_work (.answering (.bind_error hpush))

theorem send_framed {name : String} {c : Call} {m : Method} {n : NativeMethod}
    (hanswer : s.answer c.receiver name (c.args.isEmpty && c.block.isNone) = .method m)
    (hclauses : m.clauses = [.native n])
    (hfits : n.signature.mismatch s.types.sort c.receiver c.args c.block.isSome = none)
    (h : (Task.framed ⟨n.label, c.span⟩ (.native n c)).Gives
      { s with held := ⟨[.type m.owner], none⟩ :: s.held } o s') :
    (Task.send name c).Gives s o { s' with held := s.held } := by
  have hrun : (Eval.holding [.type m.owner] (Eval.runNative n c)).Gives s o
      { s' with held := s.held } := .keeping _ (.perform h)
  have hinvoke : (Eval.invoke m c).Gives s o { s' with held := s.held } := by
    rw [Eval.invoke, hclauses, Eval.runClauses]
    refine .bind (.read _ s) ?_
    rw [hfits]
    exact hrun
  refine of_work (.answering (.bind (.read _ s) ?_))
  rw [hanswer]
  exact hinvoke

theorem send {name : String} {c : Call} {m : Method} {n : NativeMethod}
    (hanswer : s.answer c.receiver name (c.args.isEmpty && c.block.isNone) = .method m)
    (hclauses : m.clauses = [.native n])
    (hfits : n.signature.mismatch s.types.sort c.receiver c.args c.block.isSome = none)
    (hs : s.frames.size < s.config.maxCallDepth)
    (h : (n.routine.run c).Gives { s with
      held := ⟨[.type m.owner], none⟩ :: s.held, frames := s.frames.push ⟨n.label, c.span⟩ } o s') :
    (Task.send name c).Gives s o { s' with frames := s'.frames.pop, held := s.held } :=
  send_framed hanswer hclauses hfits (.framed hs (.native h))

theorem send_deep {name : String} {c : Call} {m : Method} {n : NativeMethod}
    (hanswer : s.answer c.receiver name (c.args.isEmpty && c.block.isNone) = .method m)
    (hclauses : m.clauses = [.native n])
    (hfits : n.signature.mismatch s.types.sort c.receiver c.args c.block.isSome = none)
    (hs : s.config.maxCallDepth ≤ s.frames.size) :
    (Task.send name c).Gives s (.error (.halt (.depth s.config.maxCallDepth))) s := by
  let called : State := { s with held := ⟨[.type m.owner], none⟩ :: s.held }
  have hdeep : (Task.framed ⟨n.label, c.span⟩ (.native n c)).Gives called
      (.error (.halt (.depth s.config.maxCallDepth))) called := .framed_deep _ _ hs
  have hsend := send_framed hanswer hclauses hfits hdeep
  exact hsend

end Task.Gives

structure State.Keeps (s s' : State) : Prop where
  lists : ∀ (i : Nat) items, s.lists[i]? = some items → s'.lists[i]? = some items
  objects : ∀ (i : Nat) obj, s.objects[i]? = some obj → s'.objects[i]? = some obj

/-- The settings, the types and the calls in progress have not changed either. -/
structure State.Grows (s s' : State) : Prop extends s.Keeps s' where
  config : s'.config = s.config
  types : s'.types = s.types
  frames : s'.frames = s.frames

namespace State

variable {s s₁ s' : State}

theorem Keeps.of_eq (hl : s'.lists = s.lists) (ho : s'.objects = s.objects) : s.Keeps s' :=
  ⟨fun i items h ↦ by rwa [hl], fun i obj h ↦ by rwa [ho]⟩

theorem Keeps.trans (h : s.Keeps s₁) (h' : s₁.Keeps s') : s.Keeps s' :=
  ⟨fun i items hi ↦ h'.lists i items (h.lists i items hi),
    fun i obj hi ↦ h'.objects i obj (h.objects i obj hi)⟩

namespace Grows

theorem refl (s : State) : s.Grows s := ⟨.of_eq rfl rfl, rfl, rfl, rfl⟩

theorem trans (h : s.Grows s₁) (h' : s₁.Grows s') : s.Grows s' :=
  ⟨h.toKeeps.trans h'.toKeeps, h'.config.trans h.config, h'.types.trans h.types,
    h'.frames.trans h.frames⟩

theorem held {now after : List Held} (h : Grows { s with held := now } s') :
    s.Grows { s' with held := after } := ⟨⟨h.lists, h.objects⟩, h.config, h.types, h.frames⟩

theorem called {frame : CallFrame} {now after : List Held}
    (h : Grows { s with held := now, frames := s.frames.push frame } s') :
    s.Grows { s' with frames := s'.frames.pop, held := after } := by
  refine ⟨⟨h.lists, h.objects⟩, h.config, h.types, ?_⟩
  rw [h.frames, Array.pop_push]

theorem newList (s : State) (items : Array Value) : s.Grows (s.newList items).2 := by
  refine ⟨⟨fun i found hi ↦ ?_, fun _ _ h ↦ h⟩, rfl, rfl, rfl⟩
  have hlt : i < s.lists.size := (Array.getElem?_eq_some_iff.mp hi).1
  exact (Array.getElem?_push_lt hlt).trans ((Array.getElem?_eq_getElem hlt).symm.trans hi)

theorem newObject (s : State) (t : TypeId) (attrs : Bindings Value) :
    s.Grows (s.newObject t attrs).2 := by
  refine ⟨⟨fun _ _ h ↦ h, fun i found hi ↦ ?_⟩, rfl, rfl, rfl⟩
  have hlt : i < s.objects.size := (Array.getElem?_eq_some_iff.mp hi).1
  exact (Array.getElem?_push_lt hlt).trans ((Array.getElem?_eq_getElem hlt).symm.trans hi)

end Grows

def Raises {α : Type} (s : State) (f : Fault) (span : Span) (o : Outcome α) : Prop :=
  ∃ (id : ObjectId) (calls : Array CallFrame), o = .error (.raise ⟨.object id, span, calls⟩) ∧
    s.objects[id.index]? = some ⟨f.type.id, ⟨[("message", .str f.message)]⟩⟩

end State

/-- What remains true of an outcome as long as contents are kept. -/
def Lasting {α : Type} (P : State → Outcome α → Prop) : Prop :=
  ∀ ⦃s s' : State⦄ ⦃o : Outcome α⦄, s.Keeps s' → P s o → P s' o

theorem lasting_eq {α : Type} (o : Outcome α) : Lasting fun _ o' ↦ o' = o :=
  fun _ _ _ _ h ↦ h

theorem State.raises_lasting {α : Type} (f : Fault) (span : Span) :
    Lasting fun s (o : Outcome α) ↦ s.Raises f span o := by
  rintro s s' _ hs ⟨id, calls, rfl, hobj⟩
  exact ⟨id, calls, rfl, hs.objects _ _ hobj⟩

/-- The task ends in a grown state, as `P` says. -/
def Task.Yields (t : Task) (s : State) (P : State → Outcome Value → Prop) : Prop :=
  ∃ o s', t.Gives s o s' ∧ s.Grows s' ∧ P s' o

def Eval.Yields {α : Type} (x : Eval α) (s : State) (P : State → Outcome α → Prop) : Prop :=
  ∃ o s', x.Gives s o s' ∧ s.Grows s' ∧ P s' o

namespace Eval.Yields

variable {α β : Type} {s : State} {P : State → Outcome α → Prop} {Q : State → Outcome β → Prop}

theorem pure {a : α} (h : P s (.ok a)) : (Pure.pure a : Eval α).Yields s P :=
  ⟨_, s, .pure a s, .refl s, h⟩

theorem mono {P' : State → Outcome α → Prop} {x : Eval α} (hx : x.Yields s P)
    (h : ∀ s' o, P s' o → P' s' o) : x.Yields s P' := by
  obtain ⟨o, s', hgives, hgrows, hP⟩ := hx
  exact ⟨o, s', hgives, hgrows, h s' o hP⟩

theorem bind {x : Eval α} {f : α → Eval β} (hx : x.Yields s P)
    (hf : ∀ s₁ a, s.Grows s₁ → P s₁ (.ok a) → (f a).Yields s₁ Q)
    (he : ∀ s₁ u, P s₁ (.error u) → Q s₁ (.error u)) : (x >>= f).Yields s Q := by
  obtain ⟨o, s₁, hgives, hgrows, hP⟩ := hx
  cases o with
  | ok a =>
    obtain ⟨o', s', hgives', hgrows', hQ⟩ := hf s₁ a hgrows hP
    exact ⟨o', s', hgives.bind hgives', hgrows.trans hgrows', hQ⟩
  | error u => exact ⟨.error u, s₁, hgives.bind_error, hgrows, he s₁ u hP⟩

theorem bind_ok {x : Eval α} {f : α → Eval β} {R : State → α → Prop}
    (hx : x.Yields s fun s' o ↦ ∃ a, o = .ok a ∧ R s' a)
    (hf : ∀ s₁ a, s.Grows s₁ → R s₁ a → (f a).Yields s₁ Q) : (x >>= f).Yields s Q := by
  refine hx.bind (fun s₁ a hgrows ⟨a', ha, h⟩ ↦ ?_) fun s₁ u ⟨a, ha, h⟩ ↦ ?_
  · cases ha
    exact hf s₁ a hgrows h
  · cases ha

theorem bind_eq {x : Eval α} {f : α → Eval β} {a : α} (hx : x.Yields s fun _ o ↦ o = .ok a)
    (hf : ∀ s₁, s.Grows s₁ → (f a).Yields s₁ Q) : (x >>= f).Yields s Q := by
  refine hx.bind (fun s₁ a' hgrows ha ↦ ?_) fun s₁ u hu ↦ ?_
  · cases ha
    exact hf s₁ hgrows
  · cases hu

theorem read {f : State → α} (h : P s (.ok (f s))) : (read f).Yields s P :=
  ⟨_, s, .read f s, .refl s, h⟩

theorem reading {g : State → α} {f : α → Eval β} (h : (f (g s)).Yields s Q) :
    (Eval.read g >>= f).Yields s Q := by
  obtain ⟨o, s', hgives, hend⟩ := h
  exact ⟨o, s', .bind (.read g s) hgives, hend⟩

theorem perform {t : Task} {P : State → Outcome Value → Prop} (h : t.Yields s P) :
    (perform t).Yields s P := by
  obtain ⟨o, s', hgives, hgrows, hP⟩ := h
  exact ⟨o, s', .perform hgives, hgrows, hP⟩

theorem keeping (hP : Lasting P) (h : Held) {x : Eval α}
    (hx : x.Yields { s with held := h :: s.held } P) : (keeping h x).Yields s P := by
  obtain ⟨o, s', hgives, hgrows, hend⟩ := hx
  have hkeeps : s'.Keeps { s' with held := s.held } := .of_eq rfl rfl
  exact ⟨o, _, hgives.keeping, hgrows.held, hP hkeeps hend⟩

theorem fault (f : Fault) (span : Span) (s : State) :
    (fault f span : Eval α).Yields s fun s' o ↦ s'.Raises f span o :=
  ⟨_, _, .fault f span s, .newObject s _ _, ⟨s.objects.size⟩, s.frames, rfl,
    Array.getElem?_push_size⟩

end Eval.Yields

namespace Task.Yields

variable {s : State} {P : State → Outcome Value → Prop}

theorem eval {e : Expr} {ctx : Context} (hs : s.config.stepLimit = none)
    (h : (Eval.expression e ctx).Yields { s with steps := s.steps + 1 } P) :
    (Task.eval e ctx).Yields s P := by
  obtain ⟨o, s', hgives, hgrows, hend⟩ := h
  exact ⟨o, s', .eval hs hgives,
    ⟨⟨hgrows.lists, hgrows.objects⟩, hgrows.config, hgrows.types, hgrows.frames⟩, hend⟩

theorem send (hP : Lasting P) {name : String} {c : Call} {m : Method} {n : NativeMethod}
    (hanswer : s.answer c.receiver name (c.args.isEmpty && c.block.isNone) = .method m)
    (hclauses : m.clauses = [.native n])
    (hfits : n.signature.mismatch s.types.sort c.receiver c.args c.block.isSome = none)
    (hs : s.frames.size < s.config.maxCallDepth)
    (h : ∀ held frame, (n.routine.run c).Yields { s with
      held, frames := s.frames.push frame } P) :
    (Task.send name c).Yields s P := by
  obtain ⟨o, s', hgives, hgrows, hend⟩ := h _ _
  have hkeeps : s'.Keeps { s' with frames := s'.frames.pop, held := s.held } := .of_eq rfl rfl
  exact ⟨o, _, .send hanswer hclauses hfits hs hgives, hgrows.called, hP hkeeps hend⟩

end Task.Yields

end Quill
