import Mathlib.Data.Prod.Lex
import Quill.Proofs.Calm
import Quill.Proofs.Evaluation
import Quill.Proofs.Nesting
import Quill.Proofs.RawText

/-!
# What is left to be done

Within a step limit a task ends, unless comparisons wait for comparisons without end, or a value
that contains itself is to be shown with its raw text. What goes down on the way from a task to one
it waits for is, first of all, the number of steps that are left, then that of calls, then that of
comparisons, and then where the task stands in the order of `Task.rank`. Main statement:
`Machine.gives_of_chained`.
-/

namespace Quill

open State

namespace Task

/-- The order in which tasks wait for each other without an evaluation or a call in between. -/
def rank : Task → Nat
  | eval .. | framed .. => 0
  | statements .. | guard .. | loop .. => 1
  | rawText _ => 2
  | send name c => if c.args.isEmpty then 2 else if name == "==" then 4 else 5
  | describe _ => 3
  | super .. | callLambda .. | body .. | forEach .. => 5
  | visit .. | times .. => 6
  | native .. => 7
  | handling _ t => t.rank

def handlings : Task → Nat
  | handling _ t => t.handlings + 1
  | _ => 0

theorem handlings_family (t : Task) : t.family.handlings = t.handlings := by cases t <;> rfl

theorem isComparison_family (t : Task) : t.family.isComparison = t.isComparison := by
  cases t <;> rfl

theorem rank_of_isEval {t : Task} (h : t.isEval) : t.rank = 0 := by
  cases t <;> first | rfl | cases h

theorem rank_send_le (name : String) (c : Call) : (send name c).rank ≤ 5 := by
  unfold rank
  split
  · omega
  · split <;> omega

theorem rank_le {t : Task} (h : t.isNative = false) : t.rank ≤ 6 := by
  induction t with
  | native => cases h
  | handling r t ih => exact ih h
  | send name c => exact Nat.le_succ_of_le (rank_send_le name c)
  | _ => simp [rank]

/-- Stands lower than another task. -/
def Below (t' t : Task) : Prop :=
  t'.rank < t.rank ∨ t'.rank = t.rank ∧ t'.handlings < t.handlings

/-- What a task waits for unless an evaluation or a call comes in between. -/
def asksBelow (t t' : Task) : Prop :=
  t.isEval ∨ t.isFramed ∨ t'.Below t ∨ t.isComparison ∧ t'.isComparison

theorem PartOfCall.rank_le {args : List Value} {t : Task} (h : PartOfCall args t) :
    t.rank ≤ 4 := by
  cases h <;> simp [rank]

theorem PartOfCall.below_message {name : String} {c : Call} {t : Task}
    (h : PartOfCall c.args t) :
    t.rank < (send name c).rank ∨ (send name c).isComparison ∧ t.isComparison := by
  cases h with
  | compare a b hargs =>
    cases hname : name == "==" <;> simp [rank, isComparison, hargs, hname]
  | describe v hargs | rawText v hargs =>
    left
    simp only [rank, List.isEmpty_iff, hargs, if_false]
    split <;> omega
  | _ =>
    left
    simp only [rank]
    split
    · omega
    · split <;> omega

theorem PartOfBody.rank_lt {t : Task} (h : PartOfBody t) : t.rank < 5 := by
  cases h <;> simp [rank]

end Task

namespace Step.Awaits

variable {α β : Type} {P Q : Task → Prop} {x : Step α}

theorem mono (h : ∀ t, P t → Q t) (hx : x.Awaits P) : x.Awaits Q := by
  induction x with
  | done o s => trivial
  | wait t s resume ih => exact ⟨h t hx.1, fun o s' ↦ ih o s' (hx.2 o s')⟩

theorem bind {f : α → State → Step β} (hx : x.Awaits P) (hf : ∀ a s, (f a s).Awaits P) :
    (x.bind f).Awaits P := by
  induction x with
  | done o s =>
    cases o with
    | ok a => exact hf a s
    | error u => trivial
  | wait t s resume ih => exact ⟨hx.1, fun o s' ↦ ih o s' (hx.2 o s')⟩

theorem attempt (hx : x.Awaits P) : x.attempt.Awaits P := by
  induction x with
  | done o s => trivial
  | wait t s resume ih => exact ⟨hx.1, fun o s' ↦ ih o s' (hx.2 o s')⟩

theorem restoring (before : List Held) (hx : x.Awaits P) : (x.restoring before).Awaits P := by
  induction x with
  | done o s => trivial
  | wait t s resume ih => exact ⟨hx.1, fun o s' ↦ ih o s' (hx.2 o s')⟩

end Step.Awaits

namespace Task

theorem isNative_of_code {t : Task} (h : t.kind = .code) : t.isNative = false := by
  induction t with
  | native => cases h
  | handling r t ih => exact ih h
  | _ => rfl

theorem isNative_of_fits {t : Task} (h : t.fits .closed) : t.isNative = false := by
  simp only [fits, Bool.and_eq_true, Bool.not_eq_true'] at h
  exact h.2

theorem isNative_of_not_fits {t : Task} (h : ¬ t.fits .message = true) : t.isNative = false := by
  simp only [fits, Bool.or_eq_true, not_or, bne_iff_ne, ne_eq, Decidable.not_not] at h
  exact isNative_of_code h.1

end Task

theorem Eval.Composed.awaits {α : Type} {k : Kind} {x : Eval α} (h : Composed k x)
    (hk : k = .closed) (s : State) : (x s).Awaits fun t ↦ t.isNative = false := by
  induction h generalizing s with
  | pure | read | change | unwind => trivial
  | bind hx hf ihx ihf =>
    rw [bind_apply]
    exact (ihx hk s).bind fun a ↦ ihf a hk
  | perform ht =>
    subst hk
    exact ⟨Task.isNative_of_fits ht, fun _ _ ↦ trivial⟩
  | keeping h hx ih => exact (ih hk _).restoring _
  | @caught k α β x f hcode hx hok herr hhalt ihx ihok iherr =>
    have hx' : ∀ s, (x s).Awaits fun t ↦ ¬ t.fits .message = true :=
      hcode.resolve_left (by simp [hk])
    rw [bind_apply]
    refine ((hx' s).mono fun _ ↦ Task.isNative_of_not_fits).attempt.bind fun o s' ↦ ?_
    match o with
    | .ok a => exact ihok a hk s'
    | .error (.halt l) => rw [hhalt l]; trivial
    | .error (.raise _) | .error (.return_ _) | .error (.break_ _) | .error (.blockBreak ..)
    | .error (.next _) => exact iherr _ rfl hk s'

theorem Task.work_asks_below (t : Task) (s : State) : (t.work s).Awaits t.asksBelow := by
  have lower {A : Task → Prop} {x : Eval Reply} (hx : x.Asks A fun _ _ ↦ True)
      (hA : ∀ t', A t' → t'.rank < t.rank) : (x s).Awaits t.asksBelow :=
    (hx s).awaits.mono fun t' ht ↦ .inr (.inr (.inl (.inl (hA t' ht))))
  -- Evaluations and calls may wait for anything. Of the others only a comparison may wait for
  -- something that is not below it, and that is a comparison.
  cases t with
  | eval | framed =>
    exact Step.awaits_all (by simp [asksBelow, isEval, isFramed]) _
  | handling r t =>
    rw [work_handling]
    exact ⟨.inr (.inr (.inl (.inr ⟨rfl, Nat.lt_succ_self _⟩))), fun _ _ ↦ trivial⟩
  | native n c =>
    refine ((Eval.Composed.answering (.routine n.routine c)).awaits rfl s).mono fun t' ht ↦ ?_
    exact .inr (.inr (.inl (.inl (Nat.lt_succ_of_le (rank_le ht)))))
  | statements es ctx =>
    have asks : (Eval.statements ctx es).Asks (·.isEval) fun _ _ ↦ True :=
      .statements ctx es fun _ _ ↦ rfl
    exact lower asks.answering fun t' ht ↦ by simp [rank_of_isEval ht, rank]
  | guard e ctx =>
    have asks : (Eval.eval e ctx).Asks (·.isEval) fun _ _ ↦ True := .perform rfl
    exact lower asks.answering fun t' ht ↦ by simp [rank_of_isEval ht, rank]
  | loop condition es ctx =>
    have asks : (Eval.loopRound condition es ctx).Asks (·.isEval) fun _ _ ↦ True :=
      .loopRound condition es ctx fun _ _ ↦ rfl
    exact lower asks fun t' ht ↦ by simp [rank_of_isEval ht, rank]
  | body b ctx => exact lower (.answering (.body b ctx fun _ h ↦ h)) fun _ h ↦ h.rank_lt
  | forEach p es ctx span list index =>
    exact lower (.forRound p es ctx span list index fun _ h ↦ h) fun _ h ↦ h.rank_lt
  | send name c =>
    have asks : (Eval.deliver name c).Asks (PartOfCall c.args) fun _ _ ↦ True :=
      .deliver name fun _ h ↦ h
    exact (asks.answering s).awaits.mono fun t' ht ↦
      .inr (.inr (ht.below_message.imp_left .inl))
  | super frame c =>
    exact lower (.answering (.deliverSuper frame fun _ h ↦ h)) fun _ h ↦
      Nat.lt_succ_of_le (PartOfCall.rank_le h)
  | callLambda l args block span =>
    have asks : (Eval.callLambda l args block span).Asks (·.rank ≤ 4) fun _ _ ↦ True :=
      .callLambda l args block span (fun _ _ ↦ by simp [rank]) (fun _ ↦ by simp [rank])
        fun _ _ _ ↦ by simp [rank]
    exact lower asks.answering fun _ h ↦ Nat.lt_succ_of_le h
  | describe v =>
    have asks : (Eval.describe v).Asks (·.rank ≤ 2) fun _ _ ↦ True :=
      .describe v (by simp [rank]) fun _ ↦ by simp [rank]
    exact lower asks fun _ h ↦ Nat.lt_succ_of_le h
  | rawText v => exact lower (A := fun _ ↦ False) (.rawText v) fun _ h ↦ h.elim
  | visit v list block span index =>
    have asks : (Eval.visitRound v list block span index).Asks (·.rank ≤ 5) fun _ _ ↦ True :=
      .visitRound v list block span index (fun _ _ ↦ by simp [rank]) fun _ _ ↦ rank_send_le _ _
    exact lower asks fun _ h ↦ Nat.lt_succ_of_le h
  | times left index block span =>
    have asks : (Eval.timesRound left index block span).Asks (·.rank ≤ 5) fun _ _ ↦ True :=
      .timesRound left index block span (fun _ _ ↦ by simp [rank]) fun _ _ ↦ rank_send_le _ _
    exact lower asks fun _ h ↦ Nat.lt_succ_of_le h

namespace Task

/-- How many of the tasks, the innermost first, are comparisons that the next one, which is a
comparison, waits for. -/
def chained : List Task → Nat
  | t :: t' :: ts => chained (t' :: ts) + if t.isComparison && t'.isComparison then 1 else 0
  | _ => 0

theorem chained_append (ts : List Task) (t t' : Task) :
    chained (ts ++ [t, t']) =
      chained (ts ++ [t]) + if t.isComparison && t'.isComparison then 1 else 0 := by
  induction ts with
  | nil => simp [chained]
  | cons u ts ih =>
    cases ts with
    | nil => simp [chained, Nat.add_comm]
    | cons u' ts =>
      simp only [List.cons_append] at ih ⊢
      simp only [chained, ih]
      omega

theorem chained_le_length (ts : List Task) : chained ts ≤ ts.length := by
  induction ts with
  | nil => simp [chained]
  | cons t ts ih =>
    cases ts with
    | nil => simp [chained]
    | cons t' ts =>
      simp only [chained, List.length_cons] at ih ⊢
      split <;> omega

end Task

namespace Machine

variable {t t' : Task} {s s' : State} {m m' : Machine}

/-- How many of the tasks in progress are comparisons that another comparison waits for. -/
def chained (m : Machine) : Nat := Task.chained (m.task :: m.waitingTasks)

theorem chained_above (h : (start t s).Reaches m) (p : Pending) :
    (m.above [p]).chained =
      m.chained + if t.isComparison && p.task.isComparison then 1 else 0 := by
  obtain ⟨-, last, hlast, hfamily⟩ := h.chain waitsInCall
  obtain ⟨ts, hts⟩ := List.getLast?_eq_some_iff.mp hlast
  have hsame : last.isComparison = t.isComparison := by
    rw [← last.isComparison_family, hfamily, t.isComparison_family]
  have habove : (m.above [p]).task :: (m.above [p]).waitingTasks = ts ++ [last, p.task] := by
    have hwaiting : (m.above [p]).waitingTasks = m.waitingTasks ++ [p.task] := by
      simp [above, waitingTasks]
    rw [hwaiting, ← List.cons_append]
    change m.task :: m.waitingTasks ++ _ = _
    rw [hts, List.append_assoc]
    rfl
  rw [chained, habove, Task.chained_append, ← hts, hsame]
  rfl

theorem length_waiting_le {n : Nat} {r : Outcome Value × State} (h : m.run n = some r)
    (hr : m.Reaches m') : m'.waiting.length + 1 ≤ m.waiting.length + n := by
  induction n generalizing m with
  | zero => cases h
  | succ n ih =>
    obtain rfl | ⟨m₁, hn, hrest⟩ := hr.cases_head
    · omega
    · unfold run at h
      rw [hn] at h
      have hle := ih h hrest
      have hgrows : m₁.waiting.length ≤ m.waiting.length + 1 := by
        obtain ⟨t', s, resume, hx, rfl⟩ | ⟨t', s, hx, rfl⟩ | ⟨o, s, p, ps, hx, hw, rfl⟩ :=
          next_cases hn
        · simp
        · simp
        · simp only [hw, List.length_cons]
          omega
      omega

theorem chained_le_of_run {n : Nat} {r : Outcome Value × State}
    (h : (start t s).run n = some r) (hr : (start t s).Reaches m) : m.chained ≤ n := by
  have hlength := length_waiting_le h hr
  have hchained := Task.chained_le_length (m.task :: m.waitingTasks)
  simp only [start, List.length_nil] at hlength
  simp only [waitingTasks, List.length_cons, List.length_map] at hchained
  exact Nat.le_trans hchained (by omega)

end Machine

/-- Compares no argument with a pattern. -/
def Clause.isPlain : Clause → Bool
  | .user d => !Pattern.anyCompares d.params.items
  | .native _ => true

/-- No `==` compares its argument with a pattern. -/
def Types.ComparePlainly (ts : Types) : Prop := ts.AllUnder "==" (·.isPlain)

theorem Types.comparePlainly_standard : standard.ComparePlainly := by
  have lasting : TypeInfo.Lasting fun t ↦ MethodTable.AllUnder t.methods "==" (·.isPlain) ∧
      MethodTable.AllUnder t.classMethods "==" (·.isPlain) := {
    new := fun _ _ _ _ ↦ ⟨nofun, nofun⟩
    constant := fun _ _ h ↦ h
    attr := fun _ _ h ↦ h
    includes := fun _ h ↦ h
    doc := fun _ h ↦ h
    orphan := fun h ↦ h }
  unfold standard
  exact (every_core lasting).foldl fun _ h e _ ↦ h.addNative e.classSide
    (fun _ _ ht _ ↦ ⟨ht.1.insert fun _ ↦ rfl, ht.2⟩)
    fun _ _ ht _ ↦ ⟨ht.1, ht.2.insert fun _ ↦ rfl⟩

namespace Task

/-- Does not compare for the sake of a comparison. -/
def asksPlainly (t t' : Task) : Prop := t.isComparison → t'.isComparison = false

theorem asksPlainly_family (t u u' : Task) (h : u'.family = u.family) (hu : t.asksPlainly u) :
    t.asksPlainly u' := by
  intro ht
  rw [← u'.isComparison_family, h, u.isComparison_family]
  exact hu ht

theorem work_asks_plainly (t : Task) {s : State} (hs : s.types.ComparePlainly) :
    (t.work s).Awaits t.asksPlainly := by
  cases t with
  | send name c =>
    cases hname : name == "==" with
    | false => exact Step.awaits_all (fun _ h ↦ by simp [isComparison, hname] at h) _
    | true =>
      rw [beq_iff_eq] at hname
      subst hname
      have asks : (Eval.deliver "==" c s).Asks (·.isComparison = false) (fun _ _ ↦ True) s := by
        unfold Eval.deliver
        refine Eval.Asks.reading ?_
        cases hm : s.answer c.receiver "==" (c.args.isEmpty && c.block.isNone) with
        | method m =>
          have plain (d : MethodDef) (hd : .user d ∈ m.clauses) :
              Pattern.anyCompares d.params.items = false := by
            simpa [Clause.isPlain] using hs.answer hm (.user d) hd
          have asks : (Eval.invoke m c).Asks (·.isComparison = false) fun _ _ ↦ True :=
            .runClauses m none m.clauses (fun _ _ ↦ rfl)
              (fun d hd _ hcompares ↦ by simp [plain d hd] at hcompares) (fun _ _ ↦ rfl)
              (fun _ _ _ ↦ rfl) fun _ _ _ ↦ rfl
          exact asks s
        | constant v => exact Eval.Asks.pure v s
        | nothing => exact Eval.Asks.bind (.read _) (fun _ ↦ .missing _ _ _ c.span) s
      exact (Eval.Asks.answering_at asks).awaits.mono fun _ h _ ↦ h
  | _ => exact Step.awaits_all (fun _ h ↦ nomatch h) _

theorem chained_eq_zero {ts : List Task}
    (h : ts.IsChain fun inner outer ↦ asksPlainly outer inner) : chained ts = 0 := by
  induction ts with
  | nil => rfl
  | cons t ts ih =>
    cases ts with
    | nil => rfl
    | cons t' ts =>
      obtain ⟨hfirst, hrest⟩ := List.isChain_cons_cons.mp h
      have hnot : (t.isComparison && t'.isComparison) = false := by
        cases ht' : t'.isComparison with
        | false => simp
        | true => simp [hfirst ht']
      simp [chained, ih hrest, hnot]

end Task

namespace Machine

variable {t : Task} {s : State} {m : Machine}

theorem chained_of_plain (hs : s.types.ComparePlainly)
    (hplain : ∀ m, (start t s).Reaches m → m.work.state.types.ComparePlainly)
    (h : (start t s).Reaches m) : m.chained = 0 := by
  have kept : Kept Task.family fun m ↦ (start t s).Reaches m ∧
      m.work.Awaits m.task.asksPlainly ∧
      m.work.Ends fun r ↦ ∀ t', r = .task t' → t'.family = m.task.family := {
    starts := fun hm ↦ ⟨hm.1.tail rfl, Task.work_asks_plainly _ (hplain _ hm.1),
      Task.work_leads_family _ _⟩
    resumes := fun {_ _ _ _ _ _ _ o} hm _ hend ↦
      ⟨hend.1.tail (by cases o <;> rfl), hm.2.1.2 _ _, hm.2.2 _ _⟩
    givesWay := fun hm ↦ ⟨⟨hm.1.tail rfl, Task.work_asks_plainly _ (hplain _ hm.1),
      Task.work_leads_family _ _⟩, hm.2.2 _ rfl _ rfl⟩ }
  have waiting := (kept.reaches_waiting
    ⟨.refl, Task.work_asks_plainly t hs, Task.work_leads_family t s⟩ h).2
  exact Task.chained_eq_zero
    (chain_of_waiting Task.asksPlainly_family (fun _ hm ↦ hm.2.1) waiting).1

end Machine

namespace Task

def rounds (s : State) : Task → Nat
  | forEach _ _ _ _ list index | visit _ list _ _ index => (s.items list).size - index
  | times left .. => left
  | _ => 0

/-- What is left for a task when it is started, if no more than `n` comparisons wait for others
then. -/
def left (n : Nat) (t : Task) (s : State) : Nat ×ₗ Nat ×ₗ Nat ×ₗ Nat ×ₗ Nat ×ₗ Nat :=
  toLex (s.config.stepLimit.getD 0 - s.steps, toLex (s.config.maxCallDepth - s.frames.size,
    toLex (n, toLex (t.rank, toLex (t.handlings, t.rounds s)))))

end Task

namespace Machine

variable {t t' : Task} {s s' : State} {m m' : Machine} {l n n' : Nat} {resume : Resume Reply}

theorem reaches_eq {r : Outcome Value × State} (h : m.next = .inr r) (hr : m.Reaches m') :
    m' = m := by
  obtain rfl | ⟨m₁, hn, -⟩ := hr.cases_head
  · rfl
  · cases h.symm.trans hn

theorem not_hit_of_reaches (hr : (start t s).Reaches m) (hm : ∀ l, ¬ m.Unwinds (.halt l)) :
    t.hit s = none := by
  cases hhit : t.hit s with
  | none => rfl
  | some l =>
    obtain ⟨s₁, hwork⟩ := Task.work_of_hit hhit
    have hunwinds : (start t s).Unwinds (.halt l) := ⟨s₁, hwork⟩
    obtain ⟨s₂, hnext⟩ := hunwinds.next rfl
    rw [← reaches_eq hnext hr] at hunwinds
    exact absurd hunwinds (hm l)

end Machine

namespace Task

variable {t : Task} {s : State} {l : Nat}

theorem steps_lt_of_not_hit {e : Expr} {ctx : Context} (h : (eval e ctx).hit s = none)
    (hl : s.config.stepLimit = some l) : s.steps < l := by
  by_contra hle
  simp [hit, Eval.tick, hl, show l < s.steps + 1 by omega] at h

theorem frames_lt_of_not_hit {frame : CallFrame} (h : (framed frame t).hit s = none) :
    s.frames.size < s.config.maxCallDepth := by
  by_contra hle
  simp [hit, Eval.pushFrame, show s.config.maxCallDepth ≤ s.frames.size by omega] at h

end Task

namespace Machine

theorem left_awaited (hl : s.config.stepLimit = some l) (hn : n' ≤ n)
    (hr : (start t s).Reaches ⟨t, .wait t' s' resume, []⟩) (hasks : t.asksBelow t')
    (hchained : t.isComparison → t'.isComparison → n' < n) :
    t'.left n' s' < t.left n s := by
  have later : Later s s' := Reaches.evolves_start later_enduring hr
  have hsteps := later.steps
  have hhit : t.hit s = none := not_hit_of_reaches hr (by rintro l' ⟨s₁, h⟩; cases h)
  have hframes : s'.frames.size = s.frames.size + if t.isFramed then 1 else 0 := by
    have hsize := Reaches.frames_size hr
    simpa [inProgress, waitingTasks, List.countP_cons, Nat.add_comm, Step.state] using hsize
  simp only [Task.left, later.config, hl, Option.getD_some, Prod.Lex.toLex_lt_toLex]
  obtain heval | hframed | hbelow | ⟨ht, ht'⟩ := hasks
  · obtain ⟨e, ctx, rfl⟩ : ∃ e ctx, t = .eval e ctx := by
      cases t <;> first | exact ⟨_, _, rfl⟩ | cases heval
    have hlt := Task.steps_lt_of_not_hit hhit hl
    have first : s.steps + 1 ≤ ((Task.eval e ctx).work s).state.steps :=
      (Task.eval_later e ctx s).state.steps
    have rest : ((Task.eval e ctx).work s).state.steps ≤ s'.steps :=
      (Reaches.later .refl hr).steps
    omega
  · obtain ⟨frame, u, rfl⟩ : ∃ frame u, t = .framed frame u := by
      cases t <;> first | exact ⟨_, _, rfl⟩ | cases hframed
    have hlt := Task.frames_lt_of_not_hit hhit
    rw [if_pos hframed] at hframes
    omega
  · unfold Task.Below at hbelow
    split at hframes <;> omega
  · have hlt := hchained ht ht'
    split at hframes <;> omega

theorem loop_counted {condition : Expr} {es : List Expr} {ctx : Context}
    (hl : s.config.stepLimit = some l)
    (hr : (start (.loop condition es ctx) s).Reaches ⟨t, .done (.ok (.task t')) s', []⟩) :
    s.steps < l ∧ s.steps < s'.steps := by
  obtain ⟨resume, hnext, hresume⟩ : ∃ resume : Resume Reply,
      (start (.loop condition es ctx) s).next = .inl ⟨.eval condition ctx,
        (Task.eval condition ctx).work s, [⟨.loop condition es ctx, resume⟩]⟩ ∧
      ∀ u s, resume (.error u) s = .done (.error u) s := ⟨_, rfl, fun _ _ ↦ rfl⟩
  obtain heq | ⟨m₁, hn, hrest⟩ := hr.cases_head
  · cases congrArg work heq
  cases hnext.symm.trans hn
  cases hhit : (Task.eval condition ctx).hit s with
  | none =>
    have first := (Task.eval_later condition ctx s).state.steps
    have rest := (Reaches.later (.single hnext) hrest).steps
    exact ⟨Task.steps_lt_of_not_hit hhit hl, Nat.le_trans first rest⟩
  | some limit =>
    -- The loop ends with the limit and has no other round.
    obtain ⟨s₁, hwork⟩ := Task.work_of_hit hhit
    obtain heq | ⟨m₂, hn, hrest⟩ := hrest.cases_head
    · cases congrArg waiting heq
    · rw [hwork] at hn
      cases hn
      dsimp only at hrest
      rw [hresume] at hrest
      cases congrArg work (reaches_eq rfl hrest)

theorem circles_of_rawText {v : Value}
    (hr : (start (.rawText v) s).Reaches ⟨.rawText v, .done (.ok (.task (.rawText v))) s', []⟩) :
    (start (.rawText v) s).Circles := by
  refine ⟨v, rfl, ?_⟩
  rw [start, Task.work_rawText]
  refine State.rawText?_eq_none_iff.mp ?_
  cases htext : s.rawText? v with
  | none => exact htext
  | some text =>
    have hend : (start (.rawText v) s).next = .inr (.ok (.str text), s) := by
      rw [start, Task.work_rawText, htext]
      rfl
    have hwork := congrArg work (reaches_eq hend hr)
    rw [start, Task.work_rawText, htext] at hwork
    cases hwork

theorem left_round (hl : s.config.stepLimit = some l) (hc : s.types.Calm)
    (hfinite : ¬ (start t s).Circles)
    (hr : (start t s).Reaches ⟨t, .done (.ok (.task t')) s', []⟩) (hround : t.NextRound s t') :
    t'.left n s' < t.left n s := by
  have later : Later s s' := Reaches.evolves_start later_enduring hr
  have hsteps := later.steps
  have hframes : s'.frames.size = s.frames.size := by
    have hsize := Reaches.frames_size hr
    simpa [inProgress, waitingTasks, Step.state] using hsize
  have hhandlings : t'.handlings = t.handlings := by
    rw [← t'.handlings_family, hround.family, t.handlings_family]
  suffices t'.rank < t.rank ∨ t'.rank = t.rank ∧
      ((s.steps < l ∧ s.steps < s'.steps) ∨ t'.rounds s' < t.rounds s) by
    simp only [Task.left, later.config, hl, Option.getD_some, Prod.Lex.toLex_lt_toLex, hframes,
      hhandlings, lt_self_iff_false, false_or, true_and]
    omega
  have calm (hq : t.isQuiet) : (s.steps < l ∧ s.steps < s'.steps) ∨ KeepsLists s s' := by
    obtain ⟨l', hl', hlt⟩ | undisturbed := hr.counted_or_kept hq hc hl
    · cases hl.symm.trans hl'
      exact .inl hlt
    · exact .inr undisturbed.work.1
  cases hround with
  | describe v => exact .inl (Nat.lt_succ_self 2)
  | rawText v => exact absurd (circles_of_rawText hr) hfinite
  | loop condition es ctx => exact .inr ⟨rfl, .inl (loop_counted hl hr)⟩
  | forEach hlt | visit hlt =>
    refine .inr ⟨rfl, (calm rfl).imp_right fun hkept ↦ ?_⟩
    simp only [Task.rounds, hkept.items hlt]
    omega
  | times left index block span => exact .inr ⟨rfl, .inr (Nat.lt_succ_self left)⟩

theorem ends_of_awaits {m₀ : Machine} {A : Task → Prop} {Q : Reply → Prop} {x : Step Reply}
    (hA : x.Awaits A) (hQ : x.Ends Q) (hr : m₀.Reaches ⟨t, x, []⟩)
    (h : ∀ t' s' resume, A t' → m₀.Reaches ⟨t, .wait t' s' resume, []⟩ →
      ∃ o s₁, t'.Gives s' o s₁) :
    ∃ o s', m₀.Reaches ⟨t, .done o s', []⟩ ∧ ∀ r, o = .ok r → Q r := by
  induction x with
  | done o s' => exact ⟨o, s', hr, hQ⟩
  | wait t' s' resume ih =>
    obtain ⟨o, s₁, n, hrun⟩ := h t' s' resume hA.1 hr
    have goesOn : m₀.Reaches ⟨t, resume o s₁, []⟩ :=
      (hr.tail rfl).trans (reaches_resume hrun ⟨t, resume⟩ [])
    exact ih o s₁ (hA.2 o s₁) (hQ o s₁) goesOn

/-- Within a step limit a task ends, unless comparisons wait for comparisons without end, or the
text of a value is looked for that contains itself. -/
theorem gives_of_chained (hl : s.config.stepLimit = some l) (hc : s.types.Calm)
    (hn : ∀ m, (start t s).Reaches m → m.chained ≤ n)
    (hfinite : ∀ m, (start t s).Reaches m → ¬ m.Circles) : ∃ o s', t.Gives s o s' := by
  -- What is left gets less when a task is waited for, and when one gives way to another.
  induction hleft : t.left n s using WellFoundedLT.induction generalizing t s n with
  | ind left ih =>
    subst hleft
    have awaited (t' : Task) (s' : State) (resume : Resume Reply) (hasks : t.asksBelow t')
        (hr : (start t s).Reaches ⟨t, .wait t' s' resume, []⟩) : ∃ o s₁, t'.Gives s' o s₁ := by
      have later : Later s s' := Reaches.evolves_start later_enduring hr
      have calm : s'.types.Calm := Reaches.evolves_start Types.calm_enduring hr hc
      have inside (m : Machine) (hm : (start t' s').Reaches m) :
          (start t s).Reaches (m.above [⟨t, resume⟩]) :=
        (hr.tail rfl).trans (hm.above [⟨t, resume⟩])
      have hchained (m : Machine) (hm : (start t' s').Reaches m) :
          m.chained + (if t'.isComparison && t.isComparison then 1 else 0) ≤ n := by
        rw [← chained_above hm ⟨t, resume⟩]
        exact hn _ (inside m hm)
      have hfirst := hchained _ .refl
      refine ih _ (left_awaited hl ?_ hr hasks ?_) ((congrArg _ later.config).trans hl) calm
        (fun m hm ↦ Nat.le_sub_of_add_le (hchained m hm))
        (fun m hm ↦ hfinite (m.above [⟨t, resume⟩]) (inside m hm)) rfl
      · exact Nat.sub_le _ _
      · intro ht ht'
        simp only [ht, ht', Bool.and_self, if_true] at hfirst ⊢
        omega
    obtain ⟨o, s', hr, hround⟩ :=
      ends_of_awaits (t.work_asks_below s) (t.work_leads_on s) .refl awaited
    match o with
    | .ok (.task t') =>
      have later : Later s s' := Reaches.evolves_start later_enduring hr
      have calm : s'.types.Calm := Reaches.evolves_start Types.calm_enduring hr hc
      have hnext : (start t s).Reaches (start t' s') := hr.tail rfl
      obtain ⟨o', s₁, hgives⟩ :=
        ih _ (left_round (n := n) hl hc (hfinite _ .refl) hr (hround _ rfl t' rfl))
          ((congrArg _ later.config).trans hl) calm (fun m hm ↦ hn m (hnext.trans hm))
          (fun m hm ↦ hfinite m (hnext.trans hm)) rfl
      obtain ⟨m, hm, hend⟩ := run_iff.mp hgives
      exact ⟨o', s₁, run_iff.mpr ⟨m, hnext.trans hm, hend⟩⟩
    | .ok (.value v) => exact ⟨.ok v, s', run_iff.mpr ⟨_, hr, rfl⟩⟩
    | .error u => exact ⟨.error u, s', run_iff.mpr ⟨_, hr, rfl⟩⟩

end Machine

end Quill
