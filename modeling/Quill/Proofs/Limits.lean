import Quill.Proofs.Passing
import Quill.Proofs.RawText

/-!
# Limits

A limit that was hit passes by everything in progress, and nothing is started any longer. Only
finding the text of a value for an error message keeps it to itself.
-/

namespace Quill

theorem Unwind.eq_halt {u : Unwind} (h : u.isHalt = true) : ∃ l, u = .halt l := by
  cases u with
  | halt l => exact ⟨l, rfl⟩
  | _ => cases h

theorem Eval.Composed.passes_limits {α : Type} {k : Kind} {x : Eval α} (h : Composed k x)
    (s : State) : (x s).Passes (fun _ ↦ True) (·.isHalt = true) := by
  induction h generalizing s with
  | pure a => exact nofun
  | @bind k α β x f hx hf ihx ihf =>
    rw [bind_apply]
    exact (ihx s).bind ihf
  | read hf => exact nofun
  | change hf => exact nofun
  | unwind hh =>
    intro u hu
    cases hu
    exact Bool.eq_false_iff.mp hh
  | perform => exact ⟨fun _ u s' _ ↦ ⟨s', rfl⟩, fun o s' ho ↦ ho trivial⟩
  | keeping h hx ih => exact (ih _).restoring _
  | @caught k α β x f hk hx hok herr hhalt ihx ihok iherr =>
    rw [bind_apply]
    refine (ihx s).attempt_bind (fun o s' ho ↦ ?_) fun u s' hu ↦ ?_
    · cases o with
      | ok a => exact ihok a s'
      | error u => exact iherr u (Bool.eq_false_iff.mpr (ho u rfl)) s'
    · obtain ⟨l, rfl⟩ := Unwind.eq_halt hu
      rw [hhalt l]
      rfl

namespace Task

/-- The limit that is hit when a task is started. -/
def hit (t : Task) (s : State) : Option Limit :=
  let first : Option (Step Unit) := match t with
    | eval .. => some (Eval.tick s)
    | framed frame _ => some (Eval.pushFrame frame s)
    | _ => none
  match first with
  | some (.done (.error (.halt l)) _) => some l
  | _ => none

variable {t : Task} {s : State} {l : Limit}

theorem work_of_hit (h : t.hit s = some l) : ∃ s', t.work s = .done (.error (.halt l)) s' := by
  cases t with
  | eval e ctx =>
    rw [work_eval]
    unfold hit at h
    obtain ht | ⟨l', -, -, ht⟩ := Eval.tick_cases s
    · simp only [ht] at h
      cases h
    · simp only [ht] at h
      cases h
      exact ⟨_, by rw [ht]; rfl⟩
  | framed frame t =>
    rw [work_framed]
    unfold hit Eval.pushFrame at h
    split
    · rename_i hd
      simp only [hd, if_true] at h
      cases h
      exact ⟨s, rfl⟩
    · rename_i hd
      simp only [hd, if_false] at h
      cases h
  | _ => cases h

theorem work_passes (hd : t.describes = false) (h : t.hit s = none) :
    (t.work s).Passes (fun _ ↦ True) (·.isHalt = true) := by
  cases t with
  | eval e ctx =>
    rw [work_eval]
    unfold hit at h
    obtain ht | ⟨l', -, -, ht⟩ := Eval.tick_cases s
    · rw [ht]
      exact (Eval.Composed.answering (.expression e ctx)).passes_limits _
    · simp only [ht] at h
      cases h
  | framed frame t =>
    rw [work_framed]
    unfold hit Eval.pushFrame at h
    split
    · rename_i hd
      simp only [hd, if_true] at h
      cases h
    · exact ⟨fun _ u s' _ ↦ ⟨_, rfl⟩, fun o s' ho ↦ Outcome.reply_error (ho trivial)⟩
  | handling r t =>
    rw [work_handling]
    exact ⟨fun _ u s' _ ↦ ⟨_, rfl⟩, fun o s' ho ↦ Outcome.reply_error (ho trivial)⟩
  | describe v => cases hd
  | _ => exact (composed _ rfl).passes_limits s

/-- Finds a text of `v`. -/
def Finds (v : Value) (t : Task) : Prop := t = describe v ∨ t = rawText v

theorem exists_finds (h : t.describes = true) : ∃ v, t.Finds v := by
  cases t with
  | describe v => exact ⟨v, .inl rfl⟩
  | rawText v => exact ⟨v, .inr rfl⟩
  | _ => cases h

theorem Finds.hides {v : Value} (h : t.Finds v) (s : State) :
    (t.work s).Hides (fun _ ↦ True) (·.isHalt = true) v := by
  obtain rfl | rfl := h
  · rw [work_describe]
    exact ((Eval.Composed.inspect (k := .closed) v).passes_limits s).hides v
  · rw [work_rawText]
    cases s.rawText? v with
    | some text => exact .inl ⟨text, rfl⟩
    | none => exact .inr rfl

theorem hit_of_work {s' : State} (h : t.work s = .done (.error (.halt l)) s') :
    t.hit s = some l := by
  by_cases hd : t.describes = true
  · obtain ⟨v, hv⟩ := exists_finds hd
    have hides := hv.hides s
    rw [h] at hides
    obtain ⟨text, ht⟩ | ht := hides <;> cases ht
  · cases hh : t.hit s with
    | none =>
      have passes := work_passes (Bool.not_eq_true _ ▸ hd) hh
      rw [h] at passes
      exact absurd rfl (passes _ rfl)
    | some l' =>
      obtain ⟨s'', hs''⟩ := work_of_hit hh
      cases h.symm.trans hs''
      rfl

end Task

theorem limits_passBy :
    PassesBy (fun _ ↦ True) (fun t ↦ t.describes = false) (·.isHalt = true) where
  work {t} s hd := by
    cases h : t.hit s with
    | none => exact .inl (Task.work_passes hd h)
    | some l =>
      obtain ⟨s', hx⟩ := Task.work_of_hit h
      exact .inr ⟨_, s', rfl, hx⟩
  ends _ := trivial
  shape _ := .rfl

namespace Machine

variable {t : Task} {s : State} {m m' : Machine} {l : Limit}

/-- The limit that the next task hits. -/
def hit (m : Machine) : Option Limit := m.starts.bind fun (t, s) ↦ t.hit s

theorem next_of_hit (hh : m.hit = some l) :
    ∃ m', m.next = .inl m' ∧ m'.Unwinds (.halt l) ∧ m'.waitingTasks = m.inProgress := by
  obtain ⟨⟨t', s'⟩, hstarts, hhit⟩ := Option.bind_eq_some_iff.mp hh
  obtain ⟨ps, hn, hps⟩ := next_of_starts hstarts
  exact ⟨_, hn, Task.work_of_hit hhit, hps⟩

theorem finds_kept : Kept (fun _ ↦ ()) fun m ↦
    ∀ v, m.task.Finds v → m.work.Hides (fun _ ↦ True) (·.isHalt = true) v where
  starts _ _ hv := hv.hides _
  resumes h _ _ v hv := (h v hv).2 _ _
  givesWay _ := ⟨fun _ hv ↦ hv.hides _, rfl⟩

theorem Reaches.not_describes {u : Unwind} (h : (start t s).Reaches m) (hm : m.Unwinds u) :
    m.task.describes = false := by
  cases hd : m.task.describes with
  | false => rfl
  | true =>
    obtain ⟨v, hv⟩ := Task.exists_finds hd
    obtain ⟨s', hs'⟩ := hm
    have hides := finds_kept.reaches (fun _ hw ↦ hw.hides s) h v hv
    rw [hs'] at hides
    obtain ⟨text, ht⟩ | ht := hides <;> cases ht

theorem describe_ends {v : Value} {n : Nat} {o : Outcome Value} {s' : State}
    (h : (start (.describe v) s).run n = some (o, s')) : ∃ w, o = .ok w := by
  obtain ⟨m, hr, he⟩ := run_iff.mp ⟨n, h⟩
  obtain ⟨hx, hw⟩ := next_inr he
  cases o with
  | ok w => exact ⟨w, rfl⟩
  | error u =>
    have hshape := limits_passBy.kept.last (limits_passBy.letsPass_work _ s []) hr hw
    have hd : m.task.describes = true := congrArg (·.2.2) hshape
    rw [hr.not_describes ⟨s', hx⟩] at hd
    cases hd

theorem Reaches.hit_before (h : (start t s).Reaches m) (ht : t.hit s = none)
    (hm : m.Unwinds (.halt l)) :
    ∃ m₁ m₂ ts, (start t s).Reaches m₁ ∧ m₁.hit = some l ∧ m₁.next = .inl m₂ ∧ m₂.Reaches m ∧
      m₁.inProgress = ts ++ m.waitingTasks ∧ ∀ t' ∈ ts, t'.describes = false := by
  obtain ⟨m', ts, hr, hto, hm', hts, hd, hcase⟩ :=
    limits_passBy.comes_up h hm rfl (h.not_describes hm)
  obtain ⟨hbegins, -⟩ | ⟨-, hd'⟩ := hcase
  · cases hbegins with
    | start hstart =>
      obtain ⟨s', hs'⟩ := hm'
      exact absurd (ht.symm.trans (Task.hit_of_work hs')) nofun
    | @next m₁ m' s₁ hr₁ hnext hstarts hwork hwaiting =>
      obtain ⟨s', hs'⟩ := hm'
      have hhit : m₁.hit = some l := by
        rw [hit, hstarts]
        exact Task.hit_of_work (hwork.symm.trans hs')
      exact ⟨m₁, m', ts, hr₁, hhit, hnext, hto, hwaiting.symm.trans hts, hd⟩
  · exact absurd (hr.not_describes hm') hd'

theorem halts_iff (ht : t.hit s = none) :
    (∃ n s', (start t s).run n = some (.error (.halt l), s')) ↔
      ∃ m, (start t s).Reaches m ∧ m.hit = some l ∧ ∀ t' ∈ m.inProgress, t'.describes = false := by
  constructor
  · rintro ⟨n, s', h⟩
    obtain ⟨m, hr, he⟩ := run_iff.mp ⟨n, h⟩
    obtain ⟨hw, hn⟩ := next_inr he
    obtain ⟨m₁, -, ts, hr₁, hh, -, -, hin, hd⟩ := hr.hit_before ht ⟨s', hw⟩
    refine ⟨m₁, hr₁, hh, fun t' ht' ↦ ?_⟩
    rw [hin, waitingTasks, hn] at ht'
    exact hd t' (by simpa using ht')
  · rintro ⟨m, hr, hh, hd⟩
    obtain ⟨m₁, hn, hm₁, hw⟩ := next_of_hit hh
    have reached : (start t s).Reaches m₁ := hr.tail hn
    exact limits_passBy.ends_run reached hm₁ rfl trivial (hw ▸ hd)

theorem Reaches.hidden (h : (start t s).Reaches m) (hh : m.hit = some l) {inner outer : List Task}
    {v : Value} (hin : m.inProgress = inner ++ .describe v :: outer)
    (hd : ∀ t' ∈ inner, t'.describes = false) :
    ∃ s' ps, m.Reaches ⟨.rawText v, (Task.rawText v).work s', ps⟩ ∧
      ps.map (·.task) = outer := by
  obtain ⟨m₁, hn, hm₁, hw⟩ := next_of_hit hh
  have reached : (start t s).Reaches m₁ := h.tail hn
  rw [← hw] at hin
  obtain ⟨before, after, hsplit, hbefore, hafter⟩ := List.map_eq_append_iff.mp hin
  obtain ⟨p, ps, rfl, hp, hps⟩ := List.map_eq_cons_iff.mp hafter
  obtain ⟨m₂, hr₂, ⟨s₂, hs₂⟩, hw₂⟩ :=
    limits_passBy.leaves reached hm₁ rfl trivial hsplit (hbefore ▸ hd)
  have reached₂ : (start t s).Reaches m₂ := reached.trans hr₂
  obtain ⟨t', s₃, hhides, -⟩ := finds_kept.awaited (fun _ hw ↦ hw.hides s) reached₂ hw₂
  obtain ⟨s', hs'⟩ := (hhides v (.inl hp)).1 trivial (.halt l) s₂ rfl
  have hn₂ : m₂.next = .inl ⟨p.task, .done (.ok (.task (.rawText v))) s', ps⟩ := by
    rw [← hs']
    obtain ⟨t', x, qs⟩ := m₂
    subst hw₂ hs₂
    rfl
  have reached₃ := hr₂.tail hn₂
  exact ⟨s', ps, (reached₃.tail rfl).head hn, hps⟩

end Machine

open Machine

namespace Interpreter

theorem result_limit_iff {i i' : Interpreter} {o : Outcome Value} {span : Span} {fuel : Nat}
    {r : Result} (h : i.result o span fuel = some (r, i')) (l : Limit) :
    r = .error (.limit l) ↔ o = .error (.halt l) := by
  unfold result at h
  split at h
  case h_3 =>
    obtain ⟨⟨text, i₁⟩, -, hres⟩ := Option.bind_eq_some_iff.mp h
    cases hres
    exact ⟨nofun, nofun⟩
  case h_4 l' =>
    cases h
    constructor
    · intro hl
      cases hl
      rfl
    · intro hl
      cases hl
      rfl
  all_goals
    cases h
    exact ⟨nofun, nofun⟩

theorem run_limit_iff {i : Interpreter} {p : Program} {l : Limit} :
    (∃ fuel i', i.run p fuel = some (.error (.limit l), i')) ↔
      ∃ n s, (i.machine p).run n = some (.error (.halt l), s) := by
  constructor
  · rintro ⟨fuel, i', h⟩
    obtain ⟨o, s, j, hrun, hres, -⟩ := run_eq_some.mp h
    rw [(result_limit_iff hres l).mp rfl] at hrun
    exact ⟨fuel, s, hrun⟩
  · rintro ⟨n, s, h⟩
    exact ⟨n, _, run_eq_some.mpr ⟨_, s, ⟨s⟩, h, rfl, rfl⟩⟩

end Interpreter

/-- A program ends with the error of a limit exactly if one was hit while nothing found the text of
a value for an error message. Then no task is started any longer, so no `rescue` or `ensure` part
is. Otherwise what finds the text ends with the raw one, and all goes on; but for a value that
contains itself there is no raw text, and the program does not end. -/
theorem limit_ends_run (i : Interpreter) (p : Program) (l : Limit) :
    ((∃ fuel i', i.run p fuel = some (.error (.limit l), i')) ↔
      ∃ m, (i.machine p).Reaches m ∧ m.hit = some l ∧ ∀ t ∈ m.inProgress, t.describes = false) ∧
    ∀ m, (i.machine p).Reaches m → m.hit = some l →
      ((∀ t ∈ m.inProgress, t.describes = false) →
        (∀ fuel r i', i.run p fuel = some (r, i') → r = .error (.limit l)) ∧
        ∀ m₁ m₂, m.next = .inl m₁ → m₁.Reaches m₂ → m₂.starts = none) ∧
      (∀ inner v outer, m.inProgress = inner ++ .describe v :: outer →
        (∀ t ∈ inner, t.describes = false) →
        ∃ s ps, m.Reaches ⟨.rawText v, (Task.rawText v).work s, ps⟩ ∧
          ps.map (·.task) = outer ∧
          (¬ s.ContainsItself v → ∃ text, s.rawText? v = some text ∧
            (Task.rawText v).work s = .done (.ok (.value (.str text))) s) ∧
          (s.ContainsItself v → ∀ fuel, i.run p fuel = none)) := by
  refine ⟨Interpreter.run_limit_iff.trans (halts_iff rfl), fun m hr hh ↦ ⟨fun hd ↦ ⟨?_, ?_⟩, ?_⟩⟩
  · intro fuel r i' h
    obtain ⟨n, s, hn⟩ := (halts_iff rfl).mpr ⟨m, hr, hh, hd⟩
    obtain ⟨o, s', j, hrun, hres, -⟩ := Interpreter.run_eq_some.mp h
    cases run_unique hn hrun
    exact (Interpreter.result_limit_iff hres l).mpr rfl
  · intro m₁ m₂ hn hr₂
    obtain ⟨m₁', hn', hm₁, hw⟩ := next_of_hit hh
    cases hn.symm.trans hn'
    have reached : (i.machine p).Reaches m₁ := hr.tail hn
    obtain ⟨s, hs⟩ := limits_passBy.stays reached hm₁ rfl trivial (hw ▸ hd) hr₂
    rw [starts, hs]
  · intro inner v outer hin hd
    obtain ⟨s, ps, hto, hps⟩ := hr.hidden hh hin hd
    refine ⟨s, ps, hto, hps, fun hv ↦ ?_, fun hv fuel ↦ ?_⟩
    · obtain ⟨text, htext⟩ := Option.isSome_iff_exists.mp (State.isSome_rawText?_iff.mpr hv)
      exact ⟨text, htext, by rw [Task.work_rawText, htext]⟩
    · have circles : Machine.Circles ⟨.rawText v, (Task.rawText v).work s, ps⟩ :=
        ⟨v, rfl, by rwa [Task.work_rawText]⟩
      exact Interpreter.run_none_of_circles (hr.trans hto) circles fuel

theorem Machine.exists_innermost {m : Machine} {t : Task}
    (h : m.inProgress.find? (·.describes) = some t) :
    ∃ inner outer, m.inProgress = inner ++ t :: outer ∧ ∀ t ∈ inner, t.describes = false := by
  obtain ⟨-, inner, outer, hin, hd⟩ := List.find?_eq_some_iff_append.mp h
  exact ⟨inner, outer, hin, fun t ht ↦ by simpa using hd t ht⟩

def loopOverSelf : Program :=
  ⟨[⟨.forEach .origin (.wildcard .origin) ⟨.self, .origin⟩ [], .origin⟩], .origin⟩

/-- A list that is its only item, as the variable `l`. No call is allowed. -/
def ownItem : Interpreter :=
  let s : State := .initial ⟨none, 0, false⟩
  ⟨{ s.define State.mainScope "l" (.list ⟨0⟩) with lists := #[#[.list ⟨0⟩]] }⟩

/-- `[_, _] = l`. -/
def twoItems : Program :=
  ⟨[⟨.destructure (.list [.wildcard .origin, .wildcard .origin] .origin) ⟨.name "l", .origin⟩,
    .origin⟩], .origin⟩

def Task.describedList? : Task → Option ListId
  | .describe v => v.list?
  | _ => none

def Task.rawText? : Task → Option Value
  | .rawText v => some v
  | _ => none

/-- After nine steps, and not before, the raw text of the list is looked for. -/
theorem ownItem_circles :
    ((ownItem.machine twoItems).walk 9).Circles ∧
      ((ownItem.machine twoItems).walk 9).work.state.ContainsItself (.list ⟨0⟩) ∧
      ∀ n < 9, ((ownItem.machine twoItems).walk n).task.rawText? = none := by
  have hitems : (((ownItem.machine twoItems).walk 9).work.state.items ⟨0⟩).toList.any
      (·.list? = some ⟨0⟩) = true := by decide +kernel
  have hlist : ((ownItem.machine twoItems).walk 9).task.rawText?.bind Value.list? = some ⟨0⟩ := by
    decide +kernel
  have hnone : ∀ n < 9, ((ownItem.machine twoItems).walk n).task.rawText?.isNone = true := by
    decide +kernel
  obtain ⟨item, hmem, hitem⟩ := List.any_eq_true.mp hitems
  obtain rfl := Value.list?_eq_some.mp (of_decide_eq_true hitem)
  have hself : ((ownItem.machine twoItems).walk 9).work.state.ContainsItself (.list ⟨0⟩) :=
    ⟨⟨0⟩, ⟨0⟩, rfl, .refl, .single hmem⟩
  obtain ⟨v, htask, hv⟩ := Option.bind_eq_some_iff.mp hlist
  obtain rfl := Value.list?_eq_some.mp hv
  have hlooks : ((ownItem.machine twoItems).walk 9).task = .rawText (.list ⟨0⟩) := by
    unfold Task.rawText? at htask
    split at htask
    · cases htask
      assumption
    · cases htask
  exact ⟨⟨_, hlooks, hself⟩, hself, fun n hn ↦ Option.isNone_iff_eq_none.mp (hnone n hn)⟩

/-- The task finds the text of an object. -/
def Task.describesObject : Task → Bool
  | .describe (.object _) => true
  | _ => false

/-- Where no step is allowed the loop is not begun. Where no call is allowed, that `self` is no list
is an error whose text is the raw one, and of a list in itself there is none. -/
theorem limit_ends_run_loopOverSelf :
    (∀ fuel r i', (Interpreter.mk (.initial ⟨some 0, 0, false⟩)).run loopOverSelf fuel =
      some (r, i') → r = .error (.limit (.steps 0))) ∧
    (∃ (m : Machine) (s : State) (v : Value) (ps : List Pending) (text : String),
      m.hit = some (.depth 0) ∧ m.Reaches ⟨.rawText v, (Task.rawText v).work s, ps⟩ ∧
      (Task.rawText v).work s = .done (.ok (.value (.str text))) s) ∧
    ∀ fuel, ownItem.run twoItems fuel = none := by
  refine ⟨?_, ?_, ?_⟩
  · obtain ⟨-, hhits⟩ :=
      limit_ends_run ⟨.initial ⟨some 0, 0, false⟩⟩ loopOverSelf (.steps 0)
    exact ((hhits _ (reaches_walk 0 _) rfl).1 (by decide)).1
  · let m := ((Interpreter.mk (.initial ⟨none, 0, false⟩)).machine loopOverSelf).walk 5
    obtain ⟨-, hhits⟩ := limit_ends_run ⟨.initial ⟨none, 0, false⟩⟩ loopOverSelf (.depth 0)
    have hit : m.hit = some (.depth 0) := by decide +kernel
    have hobject : (m.inProgress.find? (·.describes)).map Task.describesObject = some true := by
      decide +kernel
    obtain ⟨t, hfirst, ht⟩ := Option.map_eq_some_iff.mp hobject
    obtain ⟨inner, outer, hin, hd⟩ := exists_innermost hfirst
    obtain ⟨o, rfl⟩ : ∃ o, t = .describe (.object o) := by
      unfold Task.describesObject at ht
      split at ht
      · exact ⟨_, rfl⟩
      · cases ht
    obtain ⟨s, ps, hto, -, htext, -⟩ := (hhits m (reaches_walk 5 _) hit).2 inner _ outer hin hd
    obtain ⟨text, -, hwork⟩ := htext nofun
    exact ⟨m, s, _, ps, text, hit, hto, hwork⟩
  · have hit : ((ownItem.machine twoItems).walk 5).hit = some (.depth 0) := by decide +kernel
    have hlist : (((ownItem.machine twoItems).walk 5).inProgress.find? (·.describes)).bind
        Task.describedList? = some ⟨0⟩ := by decide +kernel
    obtain ⟨-, hhits⟩ := limit_ends_run ownItem twoItems (.depth 0)
    obtain ⟨t, hfirst, ht⟩ := Option.bind_eq_some_iff.mp hlist
    obtain ⟨inner, outer, hin, hd⟩ := exists_innermost hfirst
    obtain rfl : t = .describe (.list ⟨0⟩) := by
      unfold Task.describedList? at ht
      split at ht
      · rw [Value.list?_eq_some.mp ht]
      · cases ht
    obtain ⟨s, ps, hto, -, -, hends⟩ := (hhits _ (reaches_walk 5 _) hit).2 inner _ outer hin hd
    obtain ⟨hcircles, hself, hnone⟩ := ownItem_circles
    have hthere : (⟨.rawText (.list ⟨0⟩), (Task.rawText (.list ⟨0⟩)).work s, ps⟩ : Machine) =
        (ownItem.machine twoItems).walk 9 :=
      Reaches.eq_walk (P := fun m ↦ m.task.rawText? ≠ none) ((reaches_walk 5 _).trans hto) nofun
        (Reaches.circles_next (reaches_walk 9 _) hcircles) fun n hn ↦ not_not_intro (hnone n hn)
    have hstate : ((ownItem.machine twoItems).walk 9).work.state = s := by
      rw [← hthere, Task.work_rawText]
      rfl
    exact hends (hstate ▸ hself)

def errorSpan? : Result → Option Span
  | .ok _ => none
  | .error e => e.span?

/-- Where no calls are allowed, that `self` is no list is an error all the same, although the text
of `self` cannot be found for it. -/
theorem limit_hidden : ¬ ∀ (i : Interpreter) (p : Program) (m : Machine) (l : Limit),
    (i.machine p).Reaches m → m.hit = some l →
      ∀ fuel r i', i.run p fuel = some (r, i') → r = .error (.limit l) := by
  intro h
  let i : Interpreter := ⟨.initial ⟨none, 0, false⟩⟩
  have hit : ((i.machine loopOverSelf).walk 5).hit = some (.depth 0) := by decide +kernel
  have shown : (i.run loopOverSelf 20).map (errorSpan? ·.1) = some (some .origin) := by
    decide +kernel
  obtain ⟨⟨r, i'⟩, hrun, hspan⟩ := Option.map_eq_some_iff.mp shown
  rw [h i loopOverSelf _ _ (reaches_walk 5 _) hit 20 r i' hrun] at hspan
  cases hspan

end Quill
