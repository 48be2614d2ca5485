import Mathlib.Data.List.Forall2
import Quill.Proofs.Lambdas.Making

/-!
# Accounts of the lambdas that were made

`Account` follows a machine and notes which lambdas each of the tasks in progress has made itself.
What is known of a single stretch of work carries over to all of them: no two tasks have made the
same lambda, and nothing refers to a lambda that was not made yet.
-/

namespace Quill

open Tracked

namespace State

/-- Nothing that is kept refers to a lambda that was not made. -/
def Closed (s : State) : Prop := Known s.lambdas.size s

/-- All lambdas are still what they were. -/
def KeepsLambdas (s s' : State) : Prop :=
  ∀ (i : Nat) (l : Lambda), s.lambdas[i]? = some l → s'.lambdas[i]? = some l

theorem KeepsLambdas.size {s s' : State} (h : KeepsLambdas s s') :
    s.lambdas.size ≤ s'.lambdas.size := by
  refine Nat.le_of_not_lt fun hlt ↦ ?_
  have hlast := h _ _ (Array.getElem?_eq_getElem hlt)
  simp at hlast

theorem keepsLambdas_enduring : Enduring KeepsLambdas where
  refl _ _ _ h := h
  trans h h' i l hi := h' i l (h i l hi)
  change hf s i l hi := by
    cases hf with
    | newLambda new =>
      have hlt : i < s.lambdas.size := (Array.getElem?_eq_some_iff.mp hi).1
      change (s.lambdas.push new)[i]? = some l
      rw [Array.getElem?_push, if_neg (by omega), hi]
    | letGo name t =>
      obtain ⟨types, heq⟩ := s.letGoAround_eq name t
      simp only [heq]
      exact hi
    | _ => exact hi
  held _ _ _ _ h := h
  counted _ _ _ h := h
  framed _ _ _ _ h := h
  rescued _ _ _ _ h := h

theorem mem_made {s₀ s : State} {id : LambdaId} :
    id ∈ s₀.made s ↔ s₀.lambdas.size ≤ id.index ∧ id.index < s.lambdas.size := by
  obtain ⟨i⟩ := id
  simp only [made, List.mem_map, List.mem_range'_1, LambdaId.mk.injEq, exists_eq_right]
  omega

theorem nodup_made (s₀ s : State) : (s₀.made s).Nodup :=
  List.Pairwise.map _ (fun _ _ hne h ↦ hne (congrArg LambdaId.index h)) (List.nodup_range' ..)

end State

namespace Task

variable {t : Task} {own : List LambdaId} {s s' : State}

/-- What a task has made itself is nothing yet, or the lambda of its block. -/
def Owns (t : Task) (own : List LambdaId) (s : State) : Prop :=
  own = [] ∨ ∃ l id, t.lambda? = some l ∧ own = [id] ∧ s.lambda? id = some l

theorem Owns.keeps (h : t.Owns own s) (hs : s.KeepsLambdas s') : t.Owns own s' := by
  obtain h | ⟨l, id, ht, hown, hl⟩ := h
  · exact .inl h
  · exact .inr ⟨l, id, ht, hown, hs _ _ hl⟩

theorem Owns.makes (h : t.Owns own s) (hm : t.Makes own s s') :
    t.Owns (own ++ s.made s') s' := by
  obtain hsame | ⟨rfl, l, ht, hpush⟩ := hm
  · rw [State.made_eq_nil hsame, List.append_nil]
    refine h.keeps fun i l hi ↦ ?_
    rwa [hsame]
  · rw [State.made_push hpush]
    refine .inr ⟨l, ⟨s.lambdas.size⟩, ht, rfl, ?_⟩
    simp [State.lambda?, hpush]

end Task

/-- A machine with the lambdas that the work on its task has made so far, and those that each of the
waiting tasks has made. -/
structure Account where
  machine : Machine
  own : List LambdaId
  outer : List (List LambdaId)

namespace Account

def start (t : Task) (s : State) : Account := ⟨.start t s, s.made (t.work s).state, []⟩

/-- One step of the machine. What it makes is put down to the task that it works on. -/
inductive Next : Account → Account → Prop
  | starts {t t' : Task} {s : State} {resume : Resume Reply} {ps : List Pending}
      {own : List LambdaId} {outer : List (List LambdaId)} :
      Next ⟨⟨t, .wait t' s resume, ps⟩, own, outer⟩
        ⟨⟨t', t'.work s, ⟨t, resume⟩ :: ps⟩, s.made (t'.work s).state, own :: outer⟩
  | givesWay {t t' : Task} {s : State} {ps : List Pending} {own : List LambdaId}
      {outer : List (List LambdaId)} :
      Next ⟨⟨t, .done (.ok (.task t')) s, ps⟩, own, outer⟩
        ⟨⟨t', t'.work s, ps⟩, s.made (t'.work s).state, outer⟩
  | resumes {t : Task} {o : Outcome Value} {s : State} {p : Pending} {ps : List Pending}
      {own ids : List LambdaId} {outer : List (List LambdaId)} :
      Next ⟨⟨t, .done o.reply s, p :: ps⟩, own, ids :: outer⟩
        ⟨⟨p.task, p.resume o s, ps⟩, ids ++ s.made (p.resume o s).state, outer⟩

def Reaches : Account → Account → Prop := Relation.ReflTransGen Next

def lambdas (a : Account) : List LambdaId := a.own ++ a.outer.flatten

def state (a : Account) : State := a.machine.work.state

variable {a b : Account} {t : Task} {s : State} {m : Machine} {n : Nat} {id : LambdaId}

theorem Next.machine (h : a.Next b) : a.machine.next = .inl b.machine := by
  cases h with
  | @resumes t o s p ps own ids outer => cases o <;> rfl
  | _ => rfl

theorem Reaches.machine (h : a.Reaches b) : a.machine.Reaches b.machine := by
  induction h with
  | refl => exact .refl
  | tail _ hn ih => exact ih.tail hn.machine

theorem exists_of_reaches (h : (Machine.start t s).Reaches m) :
    ∃ a, (start t s).Reaches a ∧ a.machine = m ∧ a.outer.length = m.waiting.length := by
  induction h with
  | refl => exact ⟨start t s, .refl, rfl, rfl⟩
  | @tail m₁ m₂ _ hn ih =>
    obtain ⟨⟨⟨t₁, x, ps⟩, own, outer⟩, ha, rfl, hlength⟩ := ih
    obtain ⟨t', s', resume, rfl, rfl⟩ | ⟨t', s', rfl, rfl⟩ | ⟨o, s', p, ps, rfl, rfl, rfl⟩ :=
      Machine.next_cases hn
    · exact ⟨_, ha.tail .starts, rfl, congrArg (· + 1) hlength⟩
    · exact ⟨_, ha.tail .givesWay, rfl, hlength⟩
    · cases outer with
      | nil => cases hlength
      | cons ids outer => exact ⟨_, ha.tail .resumes, rfl, Nat.succ.inj hlength⟩

theorem Reaches.keepsLambdas (h : (start t s).Reaches a) (h' : a.Reaches b) :
    a.state.KeepsLambdas b.state :=
  Machine.Reaches.evolves State.keepsLambdas_enduring h.machine h'.machine

theorem Reaches.keepsLambdas_start (h : (start t s).Reaches a) : s.KeepsLambdas a.state :=
  h.machine.evolves_start State.keepsLambdas_enduring

/-- The lambdas that were made by tasks still in progress after the next step. -/
def remaining (a : Account) : List LambdaId :=
  match a.machine.work with
  | .wait .. => a.lambdas
  | .done .. => a.outer.flatten

theorem remaining_sublist (a : Account) : a.remaining.Sublist a.lambdas := by
  unfold remaining
  split
  · exact .refl _
  · exact List.sublist_append_right ..

theorem Next.lambdas (h : a.Next b) : b.lambdas.Perm (a.remaining ++ a.state.made b.state) := by
  cases h with
  | starts => exact List.perm_append_comm
  | givesWay => exact List.perm_append_comm
  | @resumes t o s p ps own ids outer =>
    change (ids ++ s.made (p.resume o s).state ++ outer.flatten).Perm (ids ++ outer.flatten ++ _)
    rw [List.append_assoc, List.append_assoc]
    exact List.perm_append_comm.append_left ids

theorem Reaches.nodup (h : (start t s).Reaches a) :
    a.lambdas.Nodup ∧ ∀ id ∈ a.lambdas, id ∈ s.made a.state := by
  induction h with
  | refl =>
    have hstart : (start t s).lambdas = s.made (start t s).state := List.append_nil _
    rw [hstart]
    exact ⟨State.nodup_made s _, fun _ h ↦ h⟩
  | @tail a b hr hn ih =>
    obtain ⟨hnodup, hmade⟩ := ih
    have hold := a.remaining_sublist
    have hgrow := (Reaches.keepsLambdas hr (.single hn)).size
    have hstart := (Reaches.keepsLambdas_start hr).size
    simp only [State.mem_made] at hmade ⊢
    rw [hn.lambdas.nodup_iff]
    refine ⟨List.nodup_append.mpr ⟨hold.nodup hnodup, State.nodup_made _ _, ?_⟩, fun id hid ↦ ?_⟩
    · rintro id hid _ hnew rfl
      have before := hmade id (hold.subset hid)
      have after := State.mem_made.mp hnew
      omega
    · obtain hid | hid := List.mem_append.mp (hn.lambdas.subset hid)
      · have before := hmade id (hold.subset hid)
        omega
      · have after := State.mem_made.mp hid
        omega

theorem Next.gone (h : a.Next b) (hid : id.index < a.state.lambdas.size)
    (hgone : id ∉ a.remaining) : id ∉ b.lambdas := by
  intro hmem
  obtain hmem | hnew := List.mem_append.mp (h.lambdas.subset hmem)
  · exact hgone hmem
  · have after := State.mem_made.mp hnew
    omega

theorem Reaches.gone (h : (start t s).Reaches a) (h' : a.Reaches b)
    (hid : id.index < a.state.lambdas.size) (hgone : id ∉ a.lambdas) : id ∉ b.lambdas := by
  induction h' with
  | refl => exact hgone
  | @tail b c hr hn ih =>
    have hgrow := (Reaches.keepsLambdas h hr).size
    exact hn.gone (by omega) fun hmem ↦ ih (b.remaining_sublist.subset hmem)

/-- When the work on a task is done, no task in progress is the one that made its lambda. -/
theorem Reaches.over (h : (start t s).Reaches a) {o : Outcome Reply} {s' : State}
    (hdone : a.machine.work = .done o s') (hid : id ∈ a.own) (hn : a.Next b) :
    id ∉ b.lambdas := by
  obtain ⟨hnodup, hmade⟩ := h.nodup
  have hsize := (State.mem_made.mp (hmade id (List.mem_append_left _ hid))).2
  refine hn.gone hsize fun hmem ↦ ?_
  rw [remaining, hdone] at hmem
  exact (List.nodup_append.mp hnodup).2.2 id hid id hmem rfl

theorem Reaches.origin (h : (start t s).Reaches a) (hid : id ∈ s.made a.state) :
    ∃ b, (start t s).Reaches b ∧ b.Reaches a ∧ id ∈ b.own := by
  induction h with
  | refl => exact ⟨_, .refl, .refl, hid⟩
  | @tail a b hr hn ih =>
    by_cases hold : id.index < a.state.lambdas.size
    · obtain ⟨c, hc, hca, hown⟩ := ih (State.mem_made.mpr ⟨(State.mem_made.mp hid).1, hold⟩)
      exact ⟨c, hc, hca.tail hn, hown⟩
    · have hnew : id ∈ a.state.made b.state :=
        State.mem_made.mpr ⟨Nat.le_of_not_lt hold, (State.mem_made.mp hid).2⟩
      refine ⟨b, hr.tail hn, .refl, ?_⟩
      cases hn with
      | resumes => exact List.mem_append_right _ hnew
      | _ => exact hnew

end Account

theorem Tracked.Known.of_reply {n : Nat} {o : Outcome Value} (h : Known n o.reply) :
    Known n o := by
  cases o <;> exact h

namespace Step

/-- Neither what is kept nor what is passed on refers to a lambda that was not made. -/
def Closed : Step Reply → Prop
  | done o s => s.Closed ∧ Known s.lambdas.size o
  | wait t s _ => s.Closed ∧ Known s.lambdas.size t

variable {t : Task} {x : Step Reply} {s : State} {own : List LambdaId}

theorem Obeys.closed (h : x.Obeys x.state.lambdas.size t s own) : x.Closed := by
  cases x with
  | done o s' => exact ⟨(h (Nat.le_refl _)).2.1, (h (Nat.le_refl _)).2.2.1⟩
  | wait t' s' resume => exact ⟨(h (Nat.le_refl _)).2.1, (h (Nat.le_refl _)).2.2.1⟩

theorem Obeys.makes {n : Nat} (h : x.Obeys n t s own) (hn : x.state.lambdas.size ≤ n) :
    t.Makes own s x.state := by
  cases x with
  | done o s' => exact (h hn).1
  | wait t' s' resume => exact (h hn).1

end Step

/-- A task that waits and made the lambdas `ids`. As long as it is given the first `n` lambdas, it
goes on as it should. If it is a call, it ends the breaks out of what it made and no others. -/
structure Pending.Sound (n : Nat) (s : State) (p : Pending) (ids : List LambdaId) : Prop where
  owns : p.task.Owns ids s
  ends : p.task.isCall → ∀ id v s, ∃ s', p.resume (.error (.blockBreak id v)) s =
    .done (if id ∈ ids then .ok (.value v) else .error (.blockBreak id v)) s'
  obeys (o : Outcome Value) (s : State) :
    Known n s → Known n o → (p.resume o s).Obeys n p.task s ids

theorem Pending.Sound.keeps {n : Nat} {s s' : State} {p : Pending} {ids : List LambdaId}
    (h : p.Sound n s ids) (hs : s.KeepsLambdas s') : p.Sound n s' ids :=
  { h with owns := h.owns.keeps hs }

namespace Account

/-- All tasks go on as they should as long as they are given the first `n` lambdas. -/
structure Sound (n : Nat) (a : Account) : Prop where
  work : ∃ s own, a.machine.work.Obeys n a.machine.task s own ∧ a.own = own ++ s.made a.state ∧
    a.machine.task.Owns own s
  waiting : List.Forall₂ (Pending.Sound n a.state) a.machine.waiting a.outer

variable {a b : Account} {t : Task} {s : State} {n : Nat}

theorem sound_start (ht : Known n t) (hs : Known n s) : (start t s).Sound n :=
  ⟨⟨s, [], t.work_obeys ht hs, rfl, .inl rfl⟩, .nil⟩

theorem Sound.next (ha : a.Sound n) (h : a.Next b) (hn : a.state.lambdas.size ≤ n)
    (hkept : a.state.KeepsLambdas b.state) : b.Sound n := by
  obtain ⟨⟨s₀, own₀, hobeys, hown, howns⟩, hwaiting⟩ := ha
  have still := hwaiting.imp fun _ _ h ↦ h.keeps hkept
  cases h with
  | @starts t t' s resume ps own outer =>
    change own = own₀ ++ s₀.made s at hown
    subst hown
    obtain ⟨hmakes, hs, ht, hends, hresume⟩ := hobeys hn
    have howns' := (howns.makes hmakes).keeps hkept
    exact ⟨⟨s, [], t'.work_obeys ht hs, rfl, .inl rfl⟩, .cons ⟨howns', hends, hresume⟩ still⟩
  | @givesWay t t' s ps own outer =>
    obtain ⟨-, hs, ht, -⟩ := hobeys hn
    exact ⟨⟨s, [], t'.work_obeys ht hs, rfl, .inl rfl⟩, still⟩
  | @resumes t o s p ps own ids outer =>
    obtain ⟨-, hs, ho, -⟩ := hobeys hn
    obtain ⟨hp, hps⟩ := List.forall₂_cons.mp hwaiting
    have hwork := hp.obeys o s hs (.of_reply ho)
    exact ⟨⟨s, ids, hwork, rfl, hp.owns⟩, (List.forall₂_cons.mp still).2⟩

theorem Reaches.sound (ht : Known n t) (hs : Known n s) (h : (start t s).Reaches a)
    (hn : a.state.lambdas.size ≤ n) : a.Sound n := by
  induction h with
  | refl => exact sound_start ht hs
  | @tail a b hr hn' ih =>
    have hkept := Reaches.keepsLambdas hr (.single hn')
    have hsize := Nat.le_trans hkept.size hn
    exact (ih hsize).next hn' hsize hkept

theorem Sound.owns (ha : a.Sound n) (hn : a.state.lambdas.size ≤ n) :
    a.machine.task.Owns a.own a.state := by
  obtain ⟨s₀, own₀, hobeys, hown, howns⟩ := ha.work
  rw [hown]
  exact howns.makes (hobeys.makes hn)

theorem Reaches.sound_of_closed (ht : Known s.lambdas.size t) (hs : s.Closed)
    (h : (start t s).Reaches a) : a.Sound a.state.lambdas.size := by
  have hsize := (Reaches.keepsLambdas_start h).size
  exact h.sound (mono hsize t ht) (mono hsize s hs) (Nat.le_refl _)

theorem Sound.own_ne_nil (ha : a.Sound a.state.lambdas.size) {r : Reply}
    (hwork : a.machine.work = .done (.ok r) s) (hblock : a.machine.task.lambda?.isSome) :
    a.own ≠ [] := by
  obtain ⟨s₀, own₀, hobeys, hown, -⟩ := ha.work
  have hstate : a.state = s := congrArg Step.state hwork
  rw [hwork, hstate] at hobeys
  rw [hown, hstate]
  exact (hobeys (Nat.le_refl _)).2.2.2 hblock r rfl

theorem Reaches.origin_block (ht : Known s.lambdas.size t) (hs : s.Closed)
    (h : (start t s).Reaches a) {id : LambdaId} (hid : id ∈ s.made a.state) :
    ∃ b l, (start t s).Reaches b ∧ b.Reaches a ∧ b.machine.task.lambda? = some l ∧
      b.own = [id] ∧ a.state.lambda? id = some l := by
  obtain ⟨b, hb, hba, hmem⟩ := h.origin hid
  have howns := (hb.sound_of_closed ht hs).owns (Nat.le_refl _)
  obtain hnone | ⟨l, id', hl, hown, hstate⟩ := howns
  · rw [hnone] at hmem
    cases hmem
  · rw [hown, List.mem_singleton] at hmem
    subst hmem
    exact ⟨b, l, hb, hba, hl, hown, Reaches.keepsLambdas hb hba _ _ hstate⟩

end Account

theorem Machine.run_known {t : Task} {s s' : State} {n fuel : Nat} {o : Outcome Value}
    (ht : Known n t) (hs : Known n s) (h : (start t s).run fuel = some (o, s'))
    (hn : s'.lambdas.size ≤ n) : Known n s' ∧ Known n o := by
  obtain ⟨m, hr, he⟩ := Machine.run_iff.mp ⟨fuel, h⟩
  obtain ⟨a, ha, rfl, -⟩ := Account.exists_of_reaches hr
  have hwork := (Machine.next_inr he).1
  have hstate : a.state = s' := congrArg Step.state hwork
  obtain ⟨⟨s₀, own, hobeys, -⟩, -⟩ := ha.sound ht hs (by rwa [hstate])
  rw [hwork] at hobeys
  obtain ⟨-, hs', ho, -⟩ := hobeys hn
  exact ⟨hs', .of_reply ho⟩

end Quill
