import Quill.Proofs.Asking
import Quill.Proofs.Everywhere
import Quill.Proofs.StepLimit

/-!
# Stretches without a step

Comparisons, texts and calls of blocks are asked for without any code that says so. Until they
evaluate something they leave all lists as they are: `Machine.Reaches.counted_or_kept`.
-/

namespace Quill

/-- The messages that are sent where no code says so. -/
def unspoken : List String := ["==", "call", "inspect"]

namespace Routine

/-- Changes no list, and asks for comparisons, texts and calls of blocks only. -/
def isQuiet : Routine → Bool
  | object .identical | object .inspect | lambda .call | number .equal | text .equal
  | text .inspect | list .equal | list .inspect | type .name => true
  | _ => false

end Routine

namespace Clause

/-- If it is built in, what it does is quiet. -/
def isQuiet : Clause → Bool
  | native n => n.routine.isQuiet
  | user _ => true

theorem mem_insert {c new : Clause} {cs : List Clause} (h : c ∈ new.insert cs) :
    c = new ∨ c ∈ cs := by
  induction cs with
  | nil => simpa [insert] using h
  | cons old rest ih =>
    unfold insert at h
    split at h
    · rcases List.mem_cons.mp h with rfl | h
      · exact .inl rfl
      · exact .inr (List.mem_cons_of_mem _ h)
    · rcases List.mem_cons.mp h with rfl | h
      · exact .inr List.mem_cons_self
      · exact (ih h).imp_right (List.mem_cons_of_mem _)

end Clause

namespace MethodTable

def AllUnder (t : MethodTable) (name : String) (P : Clause → Prop) : Prop :=
  ∀ cs, t.get? name = some cs → ∀ c ∈ cs, P c

/-- Unspoken messages find nothing built in but what is quiet. -/
def Calm (t : MethodTable) : Prop := ∀ name ∈ unspoken, t.AllUnder name (·.isQuiet)

theorem AllUnder.insert {t : MethodTable} {name other : String} {P : Clause → Prop}
    (h : t.AllUnder other P) {new : Clause} (hnew : name = other → P new) :
    (t.insert name new).AllUnder other P := by
  intro cs hcs c hc
  rw [MethodTable.insert, Bindings.get?_set] at hcs
  split at hcs
  · rename_i hname
    subst hname
    cases hcs
    rcases Clause.mem_insert hc with rfl | hc
    · exact hnew rfl
    · cases hfound : t.get? name with
      | none => simp [hfound] at hc
      | some old => exact h old hfound c (by simpa [hfound] using hc)
  · exact h cs hcs c hc

theorem Calm.insert {t : MethodTable} (h : t.Calm) {name : String} {new : Clause}
    (hnew : name ∈ unspoken → new.isQuiet) : (t.insert name new).Calm :=
  fun other hother ↦ (h other hother).insert fun hname ↦ hnew (hname ▸ hother)

end MethodTable

structure TypeInfo.Calm (t : TypeInfo) : Prop where
  methods : MethodTable.Calm t.methods
  classMethods : MethodTable.Calm t.classMethods

theorem TypeInfo.calm_lasting : TypeInfo.Lasting TypeInfo.Calm where
  new _ _ _ _ := ⟨nofun, nofun⟩
  constant _ _ h := ⟨h.methods, h.classMethods⟩
  attr _ _ h := ⟨h.methods, h.classMethods⟩
  includes _ h := ⟨h.methods, h.classMethods⟩
  doc _ h := ⟨h.methods, h.classMethods⟩
  orphan h := ⟨h.methods, h.classMethods⟩

namespace Types

variable {ts : Types} {id : TypeId}

/-- In every type, unspoken messages find nothing built in but what is quiet. -/
def Calm (ts : Types) : Prop := ∀ id t, ts.get? id = some t → t.Calm

theorem calm_standard : standard.Calm := by
  have hquiet : ∀ e ∈ Routine.catalogue, e.name ∈ unspoken → e.routine.isQuiet := by
    decide +kernel
  have calm : standard.Every TypeInfo.Calm := by
    unfold standard
    refine (every_core TypeInfo.calm_lasting).foldl fun _ h e he ↦ ?_
    have quiet (n : NativeMethod) (hn : n.routine = e.routine) (hname : e.name ∈ unspoken) :
        (Clause.native n).isQuiet := by
      rw [Clause.isQuiet, hn]
      exact hquiet e he hname
    exact h.addNative e.classSide
      (fun _ n ht hn ↦ ⟨ht.methods.insert (quiet n hn), ht.classMethods⟩)
      fun _ n ht hn ↦ ⟨ht.methods, ht.classMethods.insert (quiet n hn)⟩
  exact calm

theorem calm_enduring : State.Enduring fun s s' ↦ s.types.Calm → s'.types.Calm :=
  every_enduring TypeInfo.calm_lasting
    (fun _ _ h ↦ ⟨h.methods.insert fun _ ↦ rfl, h.classMethods⟩)
    fun _ _ h ↦ ⟨h.methods, h.classMethods.insert fun _ ↦ rfl⟩

end Types

namespace Types

variable {ts : Types} {id : TypeId} {name : String} {P : Clause → Prop}

/-- In all types, the clauses of methods with that name are as `P` says. -/
def AllUnder (ts : Types) (name : String) (P : Clause → Prop) : Prop :=
  ∀ id t, ts.get? id = some t →
    MethodTable.AllUnder t.methods name P ∧ MethodTable.AllUnder t.classMethods name P

theorem Calm.allUnder (h : ts.Calm) (hname : name ∈ unspoken) :
    ts.AllUnder name (·.isQuiet) :=
  fun id t ht ↦ ⟨(h id t ht).methods name hname, (h id t ht).classMethods name hname⟩

theorem AllUnder.classSideWithin (h : ts.AllUnder name P) {n : Nat}
    {found : TypeId × List Clause} (hm : ts.classSideWithin name n id = some found) :
    ∀ c ∈ found.2, P c := by
  induction n generalizing id with
  | zero => cases hm
  | succ n ih =>
    unfold Types.classSideWithin at hm
    split at hm
    · rename_i clauses hclauses
      cases hm
      obtain ⟨t, ht, hcs⟩ := Option.bind_eq_some_iff.mp hclauses
      exact (h id t ht).2 clauses hcs
    · split at hm
      · exact ih hm
      · cases hm

theorem AllUnder.firstWith (h : ts.AllUnder name P) {ids : List TypeId}
    {found : TypeId × List Clause} (hm : ts.firstWith name ids = some found) :
    ∀ c ∈ found.2, P c := by
  induction ids with
  | nil => cases hm
  | cons id rest ih =>
    unfold Types.firstWith at hm
    split at hm
    · rename_i clauses hclauses
      cases hm
      obtain ⟨t, ht, hcs⟩ := Option.bind_eq_some_iff.mp hclauses
      exact (h id t ht).1 clauses hcs
    · exact ih hm

theorem AllUnder.answer {s : State} (h : s.types.AllUnder name P) {receiver : Value}
    {bare : Bool} {m : Method} (hm : s.answer receiver name bare = .method m) :
    ∀ c ∈ m.clauses, P c := by
  unfold State.answer at hm
  split at hm
  · rename_i own hown
    cases hm
    obtain ⟨t, -, hown⟩ := Option.bind_eq_some_iff.mp hown
    obtain ⟨found, hfound, rfl⟩ := Option.map_eq_some_iff.mp hown
    exact h.classSideWithin hfound
  · split at hm
    · cases hm
    · split at hm
      · rename_i m' hfound
        cases hm
        obtain ⟨found, hfirst, rfl⟩ := Option.map_eq_some_iff.mp hfound
        exact h.firstWith hfirst
      · cases hm

end Types

namespace State

def KeepsLists (s s' : State) : Prop :=
  ∀ (i : Nat) (items : Array Value), s.lists[i]? = some items → s'.lists[i]? = some items

instance gentle_keepsLists : Gentle KeepsLists where
  refl _ _ _ h := h
  trans h h' i items hi := h' i items (h i items hi)
  held _ _ _ _ h := h
  newList s items i old h := by
    have hlt : i < s.lists.size := (Array.getElem?_eq_some_iff.mp h).1
    rw [State.newList, Array.getElem?_push, if_neg (by omega), h]
  newObject _ _ _ _ _ h := h
  newScope _ _ _ _ h := h
  define _ _ _ _ _ _ h := h
  assign _ _ _ _ _ _ h := h
  letGo s name t i items h := by
    obtain ⟨types, heq⟩ := s.letGoAround_eq name t
    rw [heq]
    exact h

theorem KeepsLists.items {s s' : State} (h : KeepsLists s s') {l : ListId} {n : Nat}
    (hn : n < (s.items l).size) : s'.items l = s.items l := by
  unfold State.items at hn ⊢
  cases hfound : s.lists[l.index]? with
  | none => simp [hfound] at hn
  | some items => rw [h _ _ hfound]

end State

namespace Task

def isQuiet : Task → Bool
  | send name _ => unspoken.contains name
  | super .. => false
  | native n _ => n.routine.isQuiet
  | framed _ t | handling _ t => t.isQuiet
  | _ => true

def isEval : Task → Bool
  | eval .. => true
  | _ => false

theorem isQuiet_of_partOfBody {t : Task} (h : PartOfBody t) : t.isQuiet := by cases h <;> rfl

theorem isQuiet_family (t : Task) : t.family.isQuiet = t.isQuiet := by cases t <;> rfl

end Task

open State

abbrev Eval.IsQuiet {α : Type} (x : Eval α) : Prop := x.Asks (·.isQuiet) KeepsLists

namespace Eval.IsQuiet

open Asks

theorem inspectAttrs (done : List String) (attrs : List (String × Value)) :
    (Eval.inspectAttrs done attrs).IsQuiet := by
  induction attrs generalizing done with
  | nil => exact .pure _
  | cons a rest ih => exact .bind (.inspect a.2 rfl fun _ ↦ rfl) fun _ ↦ ih _

theorem inspectObject (v : Value) : (ObjectRoutine.inspectObject v).IsQuiet := by
  refine .bind (.read _) fun text ↦ ?_
  cases text with
  | some text => exact .pure _
  | none =>
    refine .bind (.read _) fun type ↦ .bind (.read _) fun attrs ↦
      .bind (.holding _ (inspectAttrs [] attrs)) fun texts ↦ ?_
    split <;> exact .pure _

theorem equalItems (as bs : List Value) : (ListRoutine.equalItems as bs).IsQuiet := by
  induction as generalizing bs with
  | nil => exact .pure true
  | cons a as ih =>
    cases bs with
    | nil => exact .pure true
    | cons b bs =>
      refine .bind (.valuesEqual a b fun _ _ ↦ rfl) fun equal ↦ ?_
      split
      · exact ih bs
      · exact .pure false

theorem inspectItems (l : ListId) (done : List String) (items : List Value) :
    (ListRoutine.inspectItems l done items).IsQuiet := by
  induction items generalizing done with
  | nil => exact .pure _
  | cons item rest ih =>
    unfold ListRoutine.inspectItems
    split
    · exact .bind (.pure _) fun _ ↦ ih _
    · exact .bind (.holding _ (.inspect item rfl fun _ ↦ rfl)) fun _ ↦ ih _

theorem listEqual (l : ListId) (c : Call) : (ListRoutine.runOn .equal l c).IsQuiet := by
  unfold ListRoutine.runOn
  cases c.arg 0 with
  | list other =>
    dsimp only
    split
    · exact .pure _
    · refine .bind (.read _) fun (as, bs) ↦ ?_
      dsimp only
      split
      · exact .bind (.holding _ (.holding _ (equalItems as bs))) fun _ ↦ .pure _
      · exact .pure _
  | _ => exact .pure _

theorem ofList {r : ListRoutine} (hnew : r ≠ .newEmpty ∧ r ≠ .newFilled)
    (hvisit : ∀ c first, r.visit? c first = none) (h : ∀ l c, (r.runOn l c).IsQuiet) (c : Call) :
    (r.run c).IsQuiet := by
  unfold ListRoutine.run
  split
  · exact absurd rfl hnew.1
  · exact absurd rfl hnew.2
  · split
    · exact .fault _ c.span
    · refine .bind (.read _) fun first ↦ .holding _ ?_
      rw [hvisit]
      exact h _ c
  · exact .fault _ c.span

theorem routine {r : Routine} (hr : r.isQuiet) (c : Call) : (r.run c).IsQuiet := by
  unfold Routine.isQuiet at hr
  split at hr
  · exact .pure _
  · exact .holding _ (inspectObject c.receiver)
  · change (LambdaRoutine.run .call c).IsQuiet
    unfold LambdaRoutine.run
    cases c.receiver with
    | lambda l => exact .holding _ (.perform rfl)
    | _ => exact .fault _ c.span
  · exact .pure _
  · exact .pure _
  · refine .bind (.read _) fun shown ↦ ?_
    cases shown with
    | some shown => exact .pure _
    | none => exact .fault _ c.span
  · exact ofList (r := .equal) ⟨nofun, nofun⟩ (fun _ _ ↦ rfl) listEqual c
  · have shown (l : ListId) (c : Call) : (ListRoutine.runOn .inspect l c).IsQuiet :=
      .bind (.read (·.items l)) fun items ↦ .bind (inspectItems l [] items.toList) fun _ ↦ .pure _
    exact ofList (r := .inspect) ⟨nofun, nofun⟩ (fun _ _ ↦ rfl) shown c
  · change (TypeRoutine.run .name c).IsQuiet
    unfold TypeRoutine.run
    cases c.receiver with
    | type t => exact .bind (.read _) fun _ ↦ .pure _
    | _ => exact .fault _ c.span
  · cases hr

theorem invoke {m : Method} {c : Call} (h : ∀ cl ∈ m.clauses, cl.isQuiet) :
    (Eval.invoke m c).IsQuiet :=
  .runClauses m none m.clauses (fun _ _ ↦ rfl) (fun _ _ _ _ _ _ ↦ rfl) (fun _ _ ↦ rfl)
    (fun _ _ _ ↦ rfl) fun n hn _ ↦ h (.native n) hn

end Eval.IsQuiet

theorem Task.quiet_work {t : Task} {s : State} (hq : t.isQuiet) (he : t.isEval = false)
    (hs : s.types.Calm) : (t.work s).Asks (·.isQuiet) KeepsLists s := by
  have body {t : Task} (h : PartOfBody t) : t.isQuiet := isQuiet_of_partOfBody h
  have call (v : Value) (args : List Value) (span : Span) :
      (Task.send "call" ⟨v, args, none, span⟩).isQuiet := rfl
  cases t with
  | eval e ctx => cases he
  | statements es ctx => exact Eval.Asks.answering (.statements ctx es fun _ _ ↦ rfl) s
  | body b ctx => exact Eval.Asks.answering (.body b ctx fun _ h ↦ body h) s
  | guard e ctx =>
    have guard : (Eval.eval e ctx).IsQuiet := .perform rfl
    exact guard.answering s
  | send name c =>
    have hname : name ∈ unspoken := by simpa [Task.isQuiet] using hq
    refine Eval.Asks.answering_at ?_
    unfold Eval.deliver
    refine Eval.Asks.reading ?_
    cases hm : s.answer c.receiver name (c.args.isEmpty && c.block.isNone) with
    | method m => exact Eval.IsQuiet.invoke ((hs.allUnder hname).answer hm) s
    | constant v => exact Eval.Asks.pure v s
    | nothing => exact Eval.Asks.bind (.read _) (fun _ ↦ .missing _ _ _ c.span) s
  | super frame c => cases hq
  | callLambda l args block span =>
    have lambda : (Eval.callLambda l args block span).IsQuiet :=
      .callLambda l args block span (fun _ _ ↦ rfl) (fun _ ↦ rfl) fun _ _ _ ↦ rfl
    exact lambda.answering s
  | native n c => exact Eval.Asks.answering (Eval.IsQuiet.routine hq c) s
  | framed frame t =>
    rw [work_framed]
    split
    · exact fun _ _ h ↦ h
    · exact ⟨fun _ _ h ↦ h, hq, fun _ _ _ _ h ↦ h⟩
  | handling r t =>
    rw [work_handling]
    exact ⟨fun _ _ h ↦ h, hq, fun _ _ _ _ h ↦ h⟩
  | describe v =>
    have describe : (Eval.describe v).IsQuiet := .describe v rfl fun _ ↦ rfl
    exact describe s
  | rawText v => exact Eval.Asks.rawText v s
  | loop condition es ctx => exact Eval.Asks.loopRound condition es ctx (fun _ _ ↦ rfl) s
  | forEach p es ctx span list index =>
    exact Eval.Asks.forRound p es ctx span list index (fun _ h ↦ body h) s
  | visit v list block span index =>
    exact Eval.Asks.visitRound v list block span index (fun _ _ ↦ rfl) (call · · _) s
  | times left index block span =>
    exact Eval.Asks.timesRound left index block span (fun _ _ ↦ rfl) (call · · _) s

namespace Machine

variable {t t' : Task} {s s' : State} {m : Machine}

/-- A step was counted that was within the limit. -/
def Counted (s s' : State) : Prop :=
  ∃ l, s.config.stepLimit = some l ∧ s.steps < l ∧ s.steps < s'.steps

/-- The work is quiet, and leads on to quiet work. -/
def QuietlyOn (x : Step Reply) (s : State) : Prop :=
  x.Asks (·.isQuiet) KeepsLists s ∧ x.Ends fun r ↦ ∀ t, r = .task t → t.isQuiet

/-- No step was counted since `s`. -/
structure Undisturbed (s : State) (m : Machine) : Prop where
  work : QuietlyOn m.work s
  waiting : ∀ p ∈ m.waiting, ∀ o s', QuietlyOn (p.resume o s') s'

theorem quietlyOn_work {n : Nat} (hq : t.isQuiet) (hc : s'.types.Calm) (hlater : Later s s')
    (hkept : KeepsLists s s') (hlimit : s.config.stepLimit = some n) :
    Counted s (t.work s').state ∨ QuietlyOn (t.work s') s := by
  have leads : (t.work s').Ends fun r ↦ ∀ t', r = .task t' → t'.isQuiet := by
    refine (t.work_leads_on s').mono fun r h t' hr ↦ ?_
    rw [← t'.isQuiet_family, (h t' hr).family, t.isQuiet_family]
    exact hq
  cases he : t.isEval with
  | false => exact .inr ⟨.of_earlier hkept (t.quiet_work hq he hc), leads⟩
  | true =>
    obtain ⟨e, ctx, rfl⟩ : ∃ e ctx, t = .eval e ctx := by
      cases t <;> first | exact ⟨_, _, rfl⟩ | cases he
    have hlimit' : s'.config.stepLimit = some n := (congrArg _ hlater.config).trans hlimit
    have hsteps := hlater.steps
    by_cases hn : s'.steps < n
    · have hcounted := (Task.eval_later e ctx s').state.steps
      refine .inl ⟨n, hlimit, by omega, ?_⟩
      dsimp only at hcounted
      omega
    · have hwork : (Task.eval e ctx).work s' =
          .done (.error (.halt (.steps n))) { s' with steps := s'.steps + 1 } := by
        rw [Task.work_eval]
        simp only [Eval.tick, hlimit', show n < s'.steps + 1 by omega, if_true]
        rfl
      refine .inr ⟨?_, leads⟩
      rw [hwork]
      exact hkept

theorem Reaches.counted_or_kept {n : Nat} (hq : t.isQuiet) (hc : s.types.Calm)
    (hlimit : s.config.stepLimit = some n) (h : (start t s).Reaches m) :
    Counted s m.work.state ∨ Undisturbed s m := by
  induction h with
  | refl =>
    have first := quietlyOn_work hq hc (later_stable.refl s) (Lax.refl s) hlimit
    exact first.imp_right fun hwork ↦ ⟨hwork, nofun⟩
  | @tail m₁ m₂ hr hn ih =>
    obtain ⟨l, hl, hlt, hsteps⟩ | ⟨⟨hwork, hleads⟩, hwaiting⟩ := ih
    · have later := Reaches.later hr (.single hn)
      exact .inl ⟨l, hl, hlt, Nat.lt_of_lt_of_le hsteps later.steps⟩
    · have later : Later s m₁.work.state := Reaches.evolves_start later_enduring hr
      have calm : m₁.work.state.types.Calm := Reaches.evolves_start Types.calm_enduring hr hc
      obtain ⟨t', s', resume, hx, rfl⟩ | ⟨t', s', hx, rfl⟩ | ⟨o, s', p, ps, hx, hw, rfl⟩ :=
        next_cases hn <;> rw [hx] at hwork hleads later calm
      · have started := quietlyOn_work hwork.2.1 calm later hwork.1 hlimit
        refine started.imp_right fun hstart ↦ ⟨hstart, ?_⟩
        rintro p (_ | ⟨_, hp⟩) o s''
        · exact ⟨hwork.2.2 o s'', hleads o s''⟩
        · exact hwaiting p hp o s''
      · have started := quietlyOn_work (hleads _ rfl t' rfl) calm later hwork hlimit
        exact started.imp_right fun hstart ↦ ⟨hstart, hwaiting⟩
      · rw [hw] at hwaiting
        have goesOn := hwaiting p List.mem_cons_self o s'
        exact .inr ⟨⟨.of_earlier hwork goesOn.1, goesOn.2⟩,
          fun q hq ↦ hwaiting q (List.mem_cons_of_mem _ hq)⟩

end Machine

end Quill
