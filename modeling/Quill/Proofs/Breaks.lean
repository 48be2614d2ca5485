import Quill.Proofs.Lambdas.Account

/-!
# Where a `break` ends

A `break` out of a block ends the call that the block was written for, and no other. This rests on
lambdas never being made twice, whatever a host does with an interpreter and wherever lambdas are
kept. Main statement: `break_reaches_its_call`.
-/

namespace Quill

open Tracked State

theorem Step.KeepsTo.finish {α : Type} [Tracked α] {n k fuel : Nat} {x : Step α} {s s' : State}
    {o : Outcome α} (hx : x.KeepsTo n s) (he : x.Evolves KeepsLambdas s)
    (h : x.finish fuel k = some (o, s')) (hn : s'.lambdas.size ≤ n) : Known n s' ∧ Known n o := by
  induction x generalizing s k with
  | done o' s₁ => cases k <;> cases h <;> exact hx.2
  | wait t s₁ resume ih =>
    cases k with
    | zero => cases h
    | succ k =>
      obtain ⟨⟨-, hs₁, ht⟩, hresume⟩ := hx
      obtain ⟨⟨o₂, s₂⟩, hrun, hrest⟩ := Option.bind_eq_some_iff.mp h
      have hlater := (he.2 o₂ s₂).finish keepsLambdas_enduring.toStable
        keepsLambdas_enduring.spans hrest
      obtain ⟨hs₂, ho₂⟩ := Machine.run_known ht hs₁ hrun (Nat.le_trans hlater.size hn)
      exact ih o₂ s₂ (hresume o₂ s₂ hs₂ ho₂) (he.2 o₂ s₂) hrest

namespace State

theorem closed_initial (config : Config) : (initial config).Closed := by
  have empty {α : Type} [Tracked α] : Known 0 (#[] : Array α) := nofun
  have root : Known 0 (⟨.empty, none⟩ : Scope Value) := Known.emptyBindings
  have scopes : Known 0 (Scopes.initial : Scopes Value) := empty.push root
  have main : Known 0 (⟨CoreType.object.id, .empty⟩ : Object) := Known.emptyBindings
  exact ⟨.standardTypes, scopes.child _, empty, empty, empty.push main, .nil, .nil⟩

theorem keepsLambdas_spans : Spans KeepsLambdas := keepsLambdas_enduring.spans

end State

namespace Interpreter

/-- What a host does with an interpreter. The values that it uses are those it was given. -/
inductive Uses (i : Interpreter) : Interpreter → Prop
  | runs {p : Program} {fuel : Nat} {r : Result} {i' : Interpreter} :
      i.run p fuel = some (r, i') → Uses i i'
  | runsText {text : String} {fuel : Nat} {r : Result} {i' : Interpreter} :
      i.runText text fuel = some (r, i') → Uses i i'
  | performs {t : Task} {fuel : Nat} {o : Outcome Value} {i' : Interpreter} :
      Known i.state.lambdas.size t → i.perform (Eval.perform t) fuel = some (o, i') → Uses i i'
  | displays {v : Value} {fuel : Nat} {o : Outcome String} {i' : Interpreter} :
      Known i.state.lambdas.size v → i.perform (Eval.display v) fuel = some (o, i') → Uses i i'
  | inspects {v : Value} {fuel : Nat} {o : Outcome String} {i' : Interpreter} :
      Known i.state.lambdas.size v → i.perform (Eval.inspect v) fuel = some (o, i') → Uses i i'
  | defines {v : Value} (scope : ScopeId) (name : String) :
      Known i.state.lambdas.size v → Uses i ⟨i.state.define scope name v⟩
  | keeps {v : Value} : Known i.state.lambdas.size v → Uses i (i.keep v)
  | letsGo : Uses i i.letGo
  | takesOutput : Uses i i.takeOutput.2
  | addsNative (t : TypeId) (classSide : Bool) (name : String) (signature : Signature)
      (routine : Routine) : Uses i (i.addNative t classSide name signature routine)
  | rests : Uses i i.rested

def Becomes : Interpreter → Interpreter → Prop := Relation.ReflTransGen Uses

/-- What an interpreter can become from its first program on. -/
def Reachable (i : Interpreter) : Prop := ∃ config, Becomes ⟨.initial config⟩ i

variable {i i' : Interpreter} {fuel : Nat} {v : Value}

theorem reachable_of_withPrelude {prelude : Except SyntaxError Program} {config : Config}
    (h : withPrelude prelude config fuel = some (.ok i)) : i.Reachable := by
  unfold withPrelude at h
  split at h
  · cases h
  · rename_i p hp
    obtain ⟨⟨r, j⟩, hrun, h⟩ := Option.bind_eq_some_iff.mp h
    cases r with
    | error e => cases h
    | ok v =>
      cases h
      exact ⟨config, .tail (.single (.runs hrun)) .takesOutput⟩

theorem reachable_of_new {config : Config} (h : new config fuel = some (.ok i)) : i.Reachable :=
  reachable_of_withPrelude h

section

variable {k : Kind} {o : Outcome Value} {span : Span} {r : Result}

theorem perform_closed {α : Type} [Tracked α] {work : Eval α} {o : Outcome α}
    (hwork : ∀ n, i.state.lambdas.size ≤ n → work.KeepsTo n) (hc : Eval.Composed k work)
    (hi : i.state.Closed) (h : i.perform work fuel = some (o, i')) :
    i'.state.Closed ∧ i.state.KeepsLambdas i'.state := by
  have hkept := perform_spans keepsLambdas_enduring.toStable keepsLambdas_spans hc h
  obtain ⟨⟨o', s'⟩, hrun, heq⟩ := Option.map_eq_some_iff.mp h
  cases heq
  have hkeeps := hwork s'.lambdas.size hkept.size i.state (mono hkept.size _ hi)
  have hevolves := hc.evolves keepsLambdas_enduring.toStable i.state
  exact ⟨(hkeeps.finish hevolves hrun (Nat.le_refl _)).1, hkept⟩

theorem display_closed (hv : Known i.state.lambdas.size v) (hi : i.state.Closed)
    {o : Outcome String} (h : i.perform (Eval.display v) fuel = some (o, i')) :
    i'.state.Closed ∧ i.state.KeepsLambdas i'.state :=
  perform_closed (fun _ hn ↦ .display (mono hn v hv)) (.display (k := .closed) v) hi h

theorem inspect_closed (hv : Known i.state.lambdas.size v) (hi : i.state.Closed)
    {o : Outcome String} (h : i.perform (Eval.inspect v) fuel = some (o, i')) :
    i'.state.Closed ∧ i.state.KeepsLambdas i'.state :=
  perform_closed (fun _ hn ↦ .inspect (mono hn v hv)) (.inspect (k := .closed) v) hi h

theorem result_closed (ho : Known i.state.lambdas.size o) (hi : i.state.Closed)
    (h : i.result o span fuel = some (r, i')) : i'.state.Closed := by
  obtain rfl | ⟨raised, text, rfl, hperform | hperform⟩ := result_cases h
  · exact hi
  · have hmessage : Known i.state.lambdas.size (i.state.attr raised.value "message") :=
      hi.attr raised.value "message"
    have hkeeps (n : Nat) (hn : i.state.lambdas.size ≤ n) : (Eval.holding [raised.value]
        (Eval.display (i.state.attr raised.value "message"))).KeepsTo n :=
      .holding (.single (mono hn raised.value ho)) (.display (mono hn _ hmessage))
    exact (perform_closed hkeeps (.holding (k := .closed) _ (.display _)) hi hperform).1
  · exact (inspect_closed ho hi hperform).1

theorem run_closed {p : Program} (hi : i.state.Closed) (h : i.run p fuel = some (r, i')) :
    i'.state.Closed ∧ i.state.KeepsLambdas i'.state := by
  obtain ⟨o, s, j, hrun, hres, rfl⟩ := run_eq_some.mp h
  have hrested : i.rested.state.Closed := { hi with rescuing := .nil }
  have hkept : i.rested.state.KeepsLambdas s := keepsLambdas_spans _ _ _ _ _ hrun
  have hp (n : Nat) : Known n (Task.statements p.body State.topContext) := ⟨trivial, trivial⟩
  have hend := Machine.run_known (hp _) (mono hkept.size _ hrested) hrun (Nat.le_refl _)
  have hj : j.state.Closed := result_closed (i := ⟨s⟩) hend.2 hend.1 hres
  have hkept' := result_spans keepsLambdas_enduring.toStable keepsLambdas_spans hres
  exact ⟨{ hj with }, keepsLambdas_enduring.trans hkept hkept'⟩

end

theorem Uses.closed (h : i.Uses i') (hi : i.state.Closed) :
    i'.state.Closed ∧ i.state.KeepsLambdas i'.state := by
  have same {s : State} (hs : s.lambdas = i.state.lambdas) : i.state.KeepsLambdas s :=
    fun j l hj ↦ by rwa [hs]
  cases h with
  | runs h => exact run_closed hi h
  | @runsText text fuel r i' h =>
    unfold runText at h
    split at h
    · exact run_closed hi h
    · cases h
      exact ⟨hi, same rfl⟩
  | @performs t fuel o i' ht h =>
    obtain ⟨⟨o', s'⟩, hrun, heq⟩ := Option.map_eq_some_iff.mp h
    cases heq
    rw [Eval.run_perform] at hrun
    have hkept := keepsLambdas_spans _ _ _ _ _ hrun
    have hend := Machine.run_known (mono hkept.size _ ht) (mono hkept.size _ hi) hrun
      (Nat.le_refl _)
    exact ⟨hend.1, hkept⟩
  | displays hv h => exact display_closed hv hi h
  | inspects hv h => exact inspect_closed hv hi h
  | defines scope name hv => exact ⟨Known.define hi scope name hv, same rfl⟩
  | keeps hv => exact ⟨{ hi with held := .cons ⟨.single hv, trivial⟩ hi.held }, same rfl⟩
  | letsGo => exact ⟨{ hi with held := .nil }, same rfl⟩
  | takesOutput => exact ⟨{ hi with }, same rfl⟩
  | addsNative t classSide name signature routine =>
    have types := Known.addNative hi.types t classSide name signature routine
    exact ⟨hi.withTypes types, same rfl⟩
  | rests => exact ⟨{ hi with rescuing := .nil }, same rfl⟩

theorem Becomes.closed (h : i.Becomes i') (hi : i.state.Closed) :
    i'.state.Closed ∧ i.state.KeepsLambdas i'.state := by
  induction h with
  | refl => exact ⟨hi, keepsLambdas_enduring.refl _⟩
  | tail _ huses ih =>
    obtain ⟨hclosed, hkept⟩ := huses.closed ih.1
    exact ⟨hclosed, keepsLambdas_enduring.trans ih.2 hkept⟩

theorem Reachable.closed (h : i.Reachable) : i.state.Closed := by
  obtain ⟨config, hbecomes⟩ := h
  exact (hbecomes.closed (closed_initial config)).1

end Interpreter

namespace Account

/-- A `break` out of `id` comes up to the first task that waits, `p`, which made `ids`. -/
def BreakAt (a : Account) (id : LambdaId) (v : Value) (p : Pending) (ids : List LambdaId) : Prop :=
  ∃ s ps outer, a.machine.work = .done (.error (.blockBreak id v)) s ∧
    a.machine.waiting = p :: ps ∧ a.outer = ids :: outer

def Ends (a : Account) (p : Pending) (o : Outcome Reply) : Prop :=
  ∃ s, a.machine.next = .inl ⟨p.task, .done o s, a.machine.waiting.tail⟩

variable {a b : Account} {t : Task} {s : State} {p : Pending} {ids : List LambdaId}
  {id : LambdaId} {v : Value} {n : Nat}

theorem BreakAt.mem_lambdas (h : a.BreakAt id v p ids) (hid : id ∈ ids) : id ∈ a.lambdas := by
  obtain ⟨s, ps, outer, -, -, houter⟩ := h
  simp [lambdas, houter, hid]

theorem Sound.pending (ha : a.Sound n) (h : a.BreakAt id v p ids) : p.Sound n a.state ids := by
  obtain ⟨s, ps, outer, -, hwaiting, houter⟩ := h
  have hall := ha.waiting
  rw [hwaiting, houter] at hall
  exact (List.forall₂_cons.mp hall).1

theorem Sound.ends (ha : a.Sound n) (h : a.BreakAt id v p ids) (hcall : p.task.isCall) :
    a.Ends p (if id ∈ ids then .ok (.value v) else .error (.blockBreak id v)) := by
  have hpending := ha.pending h
  obtain ⟨s, ps, outer, hwork, hwaiting, -⟩ := h
  obtain ⟨s', hends⟩ := hpending.ends hcall id v s
  refine ⟨s', ?_⟩
  simp only [Machine.next, hwork, hwaiting, hends, List.tail_cons]

end Account

open Account

/-- A `break` ends the call that its block was written for and no other. A host cannot make an
interpreter refer to a lambda that was not made, or make another of one that was. While it works on
a task, each new lambda comes of one evaluation of its block, which makes no other, and none is put
down to two evaluations in progress. A call that a `break` comes up to ends with its value if it
made the lambda itself, and lets it pass otherwise. Once the evaluation that made a lambda is over,
no task in progress made it, and from then on all calls let the breaks out of it pass. -/
theorem break_reaches_its_call :
    (∀ i i' : Interpreter, i.Reachable → i.Becomes i' →
      i'.state.Closed ∧ i.state.KeepsLambdas i'.state) ∧
    (∀ (i : Interpreter) (t : Task) (m : Machine), i.Reachable → Known i.state.lambdas.size t →
      (Machine.start t i.state).Reaches m →
        m.work.Closed ∧ i.state.KeepsLambdas m.work.state ∧
        ∃ a, (start t i.state).Reaches a ∧ a.machine = m ∧
          a.outer.length = m.waiting.length) ∧
    (∀ (i : Interpreter) (t : Task) (a : Account), i.Reachable → Known i.state.lambdas.size t →
      (start t i.state).Reaches a →
        (a.lambdas.Nodup ∧ ∀ id ∈ a.lambdas, id ∈ i.state.made a.state) ∧
        (∀ id ∈ i.state.made a.state, ∃ b l, (start t i.state).Reaches b ∧ b.Reaches a ∧
          b.machine.task.lambda? = some l ∧ b.own = [id] ∧ a.state.lambda? id = some l) ∧
        (a.machine.task.Owns a.own a.state ∧
          ∀ r s, a.machine.work = .done (.ok r) s → a.machine.task.lambda?.isSome → a.own ≠ []) ∧
        (∀ id v p ids, a.BreakAt id v p ids → p.task.isCall →
          p.task.Owns ids a.state ∧
          a.Ends p (if id ∈ ids then .ok (.value v) else .error (.blockBreak id v))) ∧
        (∀ b o s id, a.machine.work = .done o s → id ∈ a.own → a.Next b → id ∉ b.lambdas) ∧
        ∀ id, id.index < a.state.lambdas.size → id ∉ a.lambdas →
          ∀ b v p ids, a.Reaches b → b.BreakAt id v p ids → p.task.isCall →
            b.Ends p (.error (.blockBreak id v))) := by
  refine ⟨fun i i' hi h ↦ h.closed hi.closed, fun i t m hi ht h ↦ ?_, fun i t a hi ht h ↦ ?_⟩
  · obtain ⟨a, ha, rfl, hlength⟩ := exists_of_reaches h
    obtain ⟨s₀, own, hobeys, -⟩ := (ha.sound_of_closed ht hi.closed).work
    exact ⟨hobeys.closed, ha.keepsLambdas_start, a, ha, rfl, hlength⟩
  · have hsound := h.sound_of_closed ht hi.closed
    have howns := hsound.owns (Nat.le_refl _)
    refine ⟨h.nodup, fun id ↦ h.origin_block ht hi.closed, ⟨howns, ?_⟩, ?_, ?_, ?_⟩
    · exact fun r s hwork hblock ↦ hsound.own_ne_nil hwork hblock
    · exact fun id v p ids hbreak hcall ↦ ⟨(hsound.pending hbreak).owns, hsound.ends hbreak hcall⟩
    · exact fun b o s id hdone hid hnext ↦ h.over hdone hid hnext
    · intro id hid hgone b v p ids hab hbreak hcall
      have hb := h.gone hab hid hgone
      have hends := (Reaches.sound_of_closed ht hi.closed (h.trans hab)).ends hbreak hcall
      rwa [if_neg fun hmem ↦ hb (hbreak.mem_lambdas hmem)] at hends

/-- `f = { break }` and then `f {}`, where braces stand for blocks. -/
def breakFromOther : Task :=
  let block (body : List Expr) : Block := ⟨.none, body, .origin⟩
  let breaking : Expr := ⟨.block (block [⟨.jump .break_ none, .origin⟩]), .origin⟩
  .statements
    [⟨.assign (.local_ ⟨"f", .origin⟩) breaking, .origin⟩,
      ⟨.call none ⟨"f", .origin⟩ [] (some (.literal (block []))), .origin⟩]
    State.topContext

/-- A break out of the first lambda, which has one expression in it, comes to the call of a lambda
that has none. -/
def Machine.breaksOther (m : Machine) : Bool :=
  match m.work, m.waiting with
  | .done (.error (.blockBreak l _)) s, p :: _ => l.index == 0 && p.task.isCall &&
    p.task.lambda?.map (·.block.body.length) == some 0 &&
    (s.lambda? ⟨0⟩).map (·.block.body.length) == some 1
  | _, _ => false

/-- The call `f {}` made a lambda, but not the one that it calls. -/
theorem breakFromOther_passes :
    ∃ a p v ids, (start breakFromOther (.initial .standard)).Reaches a ∧
      a.BreakAt ⟨0⟩ v p ids ∧ p.task.isCall ∧ a.Ends p (.error (.blockBreak ⟨0⟩ v)) := by
  let i : Interpreter := ⟨.initial .standard⟩
  let m := (Machine.start breakFromOther i.state).walk 12
  have hi : i.Reachable := ⟨.standard, .refl⟩
  have ht : Known i.state.lambdas.size breakFromOther := ⟨trivial, trivial⟩
  have hm : m.breaksOther = true := by decide +kernel
  unfold Machine.breaksOther at hm
  split at hm
  case h_2 => cases hm
  case h_1 l v s p ps hwork hwaiting =>
    simp only [Bool.and_eq_true, beq_iff_eq] at hm
    obtain ⟨⟨⟨hl, hcall⟩, hbody⟩, hbody₀⟩ := hm
    obtain ⟨-, hmachines, haccounts⟩ := break_reaches_its_call
    obtain ⟨-, -, a, ha, hmachine, hlength⟩ :=
      hmachines i breakFromOther m hi ht (Machine.reaches_walk 12 _)
    obtain ⟨-, -, -, hbreaks, -⟩ := haccounts i breakFromOther a hi ht ha
    obtain rfl : l = ⟨0⟩ := congrArg LambdaId.mk hl
    rw [← hmachine] at hwork hwaiting hlength
    have hstate : a.state = s := congrArg Step.state hwork
    rw [hwaiting] at hlength
    obtain ⟨ids, outer, houter⟩ := List.exists_cons_of_length_eq_add_one hlength
    have hbreak : a.BreakAt ⟨0⟩ v p ids :=
      ⟨s, ps, outer, hwork, hwaiting, houter⟩
    obtain ⟨howns, hends⟩ := hbreaks ⟨0⟩ v p ids hbreak hcall
    have hother : ⟨0⟩ ∉ ids := by
      obtain rfl | ⟨l, id, hblock, rfl, hlambda⟩ := howns
      · exact List.not_mem_nil
      · intro hid
        obtain rfl := List.mem_singleton.mp hid
        rw [hstate] at hlambda
        rw [hlambda] at hbody₀
        rw [hblock] at hbody
        cases hbody.symm.trans hbody₀
    rw [if_neg hother] at hends
    exact ⟨a, p, v, ids, ha, hbreak, hcall, hends⟩

end Quill
