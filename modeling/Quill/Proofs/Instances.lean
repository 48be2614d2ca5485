import Quill.Proofs.Answering
import Quill.Proofs.Comparing
import Quill.Proofs.Listing
import Quill.Proofs.Protection

/-!
# What `new` makes

Where programs have defined no `new`, a type has the one of all types, which makes an instance of
it, unless it is `List` or below: the `new` of `List` makes a list, whatever type it is sent to.
Main statement: `new_makes_instances`.
-/

namespace Quill

namespace Eval.Gives

variable {α β : Type} {s s' : State} {b : β}

theorem of_bind {x : Eval α} {f : α → Eval β} (h : (x >>= f).Gives s (.ok b) s') :
    ∃ a s₁, x.Gives s (.ok a) s₁ ∧ (f a).Gives s₁ (.ok b) s' := by
  obtain ⟨es, hes⟩ := h
  rw [bind_apply] at hes
  obtain ⟨u, hu, -⟩ | ⟨a, es₁, es₂, s₁, -, hx, hf⟩ := hes.bind
  · cases hu
  · exact ⟨a, s₁, ⟨es₁, hx⟩, ⟨es₂, hf⟩⟩

theorem of_read {x : State → α} {f : α → Eval β} {o : Outcome β}
    (h : (Eval.read x >>= f).Gives s o s') : (f (x s)).Gives s o s' := h

theorem of_holding {vs : List Value} {x : Eval α} {o : Outcome α}
    (h : (holding vs x).Gives s o s') :
    ∃ s₁, x.Gives { s with held := ⟨vs, none⟩ :: s.held } o s₁ ∧
      s' = { s₁ with held := s.held } := by
  obtain ⟨es, hes⟩ := h
  obtain ⟨s₁, hx, rfl⟩ := holding_course hes
  exact ⟨s₁, ⟨es, hx⟩, rfl⟩

theorem of_perform {t : Task} {o : Outcome Value} (h : (Eval.perform t).Gives s o s') :
    t.Gives s o s' := by
  obtain ⟨es, hes⟩ := h
  exact (perform_course hes).2

theorem of_attempt {x : Eval α} {o : Outcome α} (h : (Eval.attempt x).Gives s (.ok o) s') :
    x.Gives s o s' := by
  obtain ⟨es, hes⟩ := h
  obtain ⟨o', ho, hx⟩ := hes.attempt
  cases ho
  exact ⟨es, hx⟩

theorem not_fault {f : Fault} {span : Span} {a : α} :
    ¬ (Eval.fault f span : Eval α).Gives s (.ok a) s' := fun h ↦ by
  cases (Gives.unique (Gives.fault f span s) h).1

theorem of_inFrame {frame : CallFrame} {t : Task} {v : Value}
    (h : (Eval.inFrame frame t).Gives s (.ok v) s') : ∃ s₁,
      t.Gives { s with frames := s.frames.push frame } (.ok v) s₁ ∧
        s' = { s₁ with frames := s₁.frames.pop } := by
  obtain ⟨⟨⟩, pushed, hpush, hrest⟩ := Gives.of_bind h
  obtain ⟨o, s₁, htried, hrest⟩ := Gives.of_bind hrest
  obtain ⟨⟨⟩, popped, hpop, hend⟩ := Gives.of_bind hrest
  have hpushed : pushed = { s with frames := s.frames.push frame } := by
    by_cases hdeep : s.config.maxCallDepth ≤ s.frames.size
    · have hfails : (Eval.pushFrame frame).Gives s
          (.error (.halt (.depth s.config.maxCallDepth))) s :=
        ⟨[], by rw [Eval.pushFrame, if_pos hdeep]; exact .done⟩
      cases (hpush.unique hfails).1
    · exact ((Gives.pushFrame frame (Nat.lt_of_not_le hdeep)).unique hpush).2
  obtain ⟨ho, rfl⟩ := (Gives.ofOutcome o popped).unique hend
  obtain ⟨-, rfl⟩ := (Gives.change _ s₁).unique hpop
  exact ⟨s₁, by rw [← hpushed, ho]; exact htried.of_attempt.of_perform, rfl⟩

theorem of_runNative {n : NativeMethod} {c : Call} {v : Value}
    (h : (runNative n c).Gives s (.ok v) s') : ∃ frames s₁,
      (n.routine.run c).Gives { s with frames } (.ok v) s₁ ∧
        s' = { s₁ with frames := s₁.frames.pop } := by
  have hframed := (Task.gives_iff (t := .framed ⟨n.label, c.span⟩ (.native n c)) rfl).mp
    (of_perform h)
  obtain ⟨s₁, hnative, rfl⟩ := of_inFrame hframed
  exact ⟨_, s₁, (Task.gives_iff (t := .native n c) rfl).mp hnative, rfl⟩

/-- Where all clauses are built in, one of them does the work of a call that ends with a value. -/
theorem of_runClauses {m : Method} {c : Call} {mismatch : Option Mismatch} {clauses : List Clause}
    {v : Value} (hm : m.clauses.all Clause.isNative = true)
    (hclauses : ∀ clause ∈ clauses, clause.isNative = true)
    (h : (runClauses m c mismatch clauses).Gives s (.ok v) s') :
    ∃ n, .native n ∈ clauses ∧ ∃ held frames s₁,
      (n.routine.run c).Gives { s with held, frames } (.ok v) s₁ ∧
        s' = { s₁ with held := s.held, frames := s₁.frames.pop } := by
  induction clauses generalizing mismatch with
  | nil =>
    -- What no clause takes is raised as an error.
    obtain ⟨label, s₁, -, hraise⟩ := Gives.of_bind h
    rw [if_pos hm] at hraise
    cases mismatch <;> exact absurd hraise not_fault
  | cons clause rest ih =>
    obtain ⟨hfirst, hrest⟩ := List.forall_mem_cons.mp hclauses
    cases clause with
    | user d => cases hfirst
    | native n =>
      have hchosen := of_read h
      split at hchosen
      · obtain ⟨s₁, hrun, rfl⟩ := of_holding hchosen
        obtain ⟨frames, s₂, hroutine, rfl⟩ := of_runNative hrun
        exact ⟨n, List.mem_cons_self, _, frames, s₂, hroutine, rfl⟩
      · obtain ⟨n', hn', hroutine⟩ := ih hrest hchosen
        exact ⟨n', List.mem_cons_of_mem _ hn', hroutine⟩

end Eval.Gives

namespace Types

variable {ts : Types} {id t u : TypeId} {name : String} {cs : List Clause}

/-- What a type or module has itself is as from the start, unless a program has defined a part of
it. -/
structure OwnStanding (ts : Types) : Prop where
  size : standard.all.size ≤ ts.all.size
  methods (t : TypeId) (name : String) : ts.classMethod? t name = standard.classMethod? t name ∨
    ∃ cs, ts.classMethod? t name = some cs ∧ ∃ c ∈ cs, c.isNative = false

namespace OwnStanding

theorem modify (h : ts.OwnStanding) {f : TypeInfo → TypeInfo}
    (hf : ∀ info name, (f info).classMethods.get? name = info.classMethods.get? name ∨
      ∃ cs, (f info).classMethods.get? name = some cs ∧ ∃ c ∈ cs, c.isNative = false) :
    (ts.modify id f).OwnStanding := by
  refine ⟨by rw [size_modify]; exact h.size, fun t name ↦ ?_⟩
  have hold := h.methods t name
  unfold classMethod? at hold ⊢
  obtain hsame | ⟨info, hinfo, hnew⟩ := get?_modify_cases ts id f t
  · rwa [hsame]
  · rw [hinfo, Option.bind_some] at hold
    rw [hnew, Option.bind_some]
    obtain hsame | hdefined := hf info name
    · rwa [hsame]
    · exact .inr hdefined

theorem modify_other (h : ts.OwnStanding) {f : TypeInfo → TypeInfo}
    (hf : ∀ info, (f info).classMethods = info.classMethods) : (ts.modify id f).OwnStanding :=
  h.modify fun info _ ↦ .inl (by rw [hf])

theorem addClassMethod (h : ts.OwnStanding) (name : String) (d : MethodDef) :
    (ts.addClassMethod id name (.user d)).OwnStanding := by
  refine h.modify fun info other ↦ ?_
  rw [MethodTable.insert, Bindings.get?_set]
  split
  · exact .inr ⟨_, rfl, .user d, Clause.mem_insert_self _ _, rfl⟩
  · exact .inl rfl

theorem add (h : ts.OwnStanding) {made : TypeInfo} (hmade : made.classMethods = .empty) :
    (ts.add made).OwnStanding := by
  refine ⟨?_, fun t name ↦ ?_⟩
  · have hsize := h.size
    simp only [Types.add, Array.size_push]
    omega
  · obtain hsame | ⟨hindex, -, hnew⟩ := ts.get?_add_cases made t
    · have hold := h.methods t name
      unfold classMethod? at hold ⊢
      rwa [hsame]
    · have hnone : standard.get? t = none := Array.getElem?_eq_none (by rw [hindex]; exact h.size)
      left
      simp only [classMethod?, hnew, hnone, hmade, Option.bind_some, Option.bind_none]
      rfl

theorem change {α : Type} {f : State → α × State} (hf : State.Change f) {s : State}
    (h : s.types.OwnStanding) : (f s).2.types.OwnStanding := by
  cases hf with
  | setTypeAttr t name v => exact h.modify_other fun _ ↦ rfl
  | setConstant t name v => exact h.modify_other fun _ ↦ rfl
  | addMethod t name d => exact h.modify_other fun _ ↦ rfl
  | addClassMethod t name d => exact h.addClassMethod name d
  | includeModule t module =>
    dsimp only
    unfold Types.mixIn includeModule
    split
    · split
      · exact h.modify_other fun _ ↦ rfl
      · exact h
    · exact h
  | derive container sort name superclass => exact (h.add rfl).modify_other fun _ ↦ rfl
  | document t doc =>
    cases doc with
    | some d => exact h.modify_other fun _ ↦ rfl
    | none => exact h
  | letGo name t =>
    dsimp only
    obtain hsame | ⟨u, hless⟩ := s.letGoAround_cases name t
    · rwa [hsame]
    · rw [hless]
      exact h.modify_other fun _ ↦ rfl
  | _ => exact h

end OwnStanding

theorem ownStanding_enduring :
    State.Enduring fun s s' ↦ s.types.OwnStanding → s'.types.OwnStanding where
  refl _ := id
  trans h h' := h' ∘ h
  change hf _ := OwnStanding.change hf
  held _ _ := id
  counted _ := id
  framed _ _ := id
  rescued _ _ := id

end Types

theorem State.Reached.ownStanding {s : State} (h : s.Reached) : s.types.OwnStanding := by
  induction h with
  | initial config => exact ⟨Nat.le_refl _, fun _ _ ↦ .inl rfl⟩
  | working _ hr ih => exact hr.evolves_start Types.ownStanding_enduring ih
  | ran _ hrun ih => exact Interpreter.run_spans Types.ownStanding_enduring hrun ih
  | host _ htypes ih => rwa [htypes]

namespace Types

variable {ts : Types} {t u : TypeId} {name : String} {cs : List Clause}

def Under (ts : Types) (t u : TypeId) : Prop :=
  Relation.ReflTransGen (ts.superclass · = some ·) t u

/-- Neither for the type and those above it nor for all types a program has defined `new`. -/
structure NewBuiltIn (ts : Types) (t : TypeId) : Prop where
  own {u : TypeId} : ts.Under t u → ∀ c ∈ (ts.classMethod? u "new").getD [], c.isNative
  instances : ∀ c ∈ (ts.method? CoreType.type.id "new").getD [], c.isNative

theorem classSide?_some (h : ts.classSide? t name = some (u, cs)) :
    ts.Under t u ∧ ts.classMethod? u name = some cs := by
  unfold classSide? at h
  generalize ts.all.size + 1 = n at h
  induction n generalizing t with
  | zero => cases h
  | succ n ih =>
    rw [classSideWithin] at h
    split at h
    · rename_i hown
      cases h
      exact ⟨.refl, hown⟩
    · split at h
      · rename_i hsuper
        obtain ⟨hunder, hown⟩ := ih h
        exact ⟨.head hsuper hunder, hown⟩
      · cases h

theorem under_iff {chain : List TypeId} (hc : ts.Supers t chain) : ts.Under t u ↔ u ∈ chain := by
  constructor
  · intro h
    induction h using Relation.ReflTransGen.head_induction_on generalizing chain with
    | refl =>
      obtain ⟨rest, rfl⟩ := hc.head
      exact List.mem_cons_self
    | head hsuper _ ih =>
      cases hc with
      | last hnone =>
        rw [hnone] at hsuper
        cases hsuper
      | above habove hc =>
        obtain rfl := Option.some.inj (habove.symm.trans hsuper)
        exact List.mem_cons_of_mem _ (ih hc)
  · intro hu
    induction hc with
    | last => exact List.mem_singleton.mp hu ▸ .refl
    | above hsuper _ ih =>
      obtain rfl | hu := List.mem_cons.mp hu
      · exact .refl
      · exact .head hsuper (ih hu)

theorem standard_new (h : (standard.classMethod? u "new").isSome) : u = CoreType.list.id := by
  have hall : ∀ i < standard.all.size, (standard.classMethod? ⟨i⟩ "new").isSome →
      i = CoreType.list.id.index := by decide +kernel
  have hlt : u.index < standard.all.size := by
    by_contra hle
    simp [classMethod?, get?, Array.getElem?_eq_none (Nat.le_of_not_lt hle)] at h
  exact congrArg TypeId.mk (hall u.index hlt h)

theorem OwnStanding.own_new (hs : ts.OwnStanding) (h : ts.NewBuiltIn t) (hu : ts.Under t u) :
    ts.classMethod? u "new" = standard.classMethod? u "new" := by
  obtain hsame | ⟨cs, hcs, c, hc, hdefined⟩ := hs.methods u "new"
  · exact hsame
  · have hnative := h.own hu c (by rwa [hcs])
    rw [hnative] at hdefined
    cases hdefined

theorem Standing.instances_new (hs : ts.Standing) (h : ts.NewBuiltIn t) :
    ts.method? CoreType.type.id "new" = standard.method? CoreType.type.id "new" := by
  obtain hsame | ⟨cs, hcs, c, hc, hdefined⟩ := hs.methods CoreType.type.id "new"
  · exact hsame
  · have hnative := h.instances c (by rwa [hcs])
    rw [hnative] at hdefined
    cases hdefined

theorem OwnStanding.classSide_new (hs : ts.OwnStanding) (h : ts.NewBuiltIn t)
    (hfound : ts.classSide? t "new" = some (u, cs)) :
    ts.Under t CoreType.list.id ∧ standard.classMethod? CoreType.list.id "new" = some cs := by
  obtain ⟨hunder, hown⟩ := classSide?_some hfound
  rw [hs.own_new h hunder] at hown
  obtain rfl := standard_new (by rw [hown]; rfl)
  exact ⟨hunder, hown⟩

theorem exists_supers_of_under {chain : List TypeId} (h : ts.Under t u) (hc : ts.Supers u chain) :
    ∃ chain', ts.Supers t chain' := by
  induction h using Relation.ReflTransGen.head_induction_on with
  | refl => exact ⟨chain, hc⟩
  | head hsuper _ ih =>
    obtain ⟨chain', hc'⟩ := ih
    exact ⟨_, .above hsuper hc'⟩

theorem OwnStanding.exists_classSide_new (hs : ts.OwnStanding) (h : ts.NewBuiltIn t)
    (hext : standard.Extends ts) (hlist : ts.Under t CoreType.list.id) :
    (ts.classSide? t "new").isSome := by
  obtain ⟨chain, -, hc, -⟩ := hext.core_supers .list
  obtain ⟨chain', hc'⟩ := exists_supers_of_under hlist hc
  have hown : (ts.classMethod? CoreType.list.id "new").isSome := by
    rw [hs.own_new h hlist]
    decide +kernel
  rw [classSide?_eq hc', List.findSome?_isSome_iff]
  exact ⟨_, (under_iff hc').mp hlist, by rwa [Option.isSome_map]⟩

theorem not_under_list (hext : standard.Extends ts) {t : CoreType} (ht : t ≠ .list) :
    ¬ ts.Under t.id CoreType.list.id := by
  obtain ⟨chain, hstandard, hc, -⟩ := hext.core_supers t
  rw [under_iff hc, ← under_iff hstandard]
  intro hunder
  have hnone : ∀ i < standard.all.size, standard.superclass ⟨i⟩ ≠ some CoreType.list.id := by
    decide +kernel
  obtain heq | ⟨w, -, hw⟩ := hunder.cases_tail
  · have hid : ∀ t : CoreType, CoreType.list.id = t.id → t = .list := by
      intro t
      cases t <;> decide
    exact ht (hid t heq)
  · exact hnone w.index (index_lt_of_superclass (by rw [hw]; rfl)) hw

end Types

/-- By all that tells the type of a value, the value is an instance of `t`. -/
structure State.IsOf (s : State) (v : Value) (t : TypeId) : Prop where
  class_ (span : Span) : (ObjectRoutine.class_.run ⟨v, [], none, span⟩).Gives s (.ok (.type t)) s
  isA (span : Span) :
    (ObjectRoutine.isA.run ⟨v, [.type t], none, span⟩).Gives s (.ok (.bool true)) s
  methods {name : String} {clauses : List Clause} : s.types.method? t name = some clauses →
    s.instanceMethod? v name = some ⟨name, t, false, clauses⟩

section

variable {s s' : State} {t : TypeId} {v : Value} {c : Call}

theorem State.isOf_of_typeOf (h : s.typeOf v = t) : s.IsOf v t where
  class_ span := by
    rw [← h]
    exact .bind (.read _ s) (.pure _ s)
  isA span := by
    have hself : s.isInstance v t = true := by
      rw [State.isInstance, h, Types.descendsFrom, List.contains_iff_mem, Types.mem_ancestors]
    rw [← hself]
    exact .bind (.read _ s) (.pure _ s)
  methods {name clauses} hown := by
    obtain ⟨rest, hrest⟩ := List.head?_eq_some_iff.mp (s.types.ancestors_head t)
    rw [instanceMethod?, h, methodAmong, hrest, Types.firstWith, hown]
    rfl

open Eval

theorem TypeRoutine.typeOf_of_instantiate (h : (instantiate t c).Gives s (.ok v) s') :
    CoreType.isPrimitive t = false ∧ s'.typeOf v = t := by
  unfold instantiate at h
  split at h
  · exact absurd (Gives.of_read h) Gives.not_fault
  · rename_i hprimitive
    obtain ⟨made, s₁, hmade, hset⟩ := Gives.of_bind h
    obtain ⟨w, s₂, hsend, hend⟩ := Gives.of_bind hset
    obtain ⟨s₃, hsent, rfl⟩ := Gives.of_holding hsend
    obtain ⟨hv, rfl⟩ := (Gives.pure made _).unique hend
    obtain ⟨hobject, rfl⟩ := (Gives.change (·.newObject t .empty) s).unique hmade
    cases hv
    cases hobject
    obtain ⟨n, hrun⟩ := Gives.of_perform hsent
    have hextends := State.extends_enduring.spans _ _ _ _ _ hrun
    have hkept := hextends.typeOf (v := .object ⟨s.objects.size⟩)
      (by simp [State.Has, State.newObject])
    refine ⟨Bool.eq_false_of_not_eq_true hprimitive, hkept.trans ?_⟩
    simp [State.typeOf, State.object, State.newObject]

theorem ListRoutine.typeOf_of_new {r : ListRoutine} (hr : r = .newEmpty ∨ r = .newFilled)
    (h : (r.run c).Gives s (.ok v) s') : s'.typeOf v = CoreType.list.id := by
  obtain rfl | rfl := hr
  · obtain ⟨hv, -⟩ := (Gives.newList [] s).unique h
    cases hv
    rfl
  · change (filled c).Gives s (.ok v) s' at h
    unfold filled at h
    dsimp only at h
    split at h
    · exact absurd h Gives.not_fault
    · split at h
      · exact absurd h Gives.not_fault
      · split at h
        · exact absurd h Gives.not_fault
        · obtain ⟨hv, -⟩ := (Gives.change (·.newList _) s).unique h
          cases hv
          rfl

end

open Eval

section

variable {s : State} {t : TypeId}

/-- The `new` of all types, as it is from the start. -/
theorem Types.standard_instances_new : ∃ n : NativeMethod,
    standard.method? CoreType.type.id "new" = some [.native n] ∧
      n.signature = ⟨.type, [], some .any, .optional⟩ ∧ n.routine = .type .new := by
  have hall : (standard.method? CoreType.type.id "new").map (·.map Clause.builtIn?) =
      some [some (⟨.type, [], some .any, .optional⟩, .type .new)] := by decide +kernel
  obtain ⟨clauses, hclauses, hbuilt⟩ := Option.map_eq_some_iff.mp hall
  obtain ⟨clause, rest, rfl, hclause, hrest⟩ := List.map_eq_cons_iff.mp hbuilt
  obtain rfl := List.map_eq_nil_iff.mp hrest
  cases clause with
  | user d => cases hclause
  | native n =>
    obtain ⟨hsignature, hroutine⟩ := Prod.mk.inj (Option.some.inj hclause)
    exact ⟨n, hclauses, hsignature, hroutine⟩

/-- `new` of `List` is built in, and there is nothing else that `List` itself answers `new` with. -/
theorem Types.standard_list_new {clauses : List Clause} {n : NativeMethod}
    (h : standard.classMethod? CoreType.list.id "new" = some clauses) :
    clauses.all Clause.isNative = true ∧ (.native n ∈ clauses →
      ∃ r, n.routine = .list r ∧ (r = .newEmpty ∨ r = .newFilled)) := by
  have hall : (standard.classMethod? CoreType.list.id "new").map (·.map Clause.builtIn?) =
      some [some (⟨.type, [], none, .ignored⟩, .list .newEmpty),
        some (⟨.type, [.int], some .any, .ignored⟩, .list .newFilled)] := by decide +kernel
  rw [h, Option.map_some, Option.some.injEq] at hall
  constructor
  · rw [List.all_eq_true]
    intro clause hclause
    have hbuilt := List.mem_map_of_mem (f := Clause.builtIn?) hclause
    rw [hall] at hbuilt
    cases clause with
    | user d => simp [Clause.builtIn?] at hbuilt
    | native n => rfl
  · intro hn
    have hbuilt := List.mem_map_of_mem (f := Clause.builtIn?) hn
    rw [hall] at hbuilt
    simp only [Clause.builtIn?, List.mem_cons, Option.some.injEq, Prod.mk.injEq,
      List.not_mem_nil, or_false] at hbuilt
    obtain ⟨-, hr⟩ | ⟨-, hr⟩ := hbuilt
    · exact ⟨.newEmpty, hr, .inl rfl⟩
    · exact ⟨.newFilled, hr, .inr rfl⟩

namespace State

theorem answer_new (hs : s.Reached) (ht : s.types.sort t = .type)
    (h : s.types.NewBuiltIn t) (hlist : ¬ s.types.Under t CoreType.list.id) (bare : Bool) :
    ∃ m n, s.answer (.type t) "new" bare = .method m ∧ m.clauses = [.native n] ∧
      n.signature = ⟨.type, [], some .any, .optional⟩ ∧ n.routine = .type .new := by
  have hown : s.ownMethod? (.type t) "new" = none := by
    change s.classMethod? t "new" = none
    rw [classMethod?, Option.map_eq_none_iff, Option.eq_none_iff_forall_ne_some]
    rintro ⟨u, cs⟩ hfound
    exact hlist (hs.ownStanding.classSide_new h hfound).1
  obtain ⟨n, hnew, hsignature, hroutine⟩ := Types.standard_instances_new
  obtain ⟨rest, hrest⟩ := List.head?_eq_some_iff.mp (s.types.ancestors_head CoreType.type.id)
  have hsole : s.types.soleNative? "new" (s.typeOf (.type t)) = some n := by
    have htype : s.typeOf (.type t) = CoreType.type.id := by simp only [typeOf, ht]
    rw [Types.soleNative?, htype, hrest, Types.firstWith, hs.standing.1.instances_new h, hnew]
  obtain ⟨m, hanswer, hclauses⟩ := answer_of_sole hown rfl hsole
  exact ⟨m, n, hanswer, hclauses, hsignature, hroutine⟩

theorem answer_new_list (hs : s.Reached) (h : s.types.NewBuiltIn t)
    (hlist : s.types.Under t CoreType.list.id) (bare : Bool) :
    ∃ m, s.answer (.type t) "new" bare = .method m ∧
      Types.standard.classMethod? CoreType.list.id "new" = some m.clauses := by
  obtain ⟨⟨u, clauses⟩, hfound⟩ := Option.isSome_iff_exists.mp
    (hs.ownStanding.exists_classSide_new h hs.standing.2 hlist)
  have hown : s.ownMethod? (.type t) "new" = some ⟨"new", u, true, clauses⟩ := by
    change s.classMethod? t "new" = _
    rw [classMethod?, hfound]
    rfl
  refine ⟨⟨"new", u, true, clauses⟩, ?_, (hs.ownStanding.classSide_new h hfound).2⟩
  rw [answer, hown]

end State

theorem Eval.Gives.of_send {s' : State} {name : String} {c : Call} {m : Method} {o : Outcome Value}
    (hanswer : s.answer c.receiver name (c.args.isEmpty && c.block.isNone) = .method m)
    (h : (Task.send name c).Gives s o s') : (invoke m c).Gives s o s' := by
  have hdelivered := (Task.gives_iff (t := .send name c) rfl).mp h
  have hmet := Gives.of_read hdelivered
  rwa [hanswer] at hmet

theorem Signature.mismatch_new (sortOf : TypeId → TypeSort) (ht : sortOf t = .type)
    (args : List Value) (hasBlock : Bool) :
    mismatch sortOf ⟨.type, [], some .any, .optional⟩ (.type t) args hasBlock = none := by
  have hargs (position : Nat) : badArgument sortOf (some .any) position [] args = none := by
    induction args generalizing position with
    | nil => rfl
    | cons v args ih => exact ih (position + 1)
  simp [mismatch, Expect.accepts, ht, countFits, hargs]

theorem TypeRoutine.instantiate_primitive {P : State → Outcome Value → Prop} {c : Call}
    (h : CoreType.isPrimitive t = true)
    (hP : ∀ s' o, s'.Raises (.notInstantiable (s.types.name t)) c.span o → P s' o) :
    (instantiate t c).Yields s P := by
  rw [instantiate, if_pos h]
  exact .reading ((Yields.fault _ _ s).mono hP)

end

/-- Where no `new` is defined, what `new` of a type gives is an instance of the type, if that is not
below `List`, and a list otherwise. Types of values that are no instances make none. -/
theorem new_makes_instances {s : State} (hs : s.Reached) {t : TypeId}
    (ht : s.types.sort t = .type) (h : s.types.NewBuiltIn t) (args : List Value)
    (block : Option Value) (span : Span) :
    (∀ v s', (Task.send "new" ⟨.type t, args, block, span⟩).Gives s (.ok v) s' →
      (¬ s.types.Under t CoreType.list.id → s'.IsOf v t) ∧
      (s.types.Under t CoreType.list.id → s'.IsOf v CoreType.list.id)) ∧
    (CoreType.isPrimitive t = true → t ≠ CoreType.list.id →
      (s.frames.size < s.config.maxCallDepth →
        (Task.send "new" ⟨.type t, args, block, span⟩).Yields s fun s' o ↦
          s'.Raises (.notInstantiable (s.types.name t)) span o) ∧
      (s.config.maxCallDepth ≤ s.frames.size →
        (Task.send "new" ⟨.type t, args, block, span⟩).Gives s
          (.error (.halt (.depth s.config.maxCallDepth))) s)) := by
  -- The type finds the `new` of all types, which makes an instance of the very type it is sent to.
  have hmakes (hlist : ¬ s.types.Under t CoreType.list.id) (v : Value) (s' : State)
      (hgives : (Task.send "new" ⟨.type t, args, block, span⟩).Gives s (.ok v) s') :
      s'.IsOf v t := by
    obtain ⟨m, n, hanswer, hclauses, -, hroutine⟩ := State.answer_new hs ht h hlist
      (args.isEmpty && block.isNone)
    have hinvoke := Gives.of_send (c := ⟨.type t, args, block, span⟩) hanswer hgives
    rw [invoke, hclauses] at hinvoke
    obtain ⟨n', hn', held, frames, s₁, hrun, rfl⟩ := Gives.of_runClauses (by rw [hclauses]; rfl)
      (List.forall_mem_singleton.mpr rfl) hinvoke
    cases List.mem_singleton.mp hn'
    rw [hroutine] at hrun
    exact State.isOf_of_typeOf (TypeRoutine.typeOf_of_instantiate hrun).2
  -- The type finds the `new` of `List`, which knows nothing of the types below.
  have hlists (hlist : s.types.Under t CoreType.list.id) (v : Value) (s' : State)
      (hgives : (Task.send "new" ⟨.type t, args, block, span⟩).Gives s (.ok v) s') :
      s'.IsOf v CoreType.list.id := by
    obtain ⟨m, hanswer, hclauses⟩ := State.answer_new_list hs h hlist
      (args.isEmpty && block.isNone)
    obtain ⟨hnative, -⟩ := Types.standard_list_new (n := default) hclauses
    have hinvoke := Gives.of_send (c := ⟨.type t, args, block, span⟩) hanswer hgives
    obtain ⟨n, hn, held, frames, s₁, hrun, rfl⟩ := Gives.of_runClauses hnative
      (List.all_eq_true.mp hnative) hinvoke
    obtain ⟨r, hr, hnew⟩ := (Types.standard_list_new hclauses).2 hn
    rw [hr] at hrun
    have hlist := ListRoutine.typeOf_of_new hnew hrun
    exact State.isOf_of_typeOf hlist
  refine ⟨fun v s' hgives ↦ ⟨fun hlist ↦ hmakes hlist v s' hgives,
    fun hlist ↦ hlists hlist v s' hgives⟩, fun hprimitive hne ↦ ?_⟩
  obtain ⟨core, -, hcore⟩ := List.any_eq_true.mp hprimitive
  obtain rfl : core.id = t := beq_iff_eq.mp hcore
  obtain ⟨m, n, hanswer, hclauses, hsignature, hroutine⟩ := State.answer_new hs ht h
    (Types.not_under_list hs.standing.2 fun heq ↦ hne (by rw [heq]))
    (args.isEmpty && block.isNone)
  have hfits := Signature.mismatch_new s.types.sort ht args block.isSome
  rw [← hsignature] at hfits
  refine ⟨fun hroom ↦ ?_, fun hdeep ↦ ?_⟩
  · refine .send (c := ⟨.type core.id, args, block, span⟩) (State.raises_lasting _ _) hanswer
      hclauses hfits hroom fun held frame ↦ ?_
    rw [hroutine]
    exact TypeRoutine.instantiate_primitive hprimitive fun _ _ hraises ↦ hraises
  · exact .send_deep (c := ⟨.type core.id, args, block, span⟩) hanswer hclauses hfits hdeep

/-- A type with nothing in it, below a core type. -/
def derived (core : CoreType) : String :=
  "\n".intercalate ["type Derived < " ++ core.name, "end"]

def derivedId : TypeId := ⟨CoreType.all.length⟩

theorem derived_new (core : CoreType) (hcore : core = .string ∨ core = .list) :
    ∃ s : State, s.Reached ∧ s.types.sort derivedId = .type ∧ s.types.NewBuiltIn derivedId ∧
      (s.types.Under derivedId CoreType.list.id ↔ core = .list) ∧
      ∃ v s', (Task.send "new" ⟨.type derivedId, [], none, .origin⟩).Gives s (.ok v) s' ∧
        s'.typeOf v = if core = .list then CoreType.list.id else derivedId := by
  let chain : List TypeId := [derivedId, core.id, CoreType.object.id]
  obtain ⟨-, i, -, -, harises, hi⟩ := Interpreter.arises_of_check (derived core)
    (fun _ i ↦ decide (i.state.types.sort derivedId = .type ∧
      (i.state.types.superclass derivedId = some core.id ∧
        i.state.types.superclass core.id = some CoreType.object.id ∧
        i.state.types.superclass CoreType.object.id = none) ∧
      (∀ u ∈ chain, ∀ c ∈ (i.state.types.classMethod? u "new").getD [], c.isNative = true) ∧
      (∀ c ∈ (i.state.types.method? CoreType.type.id "new").getD [], c.isNative = true) ∧
      ((Machine.start (.send "new" ⟨.type derivedId, [], none, .origin⟩) i.state).run 20).map
          (fun r ↦ r.1.toOption.map r.2.typeOf) =
        some (some (if core = .list then CoreType.list.id else derivedId))))
    (by obtain rfl | rfl := hcore <;> decide +kernel)
  obtain ⟨hsort, ⟨hderived, hsuper, hobject⟩, hown, hinstances, hrun⟩ := of_decide_eq_true hi
  have hc : i.state.types.Supers derivedId chain := .above hderived (.above hsuper (.last hobject))
  obtain ⟨⟨o, s'⟩, hrun, ho⟩ := Option.map_eq_some_iff.mp hrun
  obtain ⟨v, hv, htype⟩ := Option.map_eq_some_iff.mp ho
  cases o with
  | error u => cases hv
  | ok w =>
    cases hv
    refine ⟨i.state, harises.reached, hsort, ⟨fun hu ↦ hown _ ((Types.under_iff hc).mp hu),
      hinstances⟩, (Types.under_iff hc).trans ?_, v, s', ⟨20, hrun⟩, htype⟩
    obtain rfl | rfl := hcore <;> decide

/-- Below `String` there are instances. -/
theorem derived_of_string : ∃ s : State, s.Reached ∧ s.types.sort derivedId = .type ∧
    s.types.NewBuiltIn derivedId ∧
    ∃ v s', (Task.send "new" ⟨.type derivedId, [], none, .origin⟩).Gives s (.ok v) s' ∧
      s'.IsOf v derivedId := by
  obtain ⟨s, hs, hsort, hnew, hunder, v, s', hgives, -⟩ := derived_new .string (.inl rfl)
  have hmakes := (new_makes_instances hs hsort hnew [] none .origin).1 v s' hgives
  exact ⟨s, hs, hsort, hnew, v, s', hgives, hmakes.1 fun h ↦ absurd (hunder.mp h) (by decide)⟩

/-- Below `List` there are none. -/
theorem derived_of_list_makes_list : ¬ ∀ (s s' : State) (t : TypeId) (args : List Value)
    (block : Option Value) (span : Span) (v : Value),
    s.Reached → s.types.sort t = .type → s.types.NewBuiltIn t →
      (Task.send "new" ⟨.type t, args, block, span⟩).Gives s (.ok v) s' → s'.typeOf v = t := by
  intro h
  obtain ⟨s, hs, hsort, hnew, -, v, s', hgives, htype⟩ := derived_new .list (.inr rfl)
  rw [h s s' derivedId [] none .origin v hs hsort hnew hgives] at htype
  exact absurd htype (by decide)

end Quill
