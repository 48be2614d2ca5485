import Quill.Proofs.Clauses
import Quill.Proofs.ScopeForest
import Quill.Proofs.Seclusion

/-!
# Which body a message comes to

A message finds one method and keeps to the clauses of that. The scope for the parameters of a
clause is out of reach for all code that runs while they are matched, if code runs only in scopes
that have been made, as it does in all states that programs come to (`states_housed`). Main
statement: `dispatch_commits`.
-/

namespace Quill

open Eval Step

namespace Params

def names (p : Params) : List String :=
  Pattern.names.all p.items ++ (p.block.map (·.name)).toList

def bound (p : Params) (found : Matched) (block : Option Value) : Bindings Value :=
  let named := found.foldr (fun b bs ↦ bs.set b.1 b.2) .empty
  match p.block with
  | some name => named.set name.name (block.getD .nil)
  | .none => named

theorem mem_names_foldr_set (found : Matched) (name : String) :
    name ∈ (found.foldr (fun b bs ↦ bs.set b.1 b.2) Bindings.empty).names ↔
      name ∈ found.map (·.1) := by
  induction found with
  | nil => simp [Bindings.empty, Bindings.names]
  | cons b found ih =>
    rw [List.foldr_cons, Bindings.names_set, mem_addNew, ih]
    simp [or_comm]

theorem mem_names_bound {p : Params} {found : Matched}
    (h : found.map (·.1) = (Pattern.names.all p.items).reverse) (block : Option Value)
    (name : String) : name ∈ (p.bound found block).names ↔ name ∈ p.names := by
  have hitems := mem_names_foldr_set found name
  rw [h, List.mem_reverse] at hitems
  unfold bound names
  cases p.block with
  | none => simpa using hitems
  | some b =>
    dsimp only
    rw [Bindings.names_set, mem_addNew, hitems]
    simp

end Params

namespace State

variable {s : State} {id : ScopeId} {bs : Bindings Value} {outer : Option ScopeId}

theorem getElem?_define (h : s.scopes.all[id.index]? = some ⟨bs, outer⟩) (name : String)
    (v : Value) :
    (s.define id name v).scopes.all[id.index]? = some ⟨bs.set name v, outer⟩ := by
  simp [State.define, Scopes.define, Array.getElem?_modify, h]

theorem getElem?_defined (h : s.scopes.all[id.index]? = some ⟨bs, outer⟩) (found : Matched) :
    (defined id found s).scopes.all[id.index]? =
      some ⟨found.foldr (fun b bs ↦ bs.set b.1 b.2) bs, outer⟩ := by
  induction found with
  | nil => exact h
  | cons b found ih => exact getElem?_define ih b.1 b.2

theorem getElem?_definedBlock (h : s.scopes.all[id.index]? = some ⟨.empty, outer⟩) (p : Params)
    (found : Matched) (block : Option Value) :
    (definedBlock p block id (defined id found s)).scopes.all[id.index]? =
      some ⟨p.bound found block, outer⟩ := by
  have hfound := getElem?_defined h found
  unfold definedBlock Params.bound
  cases p.block with
  | none => exact hfound
  | some name => exact getElem?_define hfound _ _

theorem Housed.hides_fresh (hs : s.Housed) (held : List Held) :
    ({ (s.newScope Scopes.root).2 with held } : State).Hides (· = s.scopes.fresh) := by
  have hsize : (s.newScope Scopes.root).2.scopes.all.size = s.scopes.all.size + 1 :=
    Array.size_push _
  have older {other : ScopeId} (h : other.Open (fun _ ↦ False) s.scopes.all.size) :
      other.Open (· = s.scopes.fresh) (s.newScope Scopes.root).2.scopes.all.size := by
    have hlt := h.1
    refine ⟨by omega, ?_⟩
    rintro rfl
    exact Nat.lt_irrefl _ hlt
  refine ⟨older hs.root, ?_, fun i l hl ↦ older (hs.homes i l hl), ?_⟩
  · rintro _ rfl
    rw [hsize]
    exact Nat.lt_succ_self _
  · intro i scope outer hi ho
    simp only [newScope, Scopes.child, Array.getElem?_push] at hi
    split at hi
    · cases hi
      cases ho
      exact older hs.root
    · exact older (hs.parents i scope outer hi ho)

theorem Housed.empty_of_match (hs : s.Housed) {ctx : Context} {ps : List Pattern}
    {vs : List Value} {held : List Held} {es : List Episode} {o : Outcome (Option Matched)}
    {s' : State}
    (h : (matchSequence ctx ps vs { (s.newScope Scopes.root).2 with held }).Course es o s') :
    s'.scopes.all[s.scopes.fresh.index]? = some ⟨.empty, some Scopes.root⟩ := by
  have matching : Eval.Observes (.hiding (· = s.scopes.fresh))
      { (s.newScope Scopes.root).2 with held } (fun _ ↦ True) (matchSequence ctx ps vs) :=
    .matchSequence ps vs
  have spares := (matching _ (.refl (hs.hides_fresh held))).course h
  rw [State.Spares.same spares _ rfl]
  simp [newScope, Scopes.child, Scopes.fresh]

end State

namespace Clause

variable {m : Method} {c : Call} {d : MethodDef} {clause : Clause} {clauses : List Clause}
  {s s₁ s' : State} {es : List Episode} {ctx : Context}

/-- The guard lets the clause run, if there is one. -/
def Admitted (guard : Option Expr) (ctx : Context) (s : State) (es : List Episode) (s' : State) :
    Prop :=
  match guard with
  | some e => ∃ v, es = [⟨.guard e ctx, s, .ok v, s'⟩] ∧ v.isTruthy = true
  | none => es = [] ∧ s' = s

theorem admits_course {guard : Option Expr} (h : (admits guard ctx s).Course es (.ok true) s') :
    Admitted guard ctx s es s' := by
  cases guard with
  | none =>
    obtain ⟨rfl, -, rfl⟩ := Course.of_done h
    exact ⟨rfl, rfl⟩
  | some e =>
    change Course (.wait (.guard e ctx) s _) es _ s' at h
    cases h with
    | @wait _ _ _ _ _ _ o _ _ hrun hrest =>
      cases o with
      | error u =>
        obtain ⟨-, ho, -⟩ := Course.of_done hrest
        cases ho
      | ok v =>
        obtain ⟨rfl, ho, rfl⟩ := Course.of_done hrest
        exact ⟨v, rfl, (Except.ok.inj ho).symm⟩

/-- The body is to run in a new scope, which holds the parameters and nothing else when the guard is
asked, or if there is none, when the body runs. -/
structure BoundAlone (d : MethodDef) (m : Method) (c : Call) (s : State) (es : List Episode)
    (ctx : Context) (s' : State) : Prop where
  place : ctx = ⟨s.scopes.fresh, c.receiver, m.owner, some (m.frame c.args c.block)⟩
  takes : d.params.takes c.args.length = true
  bound : ∃ held found es₁ es₂ s₁ s₂ s₃, es = es₁ ++ es₂ ∧
    (matchSequence ctx d.params.items c.args { (s.newScope Scopes.root).2 with held }).Course es₁
      (.ok (some found)) s₁ ∧
    s₂ = State.definedBlock d.params c.block ctx.scope (State.defined ctx.scope found s₁) ∧
    s₂.scopes.all[ctx.scope.index]? = some ⟨d.params.bound found c.block, some Scopes.root⟩ ∧
    (∀ name, name ∈ (d.params.bound found c.block).names ↔ name ∈ d.params.names) ∧
    Admitted d.guard ctx s₂ es₂ s₃ ∧ s' = { s₃ with held := s.held }

theorem Tested.boundAlone (hs : s.Housed)
    (h : Tested m c (.user d) s es (.ok (some ctx)) s') : BoundAlone d m c s es ctx s' := by
  have ht := h.tried
  unfold ClauseTried at ht
  dsimp only at ht
  split at ht
  · rename_i htakes
    obtain ⟨s₁, ht, rfl⟩ := ht
    generalize hr : (.ok (some ctx) : Outcome (Option Context)) = r at ht
    cases ht with
    | unwound => cases hr
    | missed => cases hr
    | @asked es₁ es₂ s₂ _ o hits hguard _ =>
      rcases o with u | _ | _ <;> cases hr
      obtain ⟨found, s₀, hmatch, -, hnames, rfl⟩ := hits
      exact ⟨rfl, htakes, _, found, es₁, es₂, s₀, _, s₁, rfl, hmatch, rfl,
        State.getElem?_definedBlock (hs.empty_of_match hmatch) d.params found c.block,
        Params.mem_names_bound hnames c.block, admits_course hguard, rfl⟩
  · obtain ⟨-, ho, -⟩ := ht
    cases ho

theorem test_observes {R : Regime} {s : State} (hroot : R.Near s Scopes.root) {m : Method}
    (hm : R.Around s m.owner) (c : Call) {clause : Clause}
    (hc : ∀ d, clause = .user d → R.Allows (.method d)) :
    Eval.Observes R s (fun _ ↦ True) (clause.test m c) := by
  cases clause with
  | native nm => exact .read _
  | user d =>
    change Eval.Observes R s _ (bindClause d m c)
    rw [← Eval.bind_pure (bindClause d m c)]
    exact .bindClause (hc d rfl) hm hroot fun _ _ _ _ ↦ .pure trivial

theorem Tested.housed {o : Outcome (Option Context)} (hs : s.Housed)
    (h : Tested m c clause s es o s') :
    s'.Housed ∧ s.scopes.all.size ≤ s'.scopes.all.size := by
  have test : Eval.Observes (.hiding fun _ ↦ False) s (fun _ ↦ True) (clause.test m c) :=
    test_observes hs.root trivial c fun _ _ ↦ trivial
  have spares := (test s (.refl hs.toHides)).course h
  exact ⟨hs.of_spares spares, State.Spares.size spares⟩

end Clause

/-- Nothing is different but that there may be new scopes, lists, lambdas and objects, and types may
have forgotten what they were defined in. The first `n` scopes are as they were. -/
structure State.Leaves (n : Nat) (s s' : State) : Prop extends s.Adds s' where
  scopes : s'.scopes.older n = s.scopes.older n

namespace State.Leaves

variable {n : Nat} {s s' s'' : State}

theorem of_looks (h : s.Looks s') : s.Leaves n s' :=
  ⟨h.adds, by rw [h.scopes]⟩

instance : State.Raising (State.Leaves n) where
  refl s := of_looks (.refl s)
  trans h h' := ⟨h.toAdds.trans h'.toAdds, h'.scopes.trans h.scopes⟩
  held s held := of_looks (State.Lax.held s held)
  newObject s t attrs := of_looks (State.Raising.newObject s t attrs)

end State.Leaves

namespace Clause

variable {m : Method} {c : Call} {clause : Clause} {clauses : List Clause} {s s₁ s' : State}
  {es : List Episode} {n : Nat}

theorem Tested.leaves {o : Outcome (Option Context)} (hn : n ≤ s.scopes.all.size)
    (h : Tested m c clause s es o s') (he : ∀ e ∈ es, e.before.Leaves n e.after) :
    s.Leaves n s' := by
  have adds := (test_asks (R := State.Adds) m c clause s).along h
  have older : Untouched (Scopes.older n) s es s' :=
    -- What was made before the test includes the first `n` scopes.
    h.tried.untouched.part fun scopes (i : Fin n) ↦ scopes ⟨i, by omega⟩
  exact ⟨adds.1.through fun e hmem ↦ (he e hmem).toAdds, older.same fun e hmem ↦ (he e hmem).scopes⟩

theorem leaves_of_passed (hs : s.Housed) (hn : n ≤ s.scopes.all.size)
    (h : Passed (Tested m c) clauses s es s₁) (he : ∀ e ∈ es, e.before.Leaves n e.after) :
    s.Leaves n s₁ := by
  induction h with
  | nil => exact State.Lax.refl _
  | cons ha _ ih =>
    obtain ⟨hfirst, hrest⟩ := List.forall_mem_append.mp he
    obtain ⟨hs₁, hsize⟩ := ha.housed hs
    exact State.Lax.trans (ha.leaves hn hfirst) (ih hs₁ (Nat.le_trans hn hsize) hrest)

theorem housed_of_passed (hs : s.Housed) (h : Passed (Tested m c) clauses s es s₁) : s₁.Housed := by
  induction h with
  | nil => exact hs
  | cons ha _ ih => exact ih (ha.housed hs).1

variable {passed passed' rest rest' : List Clause} {clause' : Clause}
  {es₁ es₂ es₁' es₂' : List Episode} {s₂ s₁' s₂' : State} {o o' : Outcome (Option Context)}

theorem decided_unique (hp : Passed (Tested m c) passed s es₁ s₁)
    (ht : Tested m c clause s₁ es₂ o s₂) (ho : o ≠ .ok none)
    (hp' : Passed (Tested m c) passed' s es₁' s₁')
    (ht' : Tested m c clause' s₁' es₂' o' s₂') (ho' : o' ≠ .ok none)
    (h : passed ++ clause :: rest = passed' ++ clause' :: rest') :
    clause = clause' ∧ o = o' ∧ s₂ = s₂' := by
  -- A test has one outcome, so the same clauses are passed over in the same states.
  induction hp generalizing passed' es₁' with
  | nil =>
    cases hp' with
    | nil =>
      obtain ⟨rfl, -⟩ := List.cons_eq_cons.mp h
      obtain ⟨-, ho, hs⟩ := Course.unique ht' ht
      exact ⟨rfl, ho, hs⟩
    | cons ha' _ =>
      obtain ⟨rfl, -⟩ := List.cons_eq_cons.mp h
      exact absurd (Course.unique ha' ht).2.1 ho
  | cons ha _ ih =>
    cases hp' with
    | nil =>
      obtain ⟨rfl, -⟩ := List.cons_eq_cons.mp h
      exact absurd (Course.unique ha ht').2.1 ho'
    | cons ha' hrest' =>
      obtain ⟨rfl, hrest⟩ := List.cons_eq_cons.mp h
      obtain ⟨-, -, rfl⟩ := Course.unique ha ha'
      exact ih ht hrest' hrest

end Clause

open Clause

variable {m : Method} {c : Call} {s s₁ s₂ : State} {es es₁ es₂ : List Episode} {clause : Clause}
  {passed rest : List Clause} {ctx : Context}

/-- The call comes to the body of the clause, and to no other. -/
structure Enters (m : Method) (c : Call) (s : State) (es : List Episode) (clause : Clause)
    (ctx : Context) (s' : State) : Prop where
  comes : ∃ held resume,
    (invoke m c s).Comes es (.wait (clause.body m c ctx s') { s' with held } resume)
  only : ∀ es' y, (invoke m c s).Comes es' y →
    (asked es' y).filter (·.isFramed) = [] ∨
    (asked es' y).filter (·.isFramed) = [clause.body m c ctx s']

theorem enters_of_taken (hm : m.clauses = passed ++ clause :: rest)
    (hp : Passed (Tested m c) passed s es₁ s₁)
    (ht : Tested m c clause s₁ es₂ (.ok (some ctx)) s₂) :
    Enters m c s (es₁ ++ es₂) clause ctx s₂ where
  comes := by
    obtain ⟨held, resume, hcomes, -⟩ := comes_of_taken hp ht rest none
    refine ⟨held, resume, ?_⟩
    rwa [invoke, hm]
  only es' y h := by
    obtain hnone | ⟨passed', clause', rest', _, _, _, s₂', ctx', hm', hp', ht', hbody⟩ :=
      body_of_comes h
    · exact .inl hnone
    · obtain ⟨rfl, ho, rfl⟩ := decided_unique hp ht (by simp) hp' ht' (by simp) (hm.symm.trans hm')
      cases ho
      exact .inr hbody

theorem no_body_of_unwound {u : Unwind} {es' : List Episode} {y : Step Value}
    (hm : m.clauses = passed ++ clause :: rest) (hp : Passed (Tested m c) passed s es₁ s₁)
    (ht : Tested m c clause s₁ es₂ (.error u) s₂) (h : (invoke m c s).Comes es' y) :
    (asked es' y).filter (·.isFramed) = [] := by
  obtain hnone | ⟨passed', clause', rest', _, _, _, s₂', ctx', hm', hp', ht', -⟩ :=
    body_of_comes h
  · exact hnone
  · obtain ⟨-, ho, -⟩ := decided_unique hp ht (by simp) hp' ht' (by simp) (hm.symm.trans hm')
    cases ho

/-- The call comes to no body and ends in an error. If the clauses are not all built in, that
shows the arguments. -/
structure Refuses (m : Method) (c : Call) (s : State) (es : List Episode) (s₁ : State) :
    Prop where
  none_entered : ∀ es' y, (invoke m c s).Comes es' y → (asked es' y).filter (·.isFramed) = []
  built_in : m.clauses.all Clause.isNative = true →
    (invoke m c s).IsFault (s.misfit m c) c.span s ∧ (s.misfit m c).type = .argumentTypeError
  comes : ∃ mismatch, (invoke m c s).Comes es (raiseNoClause m c mismatch s₁)
  shows : m.clauses.all Clause.isNative = false → ∀ es' o s', (invoke m c s).Course es' o s' →
    es'.map (·.task) = es.map (·.task) ++ c.args.map .describe ∧
    ∃ shown s₂, shown.length = c.args.length ∧ (Step.done o s').IsMissing
      (.noClause (s₁.methodLabel m) shown) c.receiver m.name c.span s₂
  leaves : ∀ es' o s', (invoke m c s).Course es' o s' →
    (∀ e ∈ es', e.before.Leaves s.scopes.all.size e.after) → s.Leaves s.scopes.all.size s'

theorem refuses_of_passed (hs : s.Housed) (hp : Passed (Tested m c) m.clauses s es s₁) :
    Refuses m c s es s₁ := by
  obtain ⟨mismatch, hcomes⟩ := passed_comes hp [] none
  rw [List.append_nil] at hcomes
  have hcomes : (invoke m c s).Comes es (raiseNoClause m c mismatch s₁) := hcomes
  refine ⟨fun es' y h ↦ no_body_of_passed hp h,
    fun hn ↦ ⟨invoke_isFault hn hp, s.misfit_type m c⟩, ⟨mismatch, hcomes⟩, ?_, ?_⟩
  · intro hn es' o s' h
    obtain ⟨es'', rfl, hraise⟩ := hcomes.course h
    obtain ⟨htasks, shown, s₂, hlen, hmissing⟩ := raiseNoClause_course hn hraise
    exact ⟨by rw [List.map_append, htasks], shown, s₂, hlen, hmissing⟩
  · intro es' o s' h he
    obtain ⟨es'', rfl, hraise⟩ := hcomes.course h
    obtain ⟨htests, hshown⟩ := List.forall_mem_append.mp he
    have asks : Asks (fun _ ↦ True) (State.Leaves s.scopes.all.size)
        (raiseNoClause m c mismatch) := .raiseNoClause m mismatch fun _ _ ↦ trivial
    have along := ((asks s₁).along hraise).1
    exact State.Lax.trans (leaves_of_passed hs (Nat.le_refl _) hp htests)
      (along.through hshown)

/-- A call keeps to the clauses of one method. -/
structure Commits (m : Method) (c : Call) (s : State) : Prop where
  taken : ∀ passed clause rest es₁ es₂ s₁ s₂ ctx, m.clauses = passed ++ clause :: rest →
    Passed (Tested m c) passed s es₁ s₁ → Tested m c clause s₁ es₂ (.ok (some ctx)) s₂ →
    Enters m c s (es₁ ++ es₂) clause ctx s₂ ∧
    ∀ d, clause = .user d → BoundAlone d m c s₁ es₂ ctx s₂
  unwound : ∀ passed clause rest es₁ es₂ s₁ s₂ u, m.clauses = passed ++ clause :: rest →
    Passed (Tested m c) passed s es₁ s₁ → Tested m c clause s₁ es₂ (.error u) s₂ →
    (invoke m c s).Comes (es₁ ++ es₂) (.done (.error u) s₂) ∧
    ∀ es y, (invoke m c s).Comes es y → (asked es y).filter (·.isFramed) = []
  refused : ∀ es s₁, Passed (Tested m c) m.clauses s es s₁ → Refuses m c s es s₁

theorem commits (hs : s.Housed) (m : Method) (c : Call) : Commits m c s where
  taken passed clause rest es₁ es₂ s₁ s₂ ctx hm hp ht := by
    refine ⟨enters_of_taken hm hp ht, ?_⟩
    rintro d rfl
    exact ht.boundAlone (housed_of_passed hs hp)
  unwound passed clause rest es₁ es₂ s₁ s₂ u hm hp ht := by
    refine ⟨?_, fun es y h ↦ no_body_of_unwound hm hp ht h⟩
    rw [invoke, hm]
    exact comes_of_unwound hp ht rest none
  refused es s₁ hp := refuses_of_passed hs hp

/-- What comes of a message that finds something. -/
def State.Delivers (s : State) (name : String) (c : Call) : Answer → Prop
  | .method m => m.name = name ∧ deliver name c s = invoke m c s ∧ Commits m c s
  | .constant v => deliver name c s = .done (.ok v) s
  | .nothing => (deliver name c s).IsMissing (.undefinedMethod name (s.describe c.receiver))
      c.receiver name c.span s

theorem State.Finds.delivers {name : String} {a : Answer} (hs : s.Housed)
    (h : s.Finds c.receiver name (c.args.isEmpty && c.block.isNone) a) : s.Delivers name c a := by
  have hdeliver := State.deliver_eq name c s
  rw [h.answer_eq] at hdeliver
  cases h with
  | own _ _ hms =>
    obtain ⟨-, -, -, -, hname, -⟩ := definers_cons hms
    exact ⟨hname, hdeliver, commits hs _ c⟩
  | inherited _ hms =>
    obtain ⟨-, -, -, -, hname, -⟩ := definers_cons hms
    exact ⟨hname, hdeliver, commits hs _ c⟩
  | constant => exact hdeliver
  | nothing =>
    unfold State.Delivers
    rw [hdeliver]
    exact missing_isMissing rfl

/-- A message finds one answer: the first method of a type itself along its supertypes, or its own
constant, or else the first method of the receiver's ancestors, or nothing. Of the method only the
clauses are tried, in turn. The first that takes the call has its body done, where the parameters
were bound, and no other body is. If none takes it, the call ends in an error and leaves the state
as it was, unless what it waited for does not. -/
theorem dispatch_commits (hs : s.Housed) (name : String) (c : Call) :
    (∀ a, s.Finds c.receiver name (c.args.isEmpty && c.block.isNone) a → s.Delivers name c a) ∧
    (s.types.Rooted → ∃! a, s.Finds c.receiver name (c.args.isEmpty && c.block.isNone) a) := by
  refine ⟨fun a h ↦ h.delivers hs, fun hr ↦ ?_⟩
  obtain ⟨a, ha⟩ := State.exists_finds hr c.receiver name (c.args.isEmpty && c.block.isNone)
  exact ⟨a, ha, fun b hb ↦ hb.answer_eq.symm.trans ha.answer_eq⟩

/-- `def f(x) if y = x`, which has the value `y`. -/
def assigningGuard : MethodDef :=
  ⟨⟨"f", .origin⟩, false, ⟨[bindX], none⟩,
    some ⟨.assign (.local_ ⟨"y", .origin⟩) ⟨.name "x", .origin⟩, .origin⟩,
    ⟨[⟨.name "y", .origin⟩], [], none, none, .origin⟩, none, .origin⟩

/-- Where all objects have this method. -/
def assigning : State :=
  { State.initial .standard with
    types := (State.initial .standard).types.addMethod CoreType.object.id "f"
      (.user assigningGuard) }

def assigningMethod : Method := ⟨"f", CoreType.object.id, false, [.user assigningGuard]⟩

def callWithThree : Call := ⟨State.topContext.self, [.int 3], none, .origin⟩

theorem assigning_housed : assigning.Housed := by
  have initial := State.housed_initial .standard
  exact initial.of_spares (.of_same initial.toHides rfl rfl)

theorem assigningGuard_tested : ∃ e s',
    Tested assigningMethod callWithThree (.user assigningGuard) assigning [e] (.ok (some
      ⟨assigning.scopes.fresh, State.topContext.self, CoreType.object.id,
        some (assigningMethod.frame [.int 3] none)⟩)) s' ∧
    s'.scopes.names assigning.scopes.fresh = ["x", "y"] :=
  ⟨_, _, .wait (n := 5) rfl .done, rfl⟩

theorem assigning_finds :
    assigning.Finds callWithThree.receiver "f" false (.method assigningMethod) := by
  have hms : assigning.instanceSide callWithThree.receiver "f" = [assigningMethod] := by cbv
  exact .inherited (fun _ h ↦ by cases h) hms

theorem assigning_rooted : assigning.types.Rooted := by
  refine Types.rooted_of_lt ?_
  decide +kernel

theorem dispatch_commits_assigning :
    assigning.Housed ∧ assigning.types.Rooted ∧
    (∃! a, assigning.Finds callWithThree.receiver "f" false a) ∧
    ∃ e ctx s', Enters assigningMethod callWithThree assigning [e] (.user assigningGuard) ctx s' ∧
      BoundAlone assigningGuard assigningMethod callWithThree assigning [e] ctx s' := by
  obtain ⟨hdelivers, hunique⟩ := dispatch_commits assigning_housed "f" callWithThree
  obtain ⟨-, -, hcommits⟩ := hdelivers _ assigning_finds
  obtain ⟨e, s', ht, -⟩ := assigningGuard_tested
  obtain ⟨henters, halone⟩ := hcommits.taken [] _ [] [] [e] _ s' _ rfl .nil ht
  exact ⟨assigning_housed, assigning_rooted, hunique assigning_rooted, e, _, s', henters,
    halone _ rfl⟩

/-- The body runs where `y` is a variable, although that is no parameter. -/
theorem guard_variable_in_body : ∃ e ctx s',
    assigning.Finds callWithThree.receiver "f" false (.method assigningMethod) ∧
    Enters assigningMethod callWithThree assigning [e] (.user assigningGuard) ctx s' ∧
    s'.scopes.names ctx.scope = ["x", "y"] ∧ assigningGuard.params.names = ["x"] := by
  obtain ⟨e, s', ht, hnames⟩ := assigningGuard_tested
  have enters := enters_of_taken (m := assigningMethod) rfl .nil ht
  exact ⟨e, _, s', assigning_finds, enters, hnames, rfl⟩

end Quill
