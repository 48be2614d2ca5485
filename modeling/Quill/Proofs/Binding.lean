import Quill.Proofs.Matching

/-!
# When names are bound

Six constructs match patterns. Main statements: `names_follow_matches` says for each of them where
it binds the names and what became of the match before, and `rejected_arm_rebinds` that the guard
of an arm comes too late to prevent it.
-/

namespace Quill

namespace State

/-- The names have the values that were found, where they are bound already or else in `scope`. -/
def assigned (scope : ScopeId) (found : Matched) (s : State) : State :=
  found.foldr (fun b s ↦ s.assign scope b.1 b.2) s

def defined (scope : ScopeId) (found : Matched) (s : State) : State :=
  found.foldr (fun b s ↦ s.define scope b.1 b.2) s

def definedBlock (p : Params) (block : Option Value) (scope : ScopeId) (s : State) : State :=
  match p.block with
  | some name => s.define scope name.name (block.getD .nil)
  | none => s

theorem assigned_held (scope : ScopeId) (found : Matched) (s : State) (held : List Held) :
    assigned scope found { s with held } = { assigned scope found s with held } := by
  induction found with
  | nil => rfl
  | cons b found ih =>
    change (assigned scope found { s with held }).assign scope b.1 b.2 = _
    rw [ih]
    rfl

end State

open Eval

section

variable {names : List String} {matching : Eval (Option Matched)}
  {bound : Matched → State → State} {s s₁ s' : State} {es : List Episode}

/-- All of a match succeeded without touching a variable, and then its names were bound. -/
def Hits (matching : Eval (Option Matched)) (names : List String)
    (bound : Matched → State → State) (s : State) (es : List Episode) (s' : State) : Prop :=
  ∃ found s₁, (matching s).Course es (.ok (some found)) s₁ ∧ Untouched id s es s₁ ∧
    found.map (·.1) = names.reverse ∧ s' = bound found s₁

/-- A match failed or unwound, and no variable was touched. -/
def Misses (matching : Eval (Option Matched)) (s : State) (es : List Episode) (s' : State) : Prop :=
  ∃ r, (matching s).Course es r s' ∧ (∀ found, r ≠ .ok (some found)) ∧ Untouched id s es s'

theorem match_course {β : Type} {k : Option Matched → Eval β} {o : Outcome β}
    (hm : Quiet id (Collects names []) matching) (h : ((matching >>= k) s).Course es o s') :
    (∃ u, o = .error u ∧ (matching s).Course es (.error u) s' ∧ Untouched id s es s') ∨
    (∃ es₁ es₂ s₁, es = es₁ ++ es₂ ∧ (matching s).Course es₁ (.ok none) s₁ ∧
      Untouched id s es₁ s₁ ∧ (k none s₁).Course es₂ o s') ∨
    ∃ found es₁ es₂ s₁, es = es₁ ++ es₂ ∧ (matching s).Course es₁ (.ok (some found)) s₁ ∧
      Untouched id s es₁ s₁ ∧ found.map (·.1) = names.reverse ∧
      (k (some found) s₁).Course es₂ o s' := by
  obtain ⟨u, ho, hu, hq⟩ | ⟨r, es₁, es₂, s₁, hes, hr, hc, hq, hrest⟩ := hm.bind_course h
  · exact .inl ⟨u, ho, hu, hq⟩
  · cases r with
    | none => exact .inr (.inl ⟨es₁, es₂, s₁, hes, hr, hq, hrest⟩)
    | some found =>
      have hnames := hc found rfl
      rw [List.map_nil, List.append_nil] at hnames
      exact .inr (.inr ⟨found, es₁, es₂, s₁, hes, hr, hq, hnames, hrest⟩)

/-- An alternative is tried: it is taken, and its code is to run in `ctx`, if all of the match
succeeds and the guard, which sees the names, holds. -/
inductive Tried (matching : Eval (Option Matched)) (names : List String)
    (bound : Matched → State → State) (guard : Eval Bool) (ctx : Context) (s : State) :
    List Episode → Outcome (Option Context) → State → Prop
  | unwound {es : List Episode} {u : Unwind} {s' : State} :
      (matching s).Course es (.error u) s' → Untouched id s es s' →
      Tried matching names bound guard ctx s es (.error u) s'
  | missed {es : List Episode} {s' : State} :
      (matching s).Course es (.ok none) s' → Untouched id s es s' →
      Tried matching names bound guard ctx s es (.ok none) s'
  | asked {es₁ es₂ : List Episode} {s₁ s' : State} {o : Outcome Bool} :
      Hits matching names bound s es₁ s₁ → (guard s₁).Course es₂ o s' → Untouched id s₁ es₂ s' →
      Tried matching names bound guard ctx s (es₁ ++ es₂)
        (o.map fun b ↦ if b then some ctx else none) s'

theorem tried_of_course {k : Option Matched → Eval Bool} {guard : Eval Bool} {o : Outcome Bool}
    (ctx : Context) (hm : Quiet id (Collects names []) matching)
    (hg : Quiet id (fun _ ↦ True) guard) (hnone : k none = pure false)
    (hsome : ∀ found s, k (some found) s = guard (bound found s))
    (h : ((matching >>= k) s).Course es o s') :
    Tried matching names bound guard ctx s es (o.map fun b ↦ if b then some ctx else none) s' := by
  obtain ⟨u, rfl, hu, hq⟩ | ⟨es₁, es₂, s₁, rfl, hr, hq, hrest⟩ |
    ⟨found, es₁, es₂, s₁, rfl, hr, hq, hnames, hrest⟩ := match_course hm h
  · exact .unwound hu hq
  · rw [hnone] at hrest
    obtain ⟨rfl, rfl, rfl⟩ := hrest.of_done
    rw [List.append_nil]
    exact .missed hr hq
  · rw [hsome] at hrest
    exact .asked ⟨found, s₁, hr, hq, hnames, rfl⟩ hrest (hg _ _ _ _ hrest).1

end

section

variable {κ : Type} (tried : κ → State → List Episode → Outcome (Option Context) → State → Prop)

/-- Alternatives were tried in turn and all of them were rejected. -/
inductive Passed : List κ → State → List Episode → State → Prop
  | nil {s : State} : Passed [] s [] s
  | cons {a : κ} {rest : List κ} {s s₁ s' : State} {es₁ es₂ : List Episode} :
      tried a s es₁ (.ok none) s₁ → Passed rest s₁ es₂ s' → Passed (a :: rest) s (es₁ ++ es₂) s'

variable (code : κ → Context → Eval Value)
  (otherwise : State → List Episode → Outcome Value → State → Prop)

inductive Decided : List κ → State → List Episode → Outcome Value → State → Prop
  | exhausted {s s' : State} {es : List Episode} {o : Outcome Value} :
      otherwise s es o s' → Decided [] s es o s'
  | unwound {a : κ} {rest : List κ} {s s' : State} {es : List Episode} {u : Unwind} :
      tried a s es (.error u) s' → Decided (a :: rest) s es (.error u) s'
  | taken {a : κ} {rest : List κ} {s s₁ s' : State} {es₁ es₂ : List Episode} {o : Outcome Value}
      {ctx : Context} : tried a s es₁ (.ok (some ctx)) s₁ → (code a ctx s₁).Course es₂ o s' →
      Decided (a :: rest) s (es₁ ++ es₂) o s'

def Settled (as : List κ) (s : State) (es : List Episode) (o : Outcome Value) (s' : State) :
    Prop :=
  ∃ passed rest es₁ es₂ s₁, as = passed ++ rest ∧ es = es₁ ++ es₂ ∧
    Passed tried passed s es₁ s₁ ∧ Decided tried code otherwise rest s₁ es₂ o s'

variable {tried code otherwise} {a : κ} {as : List κ} {s s₁ s' : State} {es₁ es₂ : List Episode}
  {o : Outcome Value}

theorem Decided.settled (h : Decided tried code otherwise as s es₁ o s') :
    Settled tried code otherwise as s es₁ o s' :=
  ⟨[], as, [], es₁, s, rfl, rfl, .nil, h⟩

theorem Settled.cons (ha : tried a s es₁ (.ok none) s₁)
    (h : Settled tried code otherwise as s₁ es₂ o s') :
    Settled tried code otherwise (a :: as) s (es₁ ++ es₂) o s' := by
  obtain ⟨passed, rest, es₃, es₄, s₂, rfl, rfl, hp, hd⟩ := h
  exact ⟨a :: passed, rest, es₁ ++ es₃, es₄, s₂, rfl, (List.append_assoc ..).symm, .cons ha hp, hd⟩

theorem Settled.mono
    {tried' : κ → State → List Episode → Outcome (Option Context) → State → Prop}
    (h : Settled tried code otherwise as s es₁ o s')
    (ht : ∀ a s es o s', tried a s es o s' → tried' a s es o s') :
    Settled tried' code otherwise as s es₁ o s' := by
  obtain ⟨passed, rest, es₂, es₃, s₁, rfl, rfl, hp, hd⟩ := h
  refine ⟨passed, rest, es₂, es₃, s₁, rfl, rfl, ?_, ?_⟩
  · clear hd
    induction hp with
    | nil => exact .nil
    | cons ha _ ih => exact .cons (ht _ _ _ _ _ ha) ih
  · cases hd with
    | exhausted h => exact .exhausted h
    | unwound ha => exact .unwound (ht _ _ _ _ _ ha)
    | taken ha hc => exact .taken (ht _ _ _ _ _ ha) hc

theorem Passed.untouched {ω : Type} {view : Scopes Value → ω}
    (ht : ∀ a ∈ as, ∀ s es s', tried a s es (.ok none) s' → Untouched view s es s')
    (h : Passed tried as s es₁ s') : Untouched view s es₁ s' := by
  induction h with
  | nil => rfl
  | cons ha _ ih =>
    have hrest := ih fun b hb ↦ ht b (List.mem_cons_of_mem _ hb)
    exact (ht _ List.mem_cons_self _ _ _ ha).append hrest

end

section

variable {s s' : State} {es : List Episode} {ctx : Context}

/-- How a test ends: its value is true if the names are bound. -/
def TestBinds (value : Expr) (p : Pattern) (ctx : Context) (s : State) (es : List Episode)
    (o : Outcome Value) (s' : State) : Prop :=
  (∃ u, o = .error u ∧ (eval value ctx s).Course es (.error u) s') ∨
  ∃ v es₁ es₂ s₁, es = es₁ ++ es₂ ∧ (eval value ctx s).Course es₁ (.ok v) s₁ ∧
    (o = .ok (.bool true) ∧ Hits (holding [v] (matchPattern ctx [] p v)) p.names
        (State.assigned ctx.scope) s₁ es₂ s' ∨
      o ≠ .ok (.bool true) ∧ Misses (holding [v] (matchPattern ctx [] p v)) s₁ es₂ s')

theorem test_course {value : Expr} {p : Pattern} {o : Outcome Value}
    (h : (test value p ctx s).Course es o s') : TestBinds value p ctx s es o s' := by
  have quiet : Quiet id (fun _ ↦ True) (eval value ctx) := .perform _
  obtain ⟨u, rfl, hu, -⟩ | ⟨v, es₁, es₂, s₁, rfl, hv, -, -, hrest⟩ := quiet.bind_course h
  · exact .inl ⟨u, rfl, hu⟩
  · refine .inr ⟨v, es₁, es₂, s₁, rfl, hv, ?_⟩
    obtain ⟨u, rfl, hu, hq⟩ | ⟨es₃, es₄, s₂, rfl, hr, hq, hlast⟩ |
      ⟨found, es₃, es₄, s₂, rfl, hr, hq, hnames, hlast⟩ :=
      match_course (.holding [v] (matchPattern_quiet ctx [] p v)) hrest
    · exact .inr ⟨nofun, _, hu, nofun, hq⟩
    · obtain ⟨rfl, rfl, rfl⟩ := hlast.of_done
      rw [List.append_nil]
      exact .inr ⟨nofun, _, hr, nofun, hq⟩
    · obtain ⟨rfl, rfl, rfl⟩ := hlast.of_done
      rw [List.append_nil]
      exact .inl ⟨rfl, found, s₂, hr, hq, hnames, rfl⟩

/-- How a destructuring assignment ends: in an error if the names are not bound. -/
def DestructureBinds (p : Pattern) (v : Value) (ctx : Context) (s : State) (es : List Episode)
    (o : Outcome Unit) (s' : State) : Prop :=
  (o = .ok () ∧ Hits (matchPattern ctx [] p v) p.names (State.assigned ctx.scope) s es s') ∨
  ∃ u es₁ es₂ s₁, o = .error u ∧ es = es₁ ++ es₂ ∧ Misses (matchPattern ctx [] p v) s es₁ s₁ ∧
    Untouched id s₁ es₂ s'

theorem destructure_course {p : Pattern} {v : Value} {span : Span} {o : Outcome Unit}
    (h : (destructure p v ctx span s).Course es o s') : DestructureBinds p v ctx s es o s' := by
  obtain ⟨u, rfl, hu, hq⟩ | ⟨es₁, es₂, s₁, rfl, hr, hq, hlast⟩ |
    ⟨found, es₁, es₂, s₁, rfl, hr, hq, hnames, hlast⟩ :=
    match_course (matchPattern_quiet ctx [] p v) h
  · exact .inr ⟨u, es, [], s', rfl, (List.append_nil es).symm, ⟨_, hu, nofun, hq⟩, rfl⟩
  · -- The error of a failed match has no value, whatever finding its text comes to.
    have raises : Quiet id (fun _ ↦ False) (raiseNoMatch p v span : Eval Unit) :=
      .raiseNoMatch p v span
    have raised := raises s₁ es₂ o s' hlast
    cases o with
    | ok a => exact (raised.2 a rfl).elim
    | error u => exact .inr ⟨u, es₁, es₂, s₁, rfl, rfl, ⟨_, hr, nofun, hq⟩, raised.1⟩
  · obtain ⟨rfl, rfl, rfl⟩ := hlast.of_done
    rw [List.append_nil]
    exact .inl ⟨rfl, found, s₁, hr, hq, hnames, rfl⟩

theorem Hits.holding {matching : Eval (Option Matched)} {names : List String} {scope : ScopeId}
    {vs : List Value} {s₁ : State}
    (h : Hits matching names (State.assigned scope) { s with held := ⟨vs, none⟩ :: s.held } es s₁) :
    Hits (holding vs matching) names (State.assigned scope) s es { s₁ with held := s.held } := by
  obtain ⟨found, s₂, hr, hq, hnames, rfl⟩ := h
  refine ⟨found, { s₂ with held := s.held }, hr.restore s.held, ?_, hnames, ?_⟩
  · have hs : Untouched id s es s₂ := hq.of_same rfl
    exact hs.to_same rfl
  · exact (State.assigned_held scope found s₂ s.held).symm

theorem Misses.holding {matching : Eval (Option Matched)} {vs : List Value} {s₁ : State}
    (h : Misses matching { s with held := ⟨vs, none⟩ :: s.held } es s₁) :
    Misses (holding vs matching) s es { s₁ with held := s.held } := by
  obtain ⟨r, hr, hne, hq⟩ := h
  have hs : Untouched id s es s₁ := hq.of_same rfl
  exact ⟨r, hr.restore s.held, hne, hs.to_same rfl⟩

theorem afterRound_quiet (o : Outcome Value) (again : Task) :
    Quiet id (fun _ ↦ True) (afterRound o again) := by
  unfold afterRound
  split
  · exact .pure trivial
  · exact .pure trivial
  · exact .pure trivial
  · exact .unwind _

/-- How a round of a loop over a list goes: it ends in an error if the names are not bound. -/
def RoundBinds (p : Pattern) (ctx : Context) (list : ListId) (i : Nat) (s : State)
    (es : List Episode) (o : Outcome Reply) (s' : State) : Prop :=
  ((s.items list)[i]? = none ∧ es = [] ∧ o = .ok (.value (.list list)) ∧ s' = s) ∨
  ∃ item es₁ es₂ s₁, (s.items list)[i]? = some item ∧ es = es₁ ++ es₂ ∧ Untouched id s₁ es₂ s' ∧
    (Hits (holding [item] (matchPattern ctx [] p item)) p.names (State.assigned ctx.scope)
        s es₁ s₁ ∨
      Misses (holding [item] (matchPattern ctx [] p item)) s es₁ s₁ ∧ ∃ u, o = .error u)

theorem forRound_course {p : Pattern} {body : List Expr} {span : Span} {list : ListId} {i : Nat}
    {o : Outcome Reply} (h : (forRound p body ctx span list i s).Course es o s') :
    RoundBinds p ctx list i s es o s' := by
  rw [forRound, read_bind] at h
  cases hitem : (s.items list)[i]? with
  | none =>
    rw [hitem] at h
    obtain ⟨rfl, rfl, rfl⟩ := h.of_done
    exact .inl ⟨hitem, rfl, rfl, rfl⟩
  | some item =>
    rw [hitem] at h
    dsimp only at h
    rw [bind_apply] at h
    refine .inr ⟨item, ?_⟩
    obtain ⟨u, rfl, hu⟩ | ⟨⟨⟩, es₁, es₂, s₁, rfl, hx, hrest⟩ := h.bind
    · obtain ⟨s₁, hd, rfl⟩ := hu.restoring
      obtain ⟨ho, -⟩ | ⟨u', es₁, es₂, s₂, -, rfl, hm, hq⟩ := destructure_course hd
      · cases ho
      · have hs : Untouched id { s₂ with held := s.held } es₂ s₁ := hq.of_same rfl
        exact ⟨es₁, es₂, _, hitem, rfl, hs.to_same rfl, .inr ⟨hm.holding, u, rfl⟩⟩
    · obtain ⟨s₂, hd, rfl⟩ := hx.restoring
      have body : Quiet id (fun _ ↦ True) (do
          let outcome ← attempt (holding [item] (statements ctx body))
          afterRound outcome (.forEach p body ctx span list (i + 1))) :=
        .bind (.attempt (.holding _ (.statements ctx body))) fun o _ ↦ afterRound_quiet o _
      obtain ⟨-, hm⟩ | ⟨u, -, -, -, ho, -⟩ := destructure_course hd
      · exact ⟨es₁, es₂, _, hitem, rfl, (body _ _ _ _ hrest).1, .inl hm.holding⟩
      · cases ho

end

/-- The arm of a `case` is tried where the `case` stands. -/
def ArmTried (ctx : Context) (v : Value) (arm : Arm) :
    State → List Episode → Outcome (Option Context) → State → Prop :=
  Tried (matchPattern ctx [] arm.pattern v) arm.pattern.names (State.assigned ctx.scope)
    (guardHolds arm.guard ctx) ctx

theorem choose_course {ctx : Context} {v : Value} {otherwise : Eval Value} {arms : List Arm}
    {s s' : State} {es : List Episode} {o : Outcome Value}
    (h : (choose ctx v otherwise arms s).Course es o s') :
    Settled (ArmTried ctx v) (fun arm _ ↦ statements ctx arm.body)
      (fun s es o s' ↦ (otherwise s).Course es o s') arms s es o s' := by
  induction arms generalizing s es with
  | nil => exact (Decided.exhausted h).settled
  | cons arm rest ih =>
    obtain ⟨u, rfl, hu, hq⟩ | ⟨es₁, es₂, s₁, rfl, hr, hq, hrest⟩ |
      ⟨found, es₁, es₂, s₁, rfl, hr, hq, hnames, hrest⟩ :=
      match_course (matchPattern_quiet ctx [] arm.pattern v) h
    · exact (Decided.unwound (.unwound hu hq)).settled
    · exact .cons (.missed hr hq) (ih hrest)
    · have hits : Hits (matchPattern ctx [] arm.pattern v) arm.pattern.names
          (State.assigned ctx.scope) s es₁ (State.assigned ctx.scope found s₁) :=
        ⟨found, s₁, hr, hq, hnames, rfl⟩
      have asked : ((do
          if ← guardHolds arm.guard ctx then statements ctx arm.body
          else choose ctx v otherwise rest : Eval Value)
          (State.assigned ctx.scope found s₁)).Course es₂ o s' := hrest
      obtain ⟨u, rfl, hu, hg⟩ | ⟨holds, es₃, es₄, s₂, rfl, hb, -, hg, hlast⟩ :=
        Quiet.bind_course (.guardHolds arm.guard ctx) asked
      · exact (Decided.unwound (.asked hits hu hg)).settled
      · rw [← List.append_assoc]
        cases holds with
        | true => exact (Decided.taken (.asked hits hb hg) hlast).settled
        | false => exact .cons (.asked hits hb hg) (ih hlast)

/-- An arm without a guard, or without names, does not touch the variables if it is rejected. -/
theorem ArmTried.untouched {ctx : Context} {v : Value} {arm : Arm} {s s' : State}
    {es : List Episode} (hfree : arm.guard = none ∨ arm.pattern.names = [])
    (h : ArmTried ctx v arm s es (.ok none) s') : Untouched id s es s' := by
  unfold ArmTried at h
  generalize hr : (.ok none : Outcome (Option Context)) = r at h
  cases h with
  | unwound hu hq => exact hq
  | missed hm hq => exact hq
  | asked hits hg hq =>
    obtain ⟨found, s₁, hm, hq₁, hnames, rfl⟩ := hits
    obtain hguard | hempty := hfree
    · rw [hguard] at hg
      obtain ⟨rfl, rfl, rfl⟩ := hg.of_done
      cases hr
    · rw [hempty, List.reverse_nil, List.map_eq_nil_iff] at hnames
      subst hnames
      exact hq₁.append hq

def Scopes.older {α : Type} (n : Nat) (s : Scopes α) (i : Fin n) : Option (Scope α) := s.all[i.1]?

theorem Scopes.older_define {α : Type} {n : Nat} {scope : ScopeId} (hn : n ≤ scope.index)
    (s : Scopes α) (name : String) (v : α) : (s.define scope name v).older n = s.older n := by
  funext i
  have hne : scope.index ≠ i.1 := by omega
  simp only [older, define, Array.getElem?_modify, if_neg hne]

theorem Scopes.older_child {α : Type} (s : Scopes α) (outer : ScopeId) :
    (s.child outer).older s.all.size = s.older s.all.size := by
  funext i
  have hne : i.1 ≠ s.all.size := by omega
  simp only [older, child, Array.getElem?_push, if_neg hne]

theorem State.older_defined {n : Nat} {scope : ScopeId} (hn : n ≤ scope.index) (found : Matched)
    (s : State) : (defined scope found s).scopes.older n = s.scopes.older n := by
  induction found with
  | nil => rfl
  | cons b found ih => exact (Scopes.older_define hn _ b.1 b.2).trans ih

theorem State.older_definedBlock {n : Nat} {scope : ScopeId} (hn : n ≤ scope.index) (p : Params)
    (block : Option Value) (s : State) :
    (definedBlock p block scope s).scopes.older n = s.scopes.older n := by
  unfold definedBlock
  split
  · exact Scopes.older_define hn _ _ _
  · rfl

/-- An alternative is tried in a new scope inside of `outer`, which no older scope is part of. -/
def TriedInside (outer : ScopeId) (home : Context) (vs : List Value)
    (matching : Context → Eval (Option Matched)) (names : List String)
    (bound : ScopeId → Matched → State → State) (guard : Context → Eval Bool) (s : State)
    (es : List Episode) (o : Outcome (Option Context)) (s' : State) : Prop :=
  let inner : Context := { home with scope := s.scopes.fresh }
  ∃ s₁, Tried (matching inner) names (bound inner.scope) (guard inner) inner
    { (s.newScope outer).2 with held := ⟨vs, some inner⟩ :: s.held } es o s₁ ∧
    s' = { s₁ with held := s.held }

section

variable {outer : ScopeId} {home : Context} {vs : List Value}
  {matching : Context → Eval (Option Matched)} {names : List String}
  {bound : ScopeId → Matched → State → State} {guard : Context → Eval Bool} {s s' : State}
  {es : List Episode}

theorem TriedInside.untouched {o : Outcome (Option Context)}
    (hb : ∀ n (scope : ScopeId) found s, n ≤ scope.index →
      (bound scope found s).scopes.older n = s.scopes.older n)
    (h : TriedInside outer home vs matching names bound guard s es o s') :
    Untouched (Scopes.older s.scopes.all.size) s es s' := by
  obtain ⟨s₁, ht, rfl⟩ := h
  suffices h : Untouched (Scopes.older s.scopes.all.size)
      { (s.newScope outer).2 with held := ⟨vs, some { home with scope := s.scopes.fresh }⟩ ::
        s.held } es s₁ by
    exact (h.of_same (Scopes.older_child s.scopes outer)).to_same rfl
  cases ht with
  | unwound _ hq => exact hq.through _
  | missed _ hq => exact hq.through _
  | asked hits _ hq =>
    obtain ⟨found, s₂, -, hq₂, -, rfl⟩ := hits
    have hbound := hb s.scopes.all.size s.scopes.fresh found s₂ (Nat.le_refl _)
    exact ((hq₂.through _).to_same hbound).append (hq.through _)

theorem inside_course {work : Context → Eval Bool} {o : Outcome Bool}
    (ht : ∀ (inner : Context) s es o s', (work inner s).Course es o s' →
      Tried (matching inner) names (bound inner.scope) (guard inner) inner s es
        (o.map fun b ↦ if b then some inner else none) s')
    (h : (within { home with scope := s.scopes.fresh } vs
      (work { home with scope := s.scopes.fresh }) (s.newScope outer).2).Course es o s') :
    TriedInside outer home vs matching names bound guard s es
      (o.map fun b ↦ if b then some { home with scope := s.scopes.fresh } else none) s' := by
  obtain ⟨s₁, hw, rfl⟩ := Step.Course.restoring h
  exact ⟨s₁, ht _ _ _ _ _ hw, rfl⟩

end

/-- A clause of `rescue` is tried where the protected body stands. -/
def RescueTried (ctx : Context) (v : Value) (clause : Rescue) :
    State → List Episode → Outcome (Option Context) → State → Prop :=
  TriedInside ctx.scope ctx [v] (fun inner ↦ rescueMatch clause.pattern inner v)
    (namesOf clause.pattern) State.defined (guardHolds clause.guard)

theorem RescueTried.untouched {ctx : Context} {v : Value} {clause : Rescue} {s s' : State}
    {es : List Episode} {o : Outcome (Option Context)} (h : RescueTried ctx v clause s es o s') :
    Untouched (Scopes.older s.scopes.all.size) s es s' :=
  TriedInside.untouched (fun _ _ found s hn ↦ State.older_defined hn found s) h

theorem rescueTried_course {ctx : Context} {v : Value} {clause : Rescue} {s s' : State}
    {es : List Episode} {o : Outcome Bool}
    (h : (within { ctx with scope := s.scopes.fresh } [v]
      (bindsRescued clause v { ctx with scope := s.scopes.fresh })
      (s.newScope ctx.scope).2).Course es o s') :
    RescueTried ctx v clause s es
      (o.map fun b ↦ if b then some { ctx with scope := s.scopes.fresh } else none) s' := by
  refine inside_course (fun inner s es o s' hw ↦ ?_) h
  exact tried_of_course inner (rescueMatch_quiet clause.pattern inner v)
    (.guardHolds clause.guard inner) rfl (fun _ _ ↦ rfl) hw

theorem rescue_course {ctx : Context} {r : Raised} {clauses : List Rescue} {s s' : State}
    {es : List Episode} {o : Outcome Value} (h : (rescue ctx r clauses s).Course es o s') :
    Settled (RescueTried ctx r.value)
      (fun clause inner ↦ within inner [] (perform (.handling r (.statements clause.body inner))))
      (fun s es o s' ↦ es = [] ∧ o = .error (.raise r) ∧ s' = s) clauses s es o s' := by
  induction clauses generalizing s es with
  | nil => exact (Decided.exhausted h.of_done).settled
  | cons clause rest ih =>
    let inner : Context := { ctx with scope := s.scopes.fresh }
    have first : ((do
        if ← within inner [r.value] (bindsRescued clause r.value inner) then
          within inner [] (perform (.handling r (.statements clause.body inner)))
        else rescue ctx r rest : Eval Value) (s.newScope ctx.scope).2).Course es o s' := h
    rw [bind_apply] at first
    obtain ⟨u, rfl, hu⟩ | ⟨meant, es₁, es₂, s₁, rfl, hb, hrest⟩ := first.bind
    · exact (Decided.unwound (rescueTried_course hu)).settled
    · have ht := rescueTried_course hb
      cases meant with
      | true => exact (Decided.taken ht hrest).settled
      | false => exact .cons ht (ih hrest)

/-- A clause of a method is tried in a scope by itself, if it takes as many arguments. A built-in
clause binds nothing and needs no context. -/
def ClauseTried (m : Method) (c : Call) (clause : Clause) (s : State) (es : List Episode)
    (o : Outcome (Option Context)) (s' : State) : Prop :=
  match clause with
  | .native n =>
    let reason := n.signature.mismatch s.types.sort c.receiver c.args c.block.isSome
    es = [] ∧ o = .ok (if reason.isNone then some State.topContext else none) ∧ s' = s
  | .user d =>
    if d.params.takes c.args.length then
      TriedInside Scopes.root ⟨Scopes.root, c.receiver, m.owner, some (m.frame c.args c.block)⟩ []
        (fun inner ↦ matchSequence inner d.params.items c.args) (Pattern.names.all d.params.items)
        (fun scope found s ↦ State.definedBlock d.params c.block scope
          (State.defined scope found s))
        (admits d.guard) s es o s'
    else es = [] ∧ o = .ok none ∧ s' = s

theorem ClauseTried.untouched {m : Method} {c : Call} {clause : Clause} {s s' : State}
    {es : List Episode} {o : Outcome (Option Context)} (h : ClauseTried m c clause s es o s') :
    Untouched (Scopes.older s.scopes.all.size) s es s' := by
  unfold ClauseTried at h
  split at h
  · obtain ⟨rfl, -, rfl⟩ := h
    rfl
  · split at h
    · refine TriedInside.untouched (fun n scope found s hn ↦ ?_) h
      rw [State.older_definedBlock hn, State.older_defined hn]
    · obtain ⟨rfl, -, rfl⟩ := h
      rfl

theorem bindParams_course {d : MethodDef} {c : Call} {inner : Context} {s s' : State}
    {es : List Episode} {o : Outcome Bool} (h : (bindParams d c inner s).Course es o s') :
    Tried (matchSequence inner d.params.items c.args) (Pattern.names.all d.params.items)
      (fun found s ↦ State.definedBlock d.params c.block inner.scope
        (State.defined inner.scope found s))
      (admits d.guard inner) inner s es (o.map fun b ↦ if b then some inner else none) s' := by
  refine tried_of_course inner (matchSequence_quiet inner d.params.items c.args)
    (.admits d.guard inner) rfl (fun found s ↦ ?_) h
  change (do
    defineBlock d.params c.block inner.scope
    admits d.guard inner : Eval Bool) (State.defined inner.scope found s) = _
  unfold defineBlock State.definedBlock
  cases d.params.block with
  | some name => rfl
  | none => rfl

theorem clauseTried_course {d : MethodDef} {m : Method} {c : Call} {s s' : State}
    {es : List Episode} {o : Outcome Bool} (htakes : d.params.takes c.args.length = true)
    {inner : Context}
    (hinner : inner = ⟨s.scopes.fresh, c.receiver, m.owner, some (m.frame c.args c.block)⟩)
    (h : (within inner [] (bindParams d c inner) (s.newScope Scopes.root).2).Course es o s') :
    ClauseTried m c (.user d) s es (o.map fun b ↦ if b then some inner else none) s' := by
  subst hinner
  unfold ClauseTried
  dsimp only
  rw [if_pos htakes]
  exact inside_course (fun inner _ _ _ _ hw ↦ bindParams_course hw) h

theorem bindClause_course {d : MethodDef} {m : Method} {c : Call} {s s' : State}
    {es : List Episode} {o : Outcome (Option Context)} (h : (bindClause d m c s).Course es o s') :
    ClauseTried m c (.user d) s es o s' := by
  unfold bindClause at h
  split at h
  · rename_i htakes
    let inner : Context :=
      ⟨s.scopes.fresh, c.receiver, m.owner, some (m.frame c.args c.block)⟩
    have tried : ((do
        return if ← within inner [] (bindParams d c inner) then some inner else none :
        Eval (Option Context)) (s.newScope Scopes.root).2).Course es o s' := h
    rw [bind_apply] at tried
    obtain ⟨u, rfl, hu⟩ | ⟨takes, es₁, es₂, s₁, rfl, hb, hrest⟩ := tried.bind
    · exact clauseTried_course htakes rfl hu
    · obtain ⟨rfl, rfl, rfl⟩ := hrest.of_done
      rw [List.append_nil]
      exact clauseTried_course htakes rfl hb
  · rename_i htakes
    unfold ClauseTried
    dsimp only
    rw [if_neg htakes]
    exact h.of_done

/-- What runs for a clause that is taken. -/
def clauseCode (m : Method) (c : Call) (clause : Clause) (ctx : Context) : Eval Value :=
  match clause with
  | .native n => holding [.type m.owner] (runNative n c)
  | .user d => do runClause d ctx (← read (·.methodLabel m)) c.span

theorem runClauses_course {m : Method} {c : Call} {mismatch : Option Mismatch}
    {clauses : List Clause} {s s' : State} {es : List Episode} {o : Outcome Value}
    (h : (runClauses m c mismatch clauses s).Course es o s') :
    Settled (ClauseTried m c) (clauseCode m c)
      (fun s es o s' ↦ ∃ reason, (raiseNoClause m c reason s).Course es o s')
      clauses s es o s' := by
  induction clauses generalizing s es mismatch with
  | nil => exact (Decided.exhausted ⟨mismatch, h⟩).settled
  | cons clause rest ih =>
    cases clause with
    | native n =>
      rw [runClauses, read_bind] at h
      cases hm : n.signature.mismatch s.types.sort c.receiver c.args c.block.isSome with
      | none =>
        rw [hm] at h
        have ht : ClauseTried m c (.native n) s [] (.ok (some State.topContext)) s :=
          ⟨rfl, by rw [hm]; rfl, rfl⟩
        have taken : Decided (ClauseTried m c) (clauseCode m c)
            (fun s es o s' ↦ ∃ reason, (raiseNoClause m c reason s).Course es o s')
            (.native n :: rest) s ([] ++ es) o s' := .taken ht h
        exact taken.settled
      | some reason =>
        rw [hm] at h
        have ht : ClauseTried m c (.native n) s [] (.ok none) s := ⟨rfl, by rw [hm]; rfl, rfl⟩
        have settled := Settled.cons ht (ih h)
        exact settled
    | user d =>
      rw [runClauses, bind_apply] at h
      obtain ⟨u, rfl, hu⟩ | ⟨found, es₁, es₂, s₁, rfl, hb, hrest⟩ := h.bind
      · exact (Decided.unwound (bindClause_course hu)).settled
      · cases found with
        | some ctx => exact (Decided.taken (bindClause_course hb) hrest).settled
        | none => exact .cons (bindClause_course hb) (ih hrest)

/-- How the choice of a `case` goes. The arms that are rejected come first. -/
def ChoiceBinds (ctx : Context) (v : Value) (otherwise : Eval Value) (arms : List Arm) (s : State)
    (es : List Episode) (o : Outcome Value) (s' : State) : Prop :=
  ∃ passed rest es₁ es₂ s₁, arms = passed ++ rest ∧ es = es₁ ++ es₂ ∧
    Passed (ArmTried ctx v) passed s es₁ s₁ ∧
    ((∀ arm ∈ passed, arm.guard = none ∨ arm.pattern.names = []) → Untouched id s es₁ s₁) ∧
    Decided (ArmTried ctx v) (fun arm _ ↦ statements ctx arm.body)
      (fun s es o s' ↦ (otherwise s).Course es o s') rest s₁ es₂ o s'

/-- How the clauses of `rescue` deal with a raised value. None of them touches a scope that was
there before. -/
def RescueBinds (ctx : Context) (r : Raised) (clauses : List Rescue) : State → List Episode →
    Outcome Value → State → Prop :=
  Settled
    (fun clause s es o s' ↦ RescueTried ctx r.value clause s es o s' ∧
      Untouched (Scopes.older s.scopes.all.size) s es s')
    (fun clause inner ↦ within inner [] (perform (.handling r (.statements clause.body inner))))
    (fun s es o s' ↦ es = [] ∧ o = .error (.raise r) ∧ s' = s) clauses

/-- How the clauses of a method answer a message. None of them touches a scope that was there
before. -/
def ClausesBind (m : Method) (c : Call) (clauses : List Clause) : State → List Episode →
    Outcome Value → State → Prop :=
  Settled
    (fun clause s es o s' ↦ ClauseTried m c clause s es o s' ∧
      Untouched (Scopes.older s.scopes.all.size) s es s')
    (clauseCode m c) (fun s es o s' ↦ ∃ reason, (raiseNoClause m c reason s).Course es o s') clauses

/-- The names of a pattern are bound all at once, after the whole pattern has matched, and matching
itself touches no variable. A match that fails or unwinds binds nothing, in tests, assignments and
loops. The arm of a `case` binds its names where the `case` stands before its guard is asked, so
they stay when the guard rejects it; other rejected arms leave no trace. A clause of `rescue` or of
a method binds its names in a new scope. -/
theorem names_follow_matches (s s' : State) (es : List Episode) :
    (∀ value p span ctx o, (expression ⟨.fits value p, span⟩ ctx s).Course es o s' →
      TestBinds value p ctx s es o s') ∧
    (∀ p v ctx span o, (destructure p v ctx span s).Course es o s' →
      DestructureBinds p v ctx s es o s') ∧
    (∀ p body ctx span list i o, (forRound p body ctx span list i s).Course es o s' →
      RoundBinds p ctx list i s es o s') ∧
    (∀ ctx v otherwise arms o, (choose ctx v otherwise arms s).Course es o s' →
      ChoiceBinds ctx v otherwise arms s es o s') ∧
    (∀ ctx r clauses o, (rescue ctx r clauses s).Course es o s' →
      RescueBinds ctx r clauses s es o s') ∧
    ∀ m c mismatch clauses o, (runClauses m c mismatch clauses s).Course es o s' →
      ClausesBind m c clauses s es o s' := by
  refine ⟨fun _ _ _ _ _ ↦ test_course, fun _ _ _ _ _ ↦ destructure_course,
    fun _ _ _ _ _ _ _ ↦ forRound_course, fun ctx v otherwise arms o h ↦ ?_,
    fun ctx r clauses o h ↦ ?_, fun m c mismatch clauses o h ↦ ?_⟩
  · obtain ⟨passed, rest, es₁, es₂, s₁, ha, he, hp, hd⟩ := choose_course h
    refine ⟨passed, rest, es₁, es₂, s₁, ha, he, hp, fun hfree ↦ ?_, hd⟩
    exact hp.untouched fun arm harm s es s' ht ↦ ht.untouched (hfree arm harm)
  · exact (rescue_course h).mono fun clause s es o s' ht ↦ ⟨ht, ht.untouched⟩
  · exact (runClauses_course h).mono fun clause s es o s' ht ↦ ⟨ht, ht.untouched⟩

def bindX : Pattern := .bind ⟨"x", .origin⟩ none

/-- `when x if false`. -/
def guardedArm : Arm := ⟨bindX, some ⟨.literal (.bool false), .origin⟩, [], .origin⟩

/-- A program at top level that has set `x` to 1, and a list of one item. -/
def oneBound : State :=
  ((State.initial .standard).assign State.topContext.scope "x" (.int 1)).newList #[.int 5] |>.2

/-- Where `x` is 5 meanwhile. -/
def rebound : State := State.assigned State.topContext.scope [("x", .int 5)] oneBound

theorem guard_rejects : ∃ e s', e.before = rebound ∧
    (guardHolds guardedArm.guard State.topContext rebound).Course [e] (.ok false) s' :=
  ⟨_, _, rfl, .wait (n := 5) rfl .done⟩

theorem guardedArm_tried : ∃ e s', e.before = rebound ∧
    ArmTried State.topContext (.int 5) guardedArm oneBound [e] (.ok none) s' := by
  obtain ⟨e, s', he, hg⟩ := guard_rejects
  have matched : Hits (matchPattern State.topContext [] bindX (.int 5)) ["x"]
      (State.assigned State.topContext.scope) oneBound [] rebound :=
    ⟨_, oneBound, .done, rfl, rfl, rfl⟩
  have tried : ArmTried State.topContext (.int 5) guardedArm oneBound ([] ++ [e]) (.ok none) s' :=
    .asked matched hg (Quiet.guardHolds _ _ _ _ _ _ hg).1
  exact ⟨e, s', he, tried⟩

/-- An arm that is rejected by its guard may leave its names behind. -/
theorem rejected_arm_rebinds : ¬ ∀ ctx v arm s es s', ArmTried ctx v arm s es (.ok none) s' →
    Untouched id s es s' := by
  intro h
  obtain ⟨e, s', he, ht⟩ := guardedArm_tried
  have same : rebound.scopes = oneBound.scopes := he ▸ (h _ _ _ _ _ _ ht).1
  have values : some (Value.int 5) = some (.int 1) :=
    congrArg (·.get? State.topContext.scope "x") same
  exact absurd (Value.int.inj (Option.some.inj values)) (by decide)

def afterElse : Eval Value := named "x" State.topContext .origin

def guardedRescue : Rescue := ⟨some bindX, guardedArm.guard, [], .origin⟩

def guardedMethod : MethodDef :=
  ⟨⟨"f", .origin⟩, false, ⟨[bindX], none⟩, some ⟨.literal (.bool true), .origin⟩,
    ⟨[], [], none, none, .origin⟩, none, .origin⟩

/-- The value 5 is matched against `x` in each way. The arm and the clause of `rescue` are rejected
by their guards, and what follows the arm has the value 5. -/
theorem five_matched :
    (∃ es s', (expression ⟨.fits ⟨.literal (.int 5), .origin⟩ bindX, .origin⟩ State.topContext
        oneBound).Course es (.ok (.bool true)) s' ∧
      TestBinds ⟨.literal (.int 5), .origin⟩ bindX State.topContext oneBound es
        (.ok (.bool true)) s') ∧
    (∃ s', (destructure bindX (.int 5) State.topContext .origin oneBound).Course [] (.ok ()) s' ∧
      DestructureBinds bindX (.int 5) State.topContext oneBound [] (.ok ()) s') ∧
    (∃ o s', (forRound bindX [] State.topContext .origin ⟨0⟩ 0 oneBound).Course [] o s' ∧
      RoundBinds bindX State.topContext ⟨0⟩ 0 oneBound [] o s') ∧
    (∃ e s', (choose State.topContext (.int 5) afterElse [guardedArm] oneBound).Course [e]
        (.ok (.int 5)) s' ∧
      ChoiceBinds State.topContext (.int 5) afterElse [guardedArm] oneBound [e] (.ok (.int 5))
        s') ∧
    (∃ e s', (rescue State.topContext ⟨.int 5, .origin, #[]⟩ [guardedRescue] oneBound).Course [e]
        (.error (.raise ⟨.int 5, .origin, #[]⟩)) s' ∧
      RescueBinds State.topContext ⟨.int 5, .origin, #[]⟩ [guardedRescue] oneBound [e]
        (.error (.raise ⟨.int 5, .origin, #[]⟩)) s') ∧
    ∃ guard body s', (runClauses ⟨"f", CoreType.object.id, false, [.user guardedMethod]⟩
        ⟨.nil, [.int 5], none, .origin⟩ none [.user guardedMethod] oneBound).Course [guard, body]
        (.ok .nil) s' ∧
      ClausesBind ⟨"f", CoreType.object.id, false, [.user guardedMethod]⟩
        ⟨.nil, [.int 5], none, .origin⟩ [.user guardedMethod] oneBound [guard, body] (.ok .nil)
        s' := by
  have h₁ : ∃ es s', (expression ⟨.fits ⟨.literal (.int 5), .origin⟩ bindX, .origin⟩
      State.topContext oneBound).Course es (.ok (.bool true)) s' :=
    ⟨_, _, .wait (n := 5) rfl .done⟩
  have h₂ : ∃ s', (destructure bindX (.int 5) State.topContext .origin oneBound).Course []
      (.ok ()) s' := ⟨_, .done⟩
  have h₃ : ∃ o s', (forRound bindX [] State.topContext .origin ⟨0⟩ 0 oneBound).Course [] o s' :=
    ⟨_, _, .done⟩
  have h₄ : ∃ e s', (choose State.topContext (.int 5) afterElse [guardedArm] oneBound).Course [e]
      (.ok (.int 5)) s' := ⟨_, _, .wait (n := 5) rfl .done⟩
  have h₅ : ∃ e s', (rescue State.topContext ⟨.int 5, .origin, #[]⟩ [guardedRescue]
      oneBound).Course [e] (.error (.raise ⟨.int 5, .origin, #[]⟩)) s' :=
    ⟨_, _, .wait (n := 5) rfl .done⟩
  have h₆ : ∃ guard body s', (runClauses ⟨"f", CoreType.object.id, false, [.user guardedMethod]⟩
      ⟨.nil, [.int 5], none, .origin⟩ none [.user guardedMethod] oneBound).Course [guard, body]
      (.ok .nil) s' := ⟨_, _, _, .wait (n := 5) rfl (.wait (n := 8) rfl .done)⟩
  obtain ⟨es₁, s₁, h₁⟩ := h₁
  obtain ⟨s₂, h₂⟩ := h₂
  obtain ⟨o₃, s₃, h₃⟩ := h₃
  obtain ⟨e₄, s₄, h₄⟩ := h₄
  obtain ⟨e₅, s₅, h₅⟩ := h₅
  obtain ⟨guard, body, s₆, h₆⟩ := h₆
  refine ⟨⟨es₁, s₁, h₁, ?test⟩, ⟨s₂, h₂, ?assignment⟩, ⟨o₃, s₃, h₃, ?round⟩, ⟨e₄, s₄, h₄, ?choice⟩,
    ⟨e₅, s₅, h₅, ?clauses⟩, guard, body, s₆, h₆, ?methods⟩
  case test => exact (names_follow_matches _ _ _).1 _ _ _ _ _ h₁
  case assignment => exact (names_follow_matches _ _ _).2.1 _ _ _ _ _ h₂
  case round => exact (names_follow_matches _ _ _).2.2.1 _ _ _ _ _ _ _ h₃
  case choice => exact (names_follow_matches _ _ _).2.2.2.1 _ _ _ _ _ h₄
  case clauses => exact (names_follow_matches _ _ _).2.2.2.2.1 _ _ _ _ h₅
  case methods => exact (names_follow_matches _ _ _).2.2.2.2.2 _ _ _ _ _ h₆

end Quill
