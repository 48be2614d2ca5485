import Quill.Proofs.Clauses
import Quill.Proofs.Enclosing
import Quill.Proofs.Seclusion

/-!
# Protected bodies

How a body ends, part by part: its statements, the clauses of `rescue` or the part after `else`, and
the part after `ensure`. Main statement: `protected_bodies`.
-/

namespace Quill

open Eval

/-- The statements were evaluated in turn, each once, up to the first that unwound. In between
nothing changes but what is held. -/
inductive InTurn (ctx : Context) :
    Value → List Expr → State → List Episode → Outcome Value → State → Prop
  | done {last : Value} {s : State} {held : List Held} :
      InTurn ctx last [] s [] (.ok last) { s with held }
  | unwound {last : Value} {e : Expr} {rest : List Expr} {s s₁ : State} {held held' : List Held}
      {u : Unwind} : (Task.eval e ctx).Gives { s with held } (.error u) s₁ →
      InTurn ctx last (e :: rest) s [⟨.eval e ctx, { s with held }, .error u, s₁⟩] (.error u)
        { s₁ with held := held' }
  | next {last v : Value} {e : Expr} {rest : List Expr} {s s₁ s' : State} {held : List Held}
      {es : List Episode} {o : Outcome Value} : (Task.eval e ctx).Gives { s with held } (.ok v) s₁ →
      InTurn ctx v rest s₁ es o s' →
      InTurn ctx last (e :: rest) s (⟨.eval e ctx, { s with held }, .ok v, s₁⟩ :: es) o s'

section

variable {ctx : Context} {s s' : State} {es : List Episode} {o : Outcome Value}

theorem InTurn.of_held {last : Value} {stmts : List Expr} {held : List Held}
    (h : InTurn ctx last stmts { s with held } es o s') : InTurn ctx last stmts s es o s' := by
  cases h with
  | done => exact .done (s := s)
  | unwound hu => exact .unwound (s := s) hu
  | next hv hrest => exact .next (s := s) hv hrest

theorem perform_course {t : Task} (h : (perform t s).Course es o s') :
    es = [⟨t, s, o, s'⟩] ∧ t.Gives s o s' := by
  cases h with
  | wait hrun hrest =>
    obtain ⟨rfl, rfl, rfl⟩ := hrest.of_done
    exact ⟨rfl, _, hrun⟩

theorem holding_course {α : Type} {vs : List Value} {x : Eval α} {o : Outcome α}
    (h : (holding vs x s).Course es o s') :
    ∃ s₁, (x { s with held := ⟨vs, none⟩ :: s.held }).Course es o s₁ ∧
      s' = { s₁ with held := s.held } := Step.Course.restoring h

theorem nextStatement_course {last : Value} {e : Expr}
    (h : (holding [last] (eval e ctx) s).Course es o s') :
    ∃ held held' s₁, es = [⟨.eval e ctx, { s with held }, o, s₁⟩] ∧
      (Task.eval e ctx).Gives { s with held } o s₁ ∧ s' = { s₁ with held := held' } := by
  obtain ⟨s₁, hx, rfl⟩ := holding_course h
  obtain ⟨rfl, hgives⟩ := perform_course hx
  exact ⟨_, _, s₁, rfl, hgives, rfl⟩

theorem statementsAfter_course {last : Value} {stmts : List Expr}
    (h : (statementsAfter ctx last stmts s).Course es o s') : InTurn ctx last stmts s es o s' := by
  induction stmts generalizing last s es with
  | nil =>
    obtain ⟨rfl, rfl, rfl⟩ := h.of_done
    exact .done (s := s')
  | cons e rest ih =>
    cases rest with
    | nil =>
      obtain ⟨held, held', s₁, rfl, hgives, rfl⟩ := nextStatement_course h
      cases o with
      | ok v => exact .next hgives .done
      | error u => exact .unwound hgives
    | cons e' rest =>
      have first : ((holding [last] (eval e ctx) >>= fun v ↦
          statementsAfter ctx v (e' :: rest)) s).Course es o s' := h
      rw [bind_apply] at first
      obtain ⟨u, rfl, hu⟩ | ⟨v, es₁, es₂, s₁, rfl, hv, hrest⟩ := first.bind
      · obtain ⟨held, held', s₁, rfl, hgives, rfl⟩ := nextStatement_course hu
        exact .unwound hgives
      · obtain ⟨held, held', s₂, rfl, hgives, rfl⟩ := nextStatement_course hv
        exact .next hgives (ih hrest).of_held

theorem statements_course {stmts : List Expr} (h : (statements ctx stmts s).Course es o s') :
    InTurn ctx .nil stmts s es o s' := by
  match stmts with
  | [] =>
    obtain ⟨rfl, rfl, rfl⟩ := h.of_done
    exact .done (s := s')
  | [e] =>
    obtain ⟨rfl, hgives⟩ := perform_course h
    cases o with
    | ok v => exact .next (s := s) hgives (.done (s := s'))
    | error u => exact .unwound (s := s) hgives
  | e :: e' :: rest =>
    have first : ((eval e ctx >>= fun v ↦ statementsAfter ctx v (e' :: rest)) s).Course es o s' := h
    rw [bind_apply] at first
    obtain ⟨u, rfl, hu⟩ | ⟨v, es₁, es₂, s₁, rfl, hv, hrest⟩ := first.bind
    · obtain ⟨rfl, hgives⟩ := perform_course hu
      exact .unwound (s := s) hgives
    · obtain ⟨rfl, hgives⟩ := perform_course hv
      exact .next (s := s) hgives (statementsAfter_course hrest)

end

/-- How the clauses of `rescue` end: those before the one that decides were tried and passed over.
Where none is left the same value goes on outward. -/
def Rescued (ctx : Context) (r : Raised) :
    List Rescue → State → List Episode → Outcome Value → State → Prop :=
  Settled (RescueTried ctx r.value)
    (fun clause inner ↦ within inner [] (perform (.handling r (.statements clause.body inner))))
    (fun s es o s' ↦ es = [] ∧ o = .error (.raise r) ∧ s' = s)

section

variable {ctx : Context} {r : Raised} {clause : Rescue} {clauses passed rest : List Rescue}
  {s s₁ s' : State} {es es₁ es₂ : List Episode}

theorem course_of_tried {matching : Eval (Option Matched)} {names : List String}
    {bound : Matched → State → State} {k : Option Matched → Eval Bool} {guard : Eval Bool}
    {o : Outcome (Option Context)} (hnone : k none = pure false)
    (hsome : ∀ found s, k (some found) s = guard (bound found s))
    (h : Tried matching names bound guard ctx s es o s') :
    ∃ holds, o = Except.map (fun b : Bool ↦ if b then some ctx else none) holds ∧
      ((matching >>= k) s).Course es holds s' := by
  rw [bind_apply]
  cases h with
  | @unwound _ u _ hu _ => exact ⟨.error u, rfl, hu.bind_error⟩
  | missed hm _ =>
    have hk : (k none s').Course [] (.ok false) s' := by
      rw [hnone]
      exact .done
    exact ⟨.ok false, rfl, by simpa using hm.bind_ok hk⟩
  | @asked _ _ s₂ _ holds hits hg _ =>
    obtain ⟨found, s₀, hm, -, -, rfl⟩ := hits
    rw [← hsome] at hg
    exact ⟨holds, rfl, hm.bind_ok hg⟩

theorem course_of_rescueTried {v : Value} {o : Outcome (Option Context)}
    (h : RescueTried ctx v clause s es o s') :
    ∃ meant, o = Except.map
        (fun b : Bool ↦ if b then some { ctx with scope := s.scopes.fresh } else none) meant ∧
      (within { ctx with scope := s.scopes.fresh } [v]
        (bindsRescued clause v { ctx with scope := s.scopes.fresh })
        (s.newScope ctx.scope).2).Course es meant s' := by
  obtain ⟨s₁, ht, rfl⟩ := h
  have htried : ∃ meant, o = Except.map
        (fun b : Bool ↦ if b then some { ctx with scope := s.scopes.fresh } else none) meant ∧
      (bindsRescued clause v { ctx with scope := s.scopes.fresh } _).Course es meant s₁ :=
    course_of_tried rfl (fun _ _ ↦ rfl) ht
  obtain ⟨meant, ho, hcourse⟩ := htried
  exact ⟨meant, ho, hcourse.restore s.held⟩

theorem rescue_cons (ctx : Context) (r : Raised) (clause : Rescue) (rest : List Rescue)
    (s : State) : rescue ctx r (clause :: rest) s =
      (within { ctx with scope := s.scopes.fresh } [r.value]
        (bindsRescued clause r.value { ctx with scope := s.scopes.fresh })
        (s.newScope ctx.scope).2).bind fun meant ↦
          if meant then within { ctx with scope := s.scopes.fresh } []
            (perform (.handling r
              (.statements clause.body { ctx with scope := s.scopes.fresh })))
          else rescue ctx r rest :=
  bind_apply (within { ctx with scope := s.scopes.fresh } [r.value] _) _ (s.newScope ctx.scope).2

theorem rescue_passed {o : Outcome Value} (hp : Passed (RescueTried ctx r.value) passed s es₁ s₁)
    (h : (rescue ctx r rest s₁).Course es₂ o s') :
    (rescue ctx r (passed ++ rest) s).Course (es₁ ++ es₂) o s' := by
  induction hp with
  | nil => exact h
  | cons ht _ ih =>
    obtain ⟨meant, hmeant, hcourse⟩ := course_of_rescueTried ht
    obtain rfl : meant = .ok false := by
      rcases meant with u | _ | _ <;> cases hmeant
      rfl
    rw [List.cons_append, rescue_cons, List.append_assoc]
    exact hcourse.bind_ok (ih h)

theorem rescue_course_iff {o : Outcome Value} :
    (rescue ctx r clauses s).Course es o s' ↔ Rescued ctx r clauses s es o s' := by
  refine ⟨rescue_course, ?_⟩
  rintro ⟨passed, rest, es₁, es₂, s₁, rfl, rfl, hp, hd⟩
  refine rescue_passed hp ?_
  cases hd with
  | exhausted h =>
    obtain ⟨rfl, rfl, rfl⟩ := h
    exact .done
  | unwound ht =>
    obtain ⟨meant, hmeant, hcourse⟩ := course_of_rescueTried ht
    rw [rescue_cons]
    obtain u | _ | _ := meant <;> cases hmeant
    exact hcourse.bind_error
  | taken ht hc =>
    obtain ⟨meant, hmeant, hcourse⟩ := course_of_rescueTried ht
    rw [rescue_cons]
    obtain u | _ | _ := meant <;> cases hmeant
    exact hcourse.bind_ok hc

end

section

variable (b : Body) (ctx : Context)

/-- All of a body but the part after `ensure`. -/
def guarded : Eval Value := do afterStatements b ctx (← attempt (statements ctx b.statements))

/-- How it ends. The clauses of `rescue` have to do with what the statements raise and with nothing
else, and the part after `else` with the value that the statements have. -/
inductive Guarded : State → List Episode → Outcome Value → State → Prop
  | unwound {s s' : State} {es : List Episode} {u : Unwind} : (∀ r, u ≠ .raise r) →
      (statements ctx b.statements s).Course es (.error u) s' → Guarded s es (.error u) s'
  | finished {s s' : State} {es : List Episode} {v : Value} : b.elseBody = none →
      (statements ctx b.statements s).Course es (.ok v) s' → Guarded s es (.ok v) s'
  | wentOn {s s₁ s' : State} {es₁ es₂ : List Episode} {v : Value} {o : Outcome Value}
      {more : List Expr} : b.elseBody = some more →
      (statements ctx b.statements s).Course es₁ (.ok v) s₁ →
      (holding [v] (statements ctx more) s₁).Course es₂ o s' → Guarded s (es₁ ++ es₂) o s'
  | raised {s s₁ s' : State} {es₁ es₂ : List Episode} {r : Raised} {o : Outcome Value} :
      (statements ctx b.statements s).Course es₁ (.error (.raise r)) s₁ →
      Rescued ctx r b.rescues s₁ es₂ o s' → Guarded s (es₁ ++ es₂) o s'

/-- What the part after `ensure` makes of an outcome: nothing, unless it unwinds itself. It is left
out after a limit was hit. -/
inductive Ensured : Outcome Value → State → List Episode → Outcome Value → State → Prop
  | leftOut {o : Outcome Value} {s : State} :
      b.ensure = none ∨ (∃ l, o = .error (.halt l)) → Ensured o s [] o s
  | kept {o : Outcome Value} {s s' : State} {es : List Episode} {more : List Expr} {v : Value} :
      b.ensure = some more → (∀ l, o ≠ .error (.halt l)) →
      (holding (outcomeValues o) (statements ctx more) s).Course es (.ok v) s' →
      Ensured o s es o s'
  | replaced {o : Outcome Value} {s s' : State} {es : List Episode} {more : List Expr}
      {u : Unwind} : b.ensure = some more → (∀ l, o ≠ .error (.halt l)) →
      (holding (outcomeValues o) (statements ctx more) s).Course es (.error u) s' →
      Ensured o s es (.error u) s'

variable {b ctx} {s s₁ s' : State} {es es₁ : List Episode} {o o₁ : Outcome Value}

theorem afterStatements_error {u : Unwind} (hu : ∀ r, u ≠ .raise r) :
    afterStatements b ctx (.error u) = unwind u := by
  cases u with
  | raise r => exact absurd rfl (hu r)
  | _ => rfl

theorem guarded_course_iff : (guarded b ctx s).Course es o s' ↔ Guarded b ctx s es o s' := by
  have hsplit : guarded b ctx s =
      (statements ctx b.statements s).attempt.bind (afterStatements b ctx) := bind_apply _ _ _
  rw [hsplit]
  constructor
  · intro h
    obtain ⟨u, rfl, hu⟩ | ⟨first, es₁, es₂, s₁, rfl, hfirst, hafter⟩ := h.bind
    · obtain ⟨o', ho, -⟩ := hu.attempt
      cases ho
    · obtain ⟨o', ho, hstatements⟩ := hfirst.attempt
      cases ho
      cases first with
      | ok v =>
        cases helse : b.elseBody with
        | some more =>
          simp only [afterStatements, helse] at hafter
          exact .wentOn helse hstatements hafter
        | none =>
          simp only [afterStatements, helse] at hafter
          obtain ⟨rfl, rfl, rfl⟩ := hafter.of_done
          rw [List.append_nil]
          exact .finished helse hstatements
      -- Only what is raised comes to the clauses. All else passes by them.
      | error u =>
        by_cases hraise : ∃ r, u = .raise r
        · obtain ⟨r, rfl⟩ := hraise
          exact .raised hstatements (rescue_course_iff.mp hafter)
        · have hne (r : Raised) : u ≠ .raise r := fun hu ↦ hraise ⟨r, hu⟩
          rw [afterStatements_error hne] at hafter
          obtain ⟨rfl, rfl, rfl⟩ := hafter.of_done
          rw [List.append_nil]
          exact .unwound hne hstatements
  · intro h
    cases h with
    | unwound hne hu =>
      rw [← List.append_nil es]
      refine hu.attempted.bind_ok ?_
      rw [afterStatements_error hne]
      exact .done
    | finished hnone hv =>
      rw [← List.append_nil es]
      refine hv.attempted.bind_ok ?_
      simp only [afterStatements, hnone]
      exact .done
    | wentOn hsome hv hmore =>
      refine hv.attempted.bind_ok ?_
      simp only [afterStatements, hsome]
      exact hmore
    | raised hr hrescue => exact hr.attempted.bind_ok (rescue_course_iff.mpr hrescue)

theorem ensuring_leftOut (h : b.ensure = none ∨ ∃ l, o = .error (.halt l)) :
    ensuring b.ensure ctx o = ofOutcome o := by
  obtain h | ⟨l, rfl⟩ := h
  · rw [h]
    rfl
  · cases b.ensure <;> rfl

theorem ensuring_some {more : List Expr} (h : b.ensure = some more)
    (ho : ∀ l, o ≠ .error (.halt l)) (s : State) : ensuring b.ensure ctx o s =
      (holding (outcomeValues o) (statements ctx more) s).bind fun _ ↦ Step.done o := by
  rw [h]
  refine Eq.trans (b := (holding (outcomeValues o) (statements ctx more) >>=
    fun _ ↦ ofOutcome o) s) ?_ (bind_apply _ _ _)
  cases o with
  | ok v => rfl
  | error u =>
    cases u with
    | halt l => exact absurd rfl (ho l)
    | _ => rfl

theorem ensuring_course_iff :
    (ensuring b.ensure ctx o₁ s₁).Course es o s' ↔ Ensured b ctx o₁ s₁ es o s' := by
  constructor
  · intro h
    by_cases hleft : b.ensure = none ∨ ∃ l, o₁ = .error (.halt l)
    · rw [ensuring_leftOut hleft] at h
      obtain ⟨rfl, rfl, rfl⟩ := h.of_done
      exact .leftOut hleft
    · obtain ⟨hensure, ho⟩ := not_or.mp hleft
      obtain ⟨more, hmore⟩ := Option.ne_none_iff_exists'.mp hensure
      have hnot (l : Limit) : o₁ ≠ .error (.halt l) := fun heq ↦ ho ⟨l, heq⟩
      rw [ensuring_some hmore hnot] at h
      obtain ⟨u, rfl, hu⟩ | ⟨v, es₁, es₂, s₂, rfl, hv, hrest⟩ := h.bind
      · exact .replaced hmore hnot hu
      · obtain ⟨rfl, rfl, rfl⟩ := hrest.of_done
        rw [List.append_nil]
        exact .kept hmore hnot hv
  · intro h
    cases h with
    | leftOut hleft =>
      rw [ensuring_leftOut hleft]
      exact .done
    | kept hmore hnot hv =>
      rw [ensuring_some hmore hnot, ← List.append_nil es]
      exact hv.bind_ok .done
    | replaced hmore hnot hu =>
      rw [ensuring_some hmore hnot]
      exact hu.bind_error

theorem attempt_bind_attempt {α β γ : Type} (x : Step α) (f : Outcome α → State → Step β)
    (g : Outcome β → State → Step γ) : (x.attempt.bind f).attempt.bind g =
      x.attempt.bind fun o s ↦ (f o s).attempt.bind g := by
  induction x with
  | done o s => rfl
  | wait t s resume ih => exact congrArg _ (funext fun o ↦ funext fun s ↦ ih o s)

theorem attempt_bind_done {α : Type} (x : Step α) : x.attempt.bind Step.done = x := by
  induction x with
  | done o s => rfl
  | wait t s resume ih => exact congrArg _ (funext fun o ↦ funext fun s ↦ ih o s)

theorem body_eq (b : Body) (ctx : Context) (s : State) :
    body b ctx s = (guarded b ctx s).attempt.bind (ensuring b.ensure ctx) := by
  have hsplit : (guarded b ctx s).attempt.bind (ensuring b.ensure ctx) =
      (statements ctx b.statements s).attempt.bind fun o s ↦
        (afterStatements b ctx o s).attempt.bind (ensuring b.ensure ctx) := by
    refine Eq.trans ?_ (attempt_bind_attempt _ (afterStatements b ctx) _)
    exact congrArg (fun x : Step Value ↦ x.attempt.bind _) (bind_apply _ _ _)
  rw [hsplit]
  cases hp : b.isProtected with
  | true =>
    have hbody : body b ctx = attempt (statements ctx b.statements) >>= fun first ↦
        attempt (afterStatements b ctx first) >>= ensuring b.ensure ctx := if_pos hp
    rw [hbody]
    refine (bind_apply _ _ _).trans (congrArg _ (funext fun first ↦ funext fun s ↦ ?_))
    exact bind_apply _ _ _
  | false =>
    have hbody : body b ctx = statements ctx b.statements := if_neg (by simp [hp])
    obtain ⟨stmts, rescues, elseBody, ensure, span⟩ := b
    simp only [Body.isProtected, Bool.or_eq_false_iff, Bool.not_eq_false',
      List.isEmpty_iff, Option.isSome_eq_false_iff, Option.isNone_iff_eq_none] at hp
    obtain ⟨⟨rfl, rfl⟩, rfl⟩ := hp
    rw [hbody]
    refine (attempt_bind_done _).symm.trans (congrArg _ (funext fun o ↦ funext fun s ↦ ?_))
    cases o with
    | ok v => rfl
    | error u => cases u <;> rfl

theorem body_course_iff : (body b ctx s).Course es o s' ↔
    ∃ es₁ es₂ o₁ s₁, es = es₁ ++ es₂ ∧ Guarded b ctx s es₁ o₁ s₁ ∧
      Ensured b ctx o₁ s₁ es₂ o s' := by
  rw [body_eq]
  constructor
  · intro h
    obtain ⟨u, rfl, hu⟩ | ⟨o₁, es₁, es₂, s₁, rfl, hfirst, hrest⟩ := h.bind
    · obtain ⟨o', ho, -⟩ := hu.attempt
      cases ho
    · obtain ⟨o', ho, hguarded⟩ := hfirst.attempt
      cases ho
      exact ⟨es₁, es₂, _, s₁, rfl, guarded_course_iff.mp hguarded, ensuring_course_iff.mp hrest⟩
  · rintro ⟨es₁, es₂, o₁, s₁, rfl, hguarded, hensured⟩
    exact (guarded_course_iff.mpr hguarded).attempted.bind_ok (ensuring_course_iff.mpr hensured)

/-- Once the rest has ended, the part after `ensure` is next, whether or not that comes to an end,
and after it the outcome of the rest stands. -/
theorem body_comes {more : List Expr} (h : Guarded b ctx s es₁ o₁ s₁) (hmore : b.ensure = some more)
    (ho : ∀ l, o₁ ≠ .error (.halt l)) : (body b ctx s).Comes es₁
      ((holding (outcomeValues o₁) (statements ctx more) s₁).bind fun _ ↦ Step.done o₁) := by
  rw [body_eq, ← ensuring_some hmore ho]
  exact (guarded_course_iff.mpr h).attempted.comes.bind _

end

/-- The scopes that were there have the same names and the same scopes around them, so that the same
variables are seen from there. -/
structure State.SeesAlike (s s' : State) : Prop where
  names : ∀ id, s.scopes.Made id → s'.scopes.names id = s.scopes.names id
  parent : ∀ id, s.scopes.Made id → s'.scopes.parent id = s.scopes.parent id
  owner : s.Housed → ∀ id name, s.scopes.Made id →
    s'.scopes.owner id name = s.scopes.owner id name

theorem State.Encloses.seesAlike {s s' : State} (h : s.Encloses s.scopes.all.size none s') :
    s.SeesAlike s' := by
  have hnames (id : ScopeId) (hm : s.scopes.Made id) : s'.scopes.names id = s.scopes.names id :=
    h.names id hm nofun
  refine ⟨hnames, h.parent, fun hs id name hm ↦ ?_⟩
  exact Scopes.owner_eq h.parent hnames (fun _ _ ho ↦ (hs.toHides.parent_open ho).1) hm

section

variable {ctx : Context} {r : Raised} {clause : Rescue} {clauses : List Rescue} {s s₁ s' : State}
  {es : List Episode} {m : Machine} {name : String} {there : ScopeId}

theorem Rescued.seesAlike {o : Outcome Value} (h : Rescued ctx r clauses s es o s') :
    s.SeesAlike s' := by
  have observes : Eval.Observes (.inside s.scopes.all.size none nofun) s (fun _ ↦ True)
      (rescue ctx r clauses) := .rescue ⟨trivial, trivial⟩ r fun _ _ ↦ trivial
  have encloses := (observes s (.of_same (Nat.le_refl _) rfl)).course (rescue_course_iff.mpr h)
  exact State.Encloses.seesAlike encloses

/-- A moment while the guard or the body of a clause is done that was tried in `s`. Both run in the
scope that was new then. -/
inductive InClause (ctx : Context) (r : Raised) (clause : Rescue) (s : State) : Machine → Prop
  | guard {e : Expr} {es : List Episode} {s₁ : State} {held : List Held} {m : Machine} :
      clause.guard = some e →
      Hits (rescueMatch clause.pattern { ctx with scope := s.scopes.fresh } r.value)
        (namesOf clause.pattern) (State.defined s.scopes.fresh)
        { (s.newScope ctx.scope).2 with held } es s₁ →
      (Machine.start (.eval e { ctx with scope := s.scopes.fresh }) s₁).Reaches m →
      InClause ctx r clause s m
  | body {es : List Episode} {s₁ : State} {held : List Held} {m : Machine} :
      RescueTried ctx r.value clause s es
        (.ok (some { ctx with scope := s.scopes.fresh })) s₁ →
      (Machine.start (.handling r (.statements clause.body { ctx with scope := s.scopes.fresh }))
        { s₁ with held }).Reaches m →
      InClause ctx r clause s m

/-- The new scope of a clause is inside of the one where the body stands and binds the names of the
pattern, and besides only such as are not seen from out there. No older scope got a name. -/
structure ClauseScope (ctx : Context) (clause : Rescue) (s t : State) : Prop where
  older : s.Encloses s.scopes.all.size none t
  made : t.scopes.Made s.scopes.fresh
  parent : t.scopes.parent s.scopes.fresh = some ctx.scope
  binds : ∀ name there, s.scopes.Made ctx.scope → s.scopes.owner ctx.scope name = some there →
    name ∉ namesOf clause.pattern → t.scopes.binds name s.scopes.fresh = false

namespace ClauseScope

variable {t t' : State}

theorem owner_outside (h : ClauseScope ctx clause s t)
    (hseen : s.scopes.owner ctx.scope name = some there) :
    t.scopes.owner ctx.scope name = some there :=
  Scopes.owner_same h.older.parent (fun id hm ↦ h.older.names id hm nofun) hseen

theorem owner_inside (h : ClauseScope ctx clause s t) (hm : s.scopes.Made ctx.scope)
    (hseen : s.scopes.owner ctx.scope name = some there) (hname : name ∉ namesOf clause.pattern) :
    t.scopes.owner s.scopes.fresh name = some there :=
  Scopes.owner_of_parent (h.binds name there hm hseen hname) h.parent hm (h.owner_outside hseen)

theorem new (ctx : Context) (clause : Rescue) (s : State) (held : List Held) :
    ClauseScope ctx clause s { (s.newScope ctx.scope).2 with held } where
  older := .trans (.newScope (Nat.le_refl _) ctx.scope)
    (.of_same (by simp [State.newScope, Scopes.child]) rfl)
  made := by simp [State.newScope, Scopes.child, Scopes.Made, Scopes.fresh]
  parent := Scopes.parent_push_fresh
  binds name there _ _ _ := by
    have hempty : (s.scopes.child ctx.scope).bindings s.scopes.fresh = .empty :=
      (Scopes.bindings_push _).trans s.scopes.bindings_fresh
    simp only [State.newScope, Scopes.binds, hempty]
    rfl

theorem becomes (h : ClauseScope ctx clause s t)
    (hb : ∀ R : Regime, R.IsLenient → R.Fit t →
      Context.Open R t { ctx with scope := s.scopes.fresh } → R.Becomes t t') :
    ClauseScope ctx clause s t' := by
  have hold : t.Encloses s.scopes.all.size none t' :=
    hb (.inside s.scopes.all.size none nofun) (Regime.inside_isLenient ..) h.older.size
      ⟨.inl (Nat.le_refl _), trivial⟩
  have hnew : t.Encloses (s.scopes.all.size + 1) (some s.scopes.fresh) t' := by
    refine hb (.inside _ (some s.scopes.fresh) fun id hid ↦ ?_) (Regime.inside_isLenient ..) h.made
      ⟨.inr rfl, trivial⟩
    cases hid
    exact Nat.lt_succ_self _
  refine ⟨h.older.trans hold, ?_, (hnew.parent _ h.made).trans h.parent, ?_⟩
  · exact Nat.lt_of_lt_of_le h.made hnew.size
  · intro name there hm hseen hname
    have hinside := h.owner_inside hm hseen hname
    refine Bool.eq_false_iff.mpr fun hbound ↦ ?_
    obtain hbound | hnone := hnew.own _ name rfl hbound
    · rw [h.binds name there hm hseen hname] at hbound
      cases hbound
    · rw [hinside] at hnone
      cases hnone

theorem defined (h : ClauseScope ctx clause s t) {found : Matched}
    (hfound : ∀ b ∈ found, b.1 ∈ namesOf clause.pattern) :
    ClauseScope ctx clause s (State.defined s.scopes.fresh found t) := by
  induction found with
  | nil => exact h
  | cons b found ih =>
    obtain ⟨hb, hrest⟩ := List.forall_mem_cons.mp hfound
    have before := ih hrest
    have step : (State.defined s.scopes.fresh found t).Encloses s.scopes.all.size none
        (State.defined s.scopes.fresh (b :: found) t) :=
      .define before.older.size b.2 (.inl ⟨Nat.le_refl _, nofun⟩)
    refine ⟨before.older.trans step, Nat.lt_of_lt_of_le before.made step.size,
      (step.parent _ before.made).trans before.parent, fun name there hm hseen hname ↦ ?_⟩
    have hne : name ≠ b.1 := by
      rintro rfl
      exact hname hb
    exact (Scopes.binds_define_of_ne hne b.2 _).trans (before.binds name there hm hseen hname)

theorem of_hits {held : List Held}
    (h : Hits (rescueMatch clause.pattern { ctx with scope := s.scopes.fresh } r.value)
      (namesOf clause.pattern) (State.defined s.scopes.fresh)
      { (s.newScope ctx.scope).2 with held } es s₁) : ClauseScope ctx clause s s₁ := by
  obtain ⟨found, s₀, hmatch, -, hnames, rfl⟩ := h
  have matched : ClauseScope ctx clause s s₀ := by
    refine (new ctx clause s held).becomes fun R _ hfit _ ↦ ?_
    exact (Eval.Observes.rescueMatch clause.pattern r.value _ (R.refl hfit)).course hmatch
  refine matched.defined fun b hb ↦ ?_
  have hmem : b.1 ∈ (namesOf clause.pattern).reverse := hnames ▸ List.mem_map_of_mem hb
  exact List.mem_reverse.mp hmem

theorem of_tried
    (h : RescueTried ctx r.value clause s es
      (.ok (some { ctx with scope := s.scopes.fresh })) s₁) : ClauseScope ctx clause s s₁ := by
  obtain ⟨s₂, ht, rfl⟩ := h
  generalize ho : (.ok (some { ctx with scope := s.scopes.fresh }) : Outcome (Option Context)) = o
    at ht
  cases ht with
  | unwound => cases ho
  | missed => cases ho
  | asked hits hguard _ =>
    have guarded := (of_hits hits).becomes fun R hR hfit hopen ↦
      (Eval.Observes.guardHolds hopen (fun _ _ ↦ hR.allows _) _ (R.refl hfit)).course hguard
    exact guarded.becomes fun R _ hfit _ ↦ R.same hfit rfl rfl rfl

end ClauseScope

theorem InClause.clauseScope (h : InClause ctx r clause s m) :
    ClauseScope ctx clause s m.work.state := by
  cases h with
  | @guard e es s₁ held _ hguard hits hr =>
    refine (ClauseScope.of_hits hits).becomes fun R hR hfit hopen ↦ ?_
    have htask : (Task.eval e { ctx with scope := s.scopes.fresh }).Open R s₁ :=
      ⟨hopen, hR.allows _⟩
    exact hr.becomes hfit htask
  | @body es s₁ held _ ht hr =>
    have tried : ClauseScope ctx clause s { s₁ with held } :=
      (ClauseScope.of_tried ht).becomes fun R _ hfit _ ↦ R.same hfit rfl rfl rfl
    refine tried.becomes fun R hR hfit hopen ↦ ?_
    have htask : (Task.handling r (.statements clause.body
        { ctx with scope := s.scopes.fresh })).Open R { s₁ with held } :=
      ⟨hopen, fun _ _ ↦ hR.allows _⟩
    exact hr.becomes hfit htask

end

/-- What comes of a body, of which all but the statements may be missing. The statements are done
first, each once and in turn. What they raise, and nothing else, is left to the clauses of `rescue`,
which are tried in turn up to the first that is meant or unwinds, and only that one is done; if none
is meant the same goes on outward. The part after `else` is done if the statements have a value.
However all this ends, unless a limit was hit, the part after `ensure` is done next and once, and
its unwinding is the outcome if it unwinds, else the outcome is what it was before.

Outside of a clause of `rescue` no other variables are seen than before, and inside of it those that
are seen outside, except for the names of its pattern, are the same variables. -/
theorem protected_bodies (b : Body) (ctx : Context) (s : State) :
    (∀ span, expression ⟨.protect b, span⟩ ctx = body b ctx) ∧
    (∀ o s', (Task.body b ctx).Gives s o s' ↔ (body b ctx).Gives s o s') ∧
    (∀ es o s', (body b ctx s).Course es o s' ↔
      ∃ es₁ es₂ o₁ s₁, es = es₁ ++ es₂ ∧ Guarded b ctx s es₁ o₁ s₁ ∧
        Ensured b ctx o₁ s₁ es₂ o s') ∧
    (∀ es o s₁ more, Guarded b ctx s es o s₁ → b.ensure = some more →
      (∀ l, o ≠ .error (.halt l)) → (body b ctx s).Comes es
        ((holding (outcomeValues o) (statements ctx more) s₁).bind fun _ ↦ Step.done o)) ∧
    (∀ stmts es o s', (statements ctx stmts s).Course es o s' →
      InTurn ctx .nil stmts s es o s') ∧
    (∀ r es o s', Rescued ctx r b.rescues s es o s' → s.SeesAlike s') ∧
    ∀ r clause m, InClause ctx r clause s m → s.SeesAlike m.work.state ∧
      ∀ name there, s.scopes.Made ctx.scope → s.scopes.owner ctx.scope name = some there →
        name ∉ namesOf clause.pattern →
        m.work.state.scopes.owner s.scopes.fresh name = some there ∧
        m.work.state.scopes.owner ctx.scope name = some there ∧
        ∀ v, (m.work.state.assign s.scopes.fresh name v).scopes.get? ctx.scope name = some v := by
  refine ⟨fun _ ↦ rfl, fun o s' ↦ Task.gives_iff rfl, fun _ _ _ ↦ body_course_iff,
    fun _ _ _ _ ↦ body_comes, fun _ _ _ _ ↦ statements_course, fun _ _ _ _ ↦ Rescued.seesAlike,
    fun r clause m h ↦ ⟨h.clauseScope.older.seesAlike, ?_⟩⟩
  intro name there hm hseen hname
  have inside := h.clauseScope.owner_inside hm hseen hname
  have outside := h.clauseScope.owner_outside hseen
  exact ⟨inside, outside, Scopes.get?_set_of_owner inside outside⟩

/-- `begin raise 1 rescue ensure end`. -/
def rescuedRaise : Body :=
  ⟨[⟨.jump .raise (some ⟨.literal (.int 1), .origin⟩), .origin⟩], [⟨none, none, [], .origin⟩], none,
    some [], .origin⟩

/-- In the clause `x` is what it is outside, and the part after `ensure` comes next. -/
theorem protected_bodies_rescuedRaise :
    let s : State := (State.initial ⟨none, 8, false⟩).define State.mainScope "x" (.int 0)
    let ctx := State.topContext
    ∃ r es es' s₁ s₂ m, InTurn ctx .nil rescuedRaise.statements s es (.error (.raise r)) s₁ ∧
      (body rescuedRaise ctx s).Comes (es ++ es')
        ((holding [.nil] (statements ctx []) s₂).bind fun _ ↦ Step.done (.ok .nil)) ∧
      s₁.SeesAlike s₂ ∧ InClause ctx r ⟨none, none, [], .origin⟩ s₁ m ∧
      m.work.state.scopes.owner s₁.scopes.fresh "x" = some State.mainScope := by
  intro s ctx
  obtain ⟨-, -, -, hensured, hturn, -⟩ := protected_bodies rescuedRaise ctx s
  obtain ⟨e, r, s₁, he, hraise, hmade, hx⟩ : ∃ e r s₁, rescuedRaise.statements = [e] ∧
      (Machine.start (.eval e ctx) s).run 9 = some (.error (.raise r), s₁) ∧
      s₁.scopes.Made ctx.scope ∧ s₁.scopes.owner ctx.scope "x" = some State.mainScope :=
    ⟨_, _, _, rfl, rfl, Nat.one_lt_two, rfl⟩
  obtain ⟨es, raised⟩ : ∃ es,
      (statements ctx rescuedRaise.statements s).Course es (.error (.raise r)) s₁ := by
    rw [he]
    exact ⟨_, .wait hraise .done⟩
  obtain ⟨-, -, -, -, -, hrescued, hclause⟩ := protected_bodies rescuedRaise ctx s₁
  obtain ⟨s', tried⟩ : ∃ s', RescueTried ctx r.value ⟨none, none, [], .origin⟩ s₁ []
      (.ok (some { ctx with scope := s₁.scopes.fresh })) s' :=
    ⟨_, rescueTried_course (o := .ok true) .done⟩
  obtain ⟨s₂, es', code⟩ : ∃ s₂ es', (within { ctx with scope := s₁.scopes.fresh } [] (perform
      (.handling r (.statements [] { ctx with scope := s₁.scopes.fresh }))) s').Course es'
        (.ok .nil) s₂ := ⟨_, @Step.exists_course _ _ 9 9 _ _ rfl⟩
  have rescued : Rescued ctx r rescuedRaise.rescues s₁ es' (.ok .nil) s₂ :=
    (Decided.taken tried code).settled
  have clause : InClause ctx r ⟨none, none, [], .origin⟩ s₁
      (Machine.start (.handling r (.statements [] { ctx with scope := s₁.scopes.fresh }))
        { s' with held := [] }) := .body tried .refl
  obtain ⟨-, hseen⟩ := hclause r _ _ clause
  exact ⟨r, es, es', s₁, s₂, _, hturn _ _ _ _ raised,
    hensured _ _ _ _ (.raised raised rescued) rfl nofun, hrescued r _ _ _ rescued, clause,
    (hseen "x" _ hmade hx List.not_mem_nil).1⟩

end Quill
