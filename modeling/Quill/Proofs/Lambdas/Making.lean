import Quill.Proofs.Lambdas.Expression
import Quill.Proofs.Passing

/-!
# Which task makes which lambda

The evaluation of an expression in which a block is written makes one lambda of the block, and no
other task makes any. If the block belongs to a call, the lambda is made when the operands have
their values; from then on the evaluation waits for the message alone, and ends a `break` out of
that lambda. Main statement: `Task.work_obeys`.
-/

namespace Quill

open Tracked

namespace Unwind

def isBlockBreak : Unwind → Bool
  | blockBreak .. => true
  | _ => false

end Unwind

namespace Step

variable {α : Type} {P : α → Prop}

theorem bind_done (x : Step α) : (x.bind fun a s ↦ done (.ok a) s) = x := by
  induction x with
  | done o s => cases o <;> rfl
  | wait t s resume ih => exact congrArg (wait t s) (funext₂ ih)

theorem Ends.restoring {x : Step α} (before : List Held) (hx : x.Ends P) :
    (x.restoring before).Ends P := by
  induction x with
  | done o s => exact hx
  | wait t s resume ih => exact fun o s' ↦ ih o s' (hx o s')

end Step

/-- Ends in no `break` out of a block by itself and lets those pass that come up. If it has a value,
that is as `Q` says. -/
def Eval.LetsBreaks {α : Type} (Q : α → Prop) (x : Eval α) : Prop :=
  ∀ s, (x s).Passes (fun _ ↦ True) (·.isBlockBreak = true) ∧ (x s).Ends Q

namespace Eval.LetsBreaks

variable {α β : Type} {P : α → Prop} {Q : β → Prop} {x : Eval α} {f : α → Eval β}
  {ctx : Context} {b : Option BlockArg}

theorem pure {a : α} (ha : P a) : LetsBreaks P (Pure.pure a) := by
  refine fun _ ↦ ⟨nofun, ?_⟩
  rintro _ ⟨⟩
  exact ha

theorem bind (hx : LetsBreaks P x) (hf : ∀ a, P a → LetsBreaks Q (f a)) :
    LetsBreaks Q (x >>= f) := by
  intro s
  rw [bind_apply]
  exact ⟨(hx s).1.bind_ends (hx s).2 fun a s' ha ↦ (hf a ha s').1,
    (hx s).2.bind_ends fun a s' ha ↦ (hf a ha s').2⟩

theorem read (f : State → α) : LetsBreaks (fun _ ↦ True) (read f) :=
  fun _ ↦ ⟨nofun, fun _ _ ↦ trivial⟩

theorem perform (t : Task) : LetsBreaks (fun _ ↦ True) (perform t) :=
  fun _ ↦ ⟨⟨fun _ _ s' _ ↦ ⟨s', rfl⟩, fun _ _ ho ↦ ho trivial⟩, fun _ _ _ _ ↦ trivial⟩

theorem holding (vs : List Value) (hx : LetsBreaks P x) : LetsBreaks P (holding vs x) :=
  fun _ ↦ ⟨(hx _).1.restoring _, (hx _).2.restoring _⟩

theorem fault (f : Fault) (span : Span) : LetsBreaks P (fault f span) := by
  refine fun _ ↦ ⟨?_, nofun⟩
  rintro u ⟨⟩
  exact nofun

theorem inspectAnyway (v : Value) : LetsBreaks (fun _ ↦ True) (inspectAnyway v) :=
  .bind (.perform _) fun _ _ ↦ .read _

theorem values (es : List Expr) (ctx : Context) :
    LetsBreaks (fun _ ↦ True) (values es ctx) := by
  have onto (done : List Value) : LetsBreaks (fun _ ↦ True) (valuesOnto ctx done es) := by
    induction es generalizing done with
    | nil => exact .pure trivial
    | cons e rest ih => exact .bind (.holding _ (.perform _)) fun v _ ↦ ih (v :: done)
  exact onto []

theorem blockOf (hb : b.bind BlockArg.literal? = none) :
    LetsBreaks (·.2 = none) (blockOf b ctx) := by
  match b with
  | none => exact .pure rfl
  | some (.literal b) => cases hb
  | some (.pass e) =>
    refine .bind (.perform _) fun v _ ↦ ?_
    cases v with
    | nil => exact .pure rfl
    | lambda l => exact .pure rfl
    | _ => exact .bind (.inspectAnyway _) fun _ _ ↦ .fault _ _

theorem operands (args : List Expr) (hb : b.bind BlockArg.literal? = none) :
    LetsBreaks (·.2.2 = none) (operands args b ctx) :=
  .bind (.values args ctx) fun _ _ ↦ .bind (.holding _ (.blockOf hb)) fun _ h ↦ .pure h

theorem catchingBreak {l : Option LambdaId} {work : Eval Value} (hl : l = none)
    (h : LetsBreaks (fun _ ↦ True) work) : LetsBreaks (fun _ ↦ True) (catchingBreak l work) := by
  subst hl
  refine fun s ↦ ⟨?_, ?_⟩
  · change (Eval.attempt work >>= fun o ↦ _) s |>.Passes _ _
    rw [bind_apply]
    refine (h s).1.attempt_bind (fun o s' ho ↦ ?_) fun u s' hu ↦ ?_
    · rcases o with (r | v | v | ⟨id, v⟩ | v | l) | v
      case error.blockBreak => exact absurd rfl (ho _ rfl)
      case ok => exact nofun
      all_goals
        rintro u ⟨⟩
        exact nofun
    · cases u with
      | blockBreak id v => rfl
      | _ => cases hu
  · exact .any _

theorem callNamed (name : String) (args : List Value) (block : Option Value) (span : Span) :
    LetsBreaks (fun _ ↦ True) (callNamed name args block ctx span) := by
  refine .bind (.read _) fun v _ ↦ ?_
  match v with
  | some (.lambda l) => exact .perform _
  | none => exact .perform _
  | some .nil | some (.bool _) | some (.int _) | some (.float _) | some (.str _)
  | some (.symbol _) | some (.list _) | some (.type _) | some (.object _) =>
    exact .holding _ (.perform _)

theorem call {receiver : Option Expr} {name : String} {args : List Expr} {span : Span}
    (hb : b.bind BlockArg.literal? = none) :
    LetsBreaks (fun _ ↦ True) (call receiver name args b ctx span) := by
  cases receiver with
  | some e =>
    exact .bind (.perform _) fun v _ ↦ .bind (.holding _ (.operands args hb)) fun _ h ↦
      .catchingBreak h (.perform _)
  | none =>
    exact .bind (.operands args hb) fun _ h ↦ .catchingBreak h (.callNamed _ _ _ _)

theorem callSuper {args : Option (List Expr)} {span : Span}
    (hb : b.bind BlockArg.literal? = none) :
    LetsBreaks (fun _ ↦ True) (callSuper args b ctx span) := by
  unfold Eval.callSuper
  cases ctx.method with
  | none => exact .fault _ span
  | some frame =>
    have superBlock : LetsBreaks (·.2 = none) (superBlock b frame ctx) := by
      cases b with
      | some b => exact .blockOf hb
      | none => exact .pure rfl
    have send (vs : List Value) : LetsBreaks (fun _ ↦ True)
        (Eval.holding vs (Eval.superBlock b frame ctx) >>= fun p ↦
          Eval.catchingBreak p.2 (Eval.perform (.super frame ⟨ctx.self, vs, p.1, span⟩))) :=
      .bind (.holding vs superBlock) fun _ h ↦ .catchingBreak h (.perform _)
    dsimp only
    cases args with
    | some es => exact .bind (.values es ctx) fun vs _ ↦ send vs
    | none => exact .bind (.pure (P := fun _ ↦ True) trivial) fun vs _ ↦ send vs

theorem answering {work : Eval Value} (h : LetsBreaks (fun _ ↦ True) work) :
    LetsBreaks (fun _ ↦ True) (answering work) := .bind h fun _ _ ↦ .pure trivial

end Eval.LetsBreaks

def State.made (s₀ s : State) : List LambdaId :=
  (List.range' s₀.lambdas.size (s.lambdas.size - s₀.lambdas.size)).map (⟨·⟩)

namespace State

variable {s₀ s : State}

theorem made_eq_nil (h : s.lambdas = s₀.lambdas) : made s₀ s = [] := by simp [made, h]

theorem made_push {l : Lambda} (h : s.lambdas = s₀.lambdas.push l) :
    made s₀ s = [⟨s₀.lambdas.size⟩] := by
  simp [made, h]

end State

namespace Task

def lambda? : Task → Option Lambda
  | eval e ctx => e.block?.map (⟨·, ctx⟩)
  | _ => none

/-- Evaluates a call, or a call of the method that is hidden. -/
def isCall : Task → Bool
  | eval e _ => match e.kind with
    | .call .. | .super .. => true
    | _ => false
  | _ => false

/-- From one state to the other, no lambda is made or the one that the task makes, for the first
time. -/
def Makes (t : Task) (own : List LambdaId) (s₀ s : State) : Prop :=
  s.lambdas = s₀.lambdas ∨ own = [] ∧ ∃ l, t.lambda? = some l ∧ s.lambdas = s₀.lambdas.push l

end Task

/-- The work on a task that made the lambdas `own` before: as long as it keeps to the first `n`
lambdas, it makes at most the one that the task makes. A call ends those breaks that are out of
what it made itself. -/
def Step.Obeys (n : Nat) (t : Task) : Step Reply → State → List LambdaId → Prop
  | done o s, s₀, own => s.lambdas.size ≤ n → t.Makes own s₀ s ∧ Known n s ∧ Known n o ∧
      (t.lambda?.isSome → ∀ r, o = .ok r → own ++ s₀.made s ≠ [])
  | wait t' s resume, s₀, own => s.lambdas.size ≤ n → t.Makes own s₀ s ∧ Known n s ∧ Known n t' ∧
      (t.isCall → ∀ id v s', ∃ s'', resume (.error (.blockBreak id v)) s' =
        done (if id ∈ own ++ s₀.made s then .ok (.value v) else .error (.blockBreak id v)) s'') ∧
      ∀ o s', Known n s' → Known n o → (resume o s').Obeys n t s' (own ++ s₀.made s)

namespace Step.Obeys

variable {α : Type} [Tracked α] {n : Nat} {t : Task} {s₀ s₁ : State} {own : List LambdaId}

theorem of_earlier {x : Step Reply} (h : s₁.lambdas = s₀.lambdas) (hx : x.Obeys n t s₁ own) :
    x.Obeys n t s₀ own := by
  have hmade (s : State) : s₁.made s = s₀.made s := by simp only [State.made, h]
  have hmakes (s : State) : t.Makes own s₁ s = t.Makes own s₀ s := by simp only [Task.Makes, h]
  cases x with
  | done o s =>
    unfold Obeys at hx ⊢
    rwa [hmade, hmakes] at hx
  | wait t' s resume =>
    unfold Obeys at hx ⊢
    rwa [hmade, hmakes] at hx

theorem bind {x : Step α} {f : α → State → Step Reply} (hx : x.KeepsTo n s₀)
    (hp : t.isCall → x.Passes (fun _ ↦ True) (·.isBlockBreak = true))
    (hf : ∀ a s, Known n a → Known n s → (f a s).Obeys n t s []) :
    (x.bind f).Obeys n t s₀ [] := by
  induction x generalizing s₀ with
  | done o s =>
    obtain ⟨hl, hs, ho⟩ := hx
    cases o with
    | ok a => exact of_earlier hl (hf a s ho hs)
    | error u => exact fun _ ↦ ⟨.inl hl, hs, ho, fun _ r hr ↦ nomatch hr⟩
  | wait t' s resume ih =>
    obtain ⟨⟨hl, hs, ht'⟩, hresume⟩ := hx
    have hmade : [] ++ s₀.made s = [] := State.made_eq_nil hl
    refine fun _ ↦ ⟨.inl hl, hs, ht', fun hcall id v s' ↦ ?_, fun o s' hs' ho ↦ ?_⟩
    · obtain ⟨s'', h⟩ := (hp hcall).1 trivial (.blockBreak id v) s' rfl
      refine ⟨s'', (congrArg (Step.bind · f) h).trans ?_⟩
      rw [hmade]
      rfl
    · rw [hmade]
      by_cases hbreak : t.isCall ∧ ∃ u, o = .error u ∧ u.isBlockBreak = true
      · obtain ⟨hcall, u, rfl, hu⟩ := hbreak
        obtain ⟨s'', h⟩ := (hp hcall).1 trivial u s' hu
        have hkept := hresume _ s' hs' ho
        change Obeys n t ((resume (.error u) s').bind f) s' []
        rw [h] at hkept ⊢
        exact fun _ ↦ ⟨.inl hkept.1, hkept.2.1, hkept.2.2, fun _ r hr ↦ nomatch hr⟩
      · refine ih o s' (hresume o s' hs' ho) fun hcall ↦ (hp hcall).2 o s' fun _ u hu hub ↦ ?_
        exact hbreak ⟨hcall, u, hu, hub⟩

theorem of_keepsTo {x : Eval Reply} {s : State} (ht : t.lambda? = none)
    (hx : Eval.KeepsTo n x) (hp : t.isCall → Eval.LetsBreaks (fun _ ↦ True) x) (hs : Known n s) :
    (x s).Obeys n t s [] := by
  have hbind := bind (f := fun r s ↦ done (.ok r) s) (hx s hs) (fun hcall ↦ (hp hcall s).1)
    fun r s' hr hs' _ ↦ ⟨.inl rfl, hs', hr, fun hsome ↦ by simp [ht] at hsome⟩
  rwa [bind_done] at hbind

end Step.Obeys

namespace Eval

variable {n : Nat} {t : Task} {l : Lambda} {s : State} {ctx : Context} {b : Block}

/-- Makes the lambda of a call whose arguments have their values. -/
def withLambda (l : Lambda) (args : List Value) :
    Eval (List Value × Option Value × Option LambdaId) := do
  let id ← modifyGet (·.newLambda l)
  return (args, some (.lambda id), some id)

theorem operands_literal (args : List Expr) :
    operands args (some (.literal b)) ctx = values args ctx >>= withLambda ⟨b, ctx⟩ :=
  congrArg (values args ctx >>= ·) (funext₂ fun _ _ ↦ rfl)

/-- The lambda is made after the arguments have their values, whatever was held meanwhile. -/
theorem holding_withLambda (vs : List Value) (x : Eval (List Value)) :
    holding vs (x >>= withLambda l) = holding vs x >>= withLambda l := by
  have restored (before : List Held) (y : Step (List Value)) :
      (y.bind (withLambda l)).restoring before = (y.restoring before).bind (withLambda l) := by
    induction y with
    | done o s => cases o <;> rfl
    | wait t s resume ih => exact congrArg (Step.wait t s) (funext₂ ih)
  funext s
  rw [bind_apply]
  change Step.restoring s.held ((x >>= withLambda l) _) = _
  rw [bind_apply, restored]
  rfl

/-- Waits for a single task, whose outcome is its own. -/
def Sends (x : Eval Value) : Prop :=
  ∀ s, ∃ t s', ∃ after : State → State,
    x s = .wait t s' (fun o s'' ↦ .done o (after s'')) ∧ s'.lambdas = s.lambdas

namespace Sends

theorem perform (t : Task) : Sends (perform t) := fun s ↦ ⟨t, s, id, rfl, rfl⟩

theorem holding {x : Eval Value} (vs : List Value) (hx : Sends x) : Sends (holding vs x) := by
  intro s
  obtain ⟨t, s', after, hwait, hl⟩ := hx { s with held := ⟨vs, none⟩ :: s.held }
  exact ⟨t, s', _, congrArg (Step.restoring s.held) hwait, hl⟩

theorem callNamed (name : String) (args : List Value) (block : Option Value) (span : Span) :
    Sends (callNamed name args block ctx span) := by
  intro s
  rw [Eval.callNamed, read_bind]
  generalize s.scopes.get? ctx.scope name = v
  match v with
  | some (.lambda l) => exact perform _ s
  | none => exact perform _ s
  | some .nil | some (.bool _) | some (.int _) | some (.float _) | some (.str _)
  | some (.symbol _) | some (.list _) | some (.type _) | some (.object _) =>
    exact holding _ (perform _) s

end Sends

/-- How a call that made the lambda `id` ends, by the outcome of its message. -/
def caught (id : LambdaId) : Outcome Value → Outcome Reply
  | .ok v => .ok (.value v)
  | .error (.blockBreak id' v) =>
    if id' = id then .ok (.value v) else .error (.blockBreak id' v)
  | .error u => .error u

theorem answering_catchingBreak {work : Eval Value} (id : LambdaId) (h : Sends work) (s : State) :
    ∃ t s', ∃ after : State → State, answering (catchingBreak (some id) work) s =
      .wait t s' (fun o s'' ↦ .done (caught id o) (after s'')) ∧ s'.lambdas = s.lambdas := by
  obtain ⟨t, s', after, hwait, hl⟩ := h s
  refine ⟨t, s', after, ?_, hl⟩
  have hattempt : attempt work s = .wait t s' fun o s'' ↦ .done (.ok o) (after s'') :=
    congrArg Step.attempt hwait
  change ((attempt work s).andThen _).andThen _ = _
  rw [hattempt]
  refine congrArg (Step.wait t s') (funext₂ fun o s'' ↦ ?_)
  rcases o with (r | v | v | ⟨id', v⟩ | v | l) | v
  case error.blockBreak =>
    by_cases hown : id' = id
    · subst hown
      simp only [caught, Step.bind, if_true]
      rfl
    · have hother : some id ≠ some id' := fun h ↦ hown (Option.some.inj h).symm
      simp only [caught, Step.bind, if_neg hown, if_neg hother]
      rfl
  all_goals rfl

/-- Once the operands of a call have their values, it makes its lambda and sends the message. -/
theorem message_obeys (work : List Value → Option Value → Eval Value) {args : List Value}
    (ht : t.lambda? = some l) (hl : Known n l) (hs : Known n s)
    (hsends : ∀ block, Sends (work args block))
    (hkeeps : ∀ block, Known n block → KeepsTo n (work args block)) :
    (answering (withLambda l args >>= fun (args, block, literal) ↦
      catchingBreak literal (work args block)) s).Obeys n t s [] := by
  have hcall := answering_catchingBreak ⟨s.lambdas.size⟩
    (hsends (some (.lambda ⟨s.lambdas.size⟩))) (s.newLambda l).2
  obtain ⟨t', s', after, hwait, hsame⟩ := hcall
  have hpush : s'.lambdas = s.lambdas.push l := hsame
  have hmade : [] ++ s.made s' = [⟨s.lambdas.size⟩] := State.made_push hpush
  change Step.Obeys n t (answering (catchingBreak _ _) (s.newLambda l).2) s []
  rw [hwait]
  intro hn
  -- Once the lambda is made it is one of the first `n`, so the message may carry it.
  have hid : s.lambdas.size < n := by rwa [hpush, Array.size_push] at hn
  have hs₁ : Known n (s.newLambda l).2 := { hs with lambdas := hs.lambdas.push hl }
  have hkept := KeepsTo.answering (.catchingBreak (l := some ⟨s.lambdas.size⟩)
    (hkeeps (some (.lambda ⟨s.lambdas.size⟩)) hid)) _ hs₁
  rw [hwait] at hkept
  obtain ⟨⟨-, hs', ht'⟩, hends⟩ := hkept
  rw [hmade]
  refine ⟨.inr ⟨rfl, l, ht, hpush⟩, hs', ht', fun _ id v s'' ↦ ⟨after s'', ?_⟩, ?_⟩
  · simp only [caught, List.mem_singleton]
  · intro o s'' hs'' ho _
    obtain ⟨hl', hs₂, ho'⟩ := hends o s'' hs'' ho
    exact ⟨.inl hl', hs₂, ho', fun _ _ _ ↦ by simp⟩

section

variable {args : List Expr} {name : String} {span : Span}

theorem operand_obeys {α : Type} [Tracked α] {P : α → Prop} {x : Eval α} {f : α → Eval Value}
    (hx : KeepsTo n x) (hp : LetsBreaks P x) (hs : Known n s)
    (hf : ∀ a s', Known n a → Known n s' → (answering (f a) s').Obeys n t s' []) :
    (answering (x >>= f) s).Obeys n t s [] := by
  have same : answering (x >>= f) = x >>= fun a ↦ answering (f a) := bind_bind _ _ _
  rw [same, bind_apply]
  exact .bind (hx s hs) (fun _ ↦ (hp s).1) hf

theorem call_obeys {receiver : Option Expr} (ht : t.lambda? = some ⟨b, ctx⟩)
    (hctx : Known n ctx) (hs : Known n s) :
    (answering (call receiver name args (some (.literal b)) ctx span) s).Obeys n t s [] := by
  cases receiver with
  | some e =>
    change Step.Obeys n t (answering (eval e ctx >>= fun v ↦
      holding [v] (operands args (some (.literal b)) ctx) >>= fun (args, block, literal) ↦
        catchingBreak literal (send v name args block span)) s) s []
    refine operand_obeys (.eval hctx) (.perform _) hs fun v s' hv hs' ↦ ?_
    rw [operands_literal, holding_withLambda, bind_bind]
    refine operand_obeys (.holding (.single hv) (.values hctx)) (.holding _ (.values args ctx)) hs'
      fun vs s'' hvs hs'' ↦ ?_
    exact message_obeys (fun vs block ↦ send v name vs block span) ht hctx hs''
      (fun _ ↦ .perform _) fun _ hblock ↦ .send hv hvs hblock
  | none =>
    change Step.Obeys n t (answering (operands args (some (.literal b)) ctx >>=
      fun (args, block, literal) ↦ catchingBreak literal (callNamed name args block ctx span)) s)
      s []
    rw [operands_literal, bind_bind]
    refine operand_obeys (.values hctx) (.values args ctx) hs fun vs s' hvs hs' ↦ ?_
    exact message_obeys (fun vs block ↦ callNamed name vs block ctx span) ht hctx hs'
      (fun _ ↦ .callNamed _ _ _ _) fun _ hblock ↦ .callNamed hctx hvs hblock

theorem callSuper_obeys {args : Option (List Expr)} (ht : t.lambda? = some ⟨b, ctx⟩)
    (hctx : Known n ctx) (hs : Known n s) :
    (answering (callSuper args (some (.literal b)) ctx span) s).Obeys n t s [] := by
  unfold callSuper
  cases hmethod : ctx.method with
  | none =>
    have hkept := KeepsTo.fault (α := Value) .superOutside span s hs
    exact fun _ ↦ ⟨.inl hkept.1, hkept.2.1, hkept.2.2, fun _ _ h ↦ nomatch h⟩
  | some frame =>
    have hframe : Known n frame := hctx.2.of_some hmethod
    have sends (vs : List Value) (s' : State) (hvs : Known n vs) (hs' : Known n s') :
        (answering (holding vs (superBlock (some (.literal b)) frame ctx) >>= fun p ↦
          catchingBreak p.2 (perform (.super frame ⟨ctx.self, vs, p.1, span⟩))) s').Obeys
          n t s' [] :=
      message_obeys (fun vs block ↦ perform (.super frame ⟨ctx.self, vs, block, span⟩))
        ht hctx hs' (fun _ ↦ .perform _) fun _ hblock ↦ .perform ⟨hframe, hctx.1, hvs, hblock⟩
    dsimp only
    cases args with
    | some es => exact operand_obeys (.values hctx) (.values es ctx) hs sends
    | none =>
      exact operand_obeys (.pure hframe.1) (.pure (P := fun _ ↦ True) trivial) hs sends

theorem expression_obeys (e : Expr) (hctx : Known n ctx) (hs : Known n s) :
    (answering (expression e ctx) s).Obeys n (.eval e ctx) s [] := by
  have lambda {l : Option Block} (h : e.block? = l) :
      (Task.eval e ctx).lambda? = l.map (⟨·, ctx⟩) :=
    congrArg (Option.map fun b ↦ (⟨b, ctx⟩ : Lambda)) h
  have makesNone (h : e.block? = none)
      (hp : (Task.eval e ctx).isCall → LetsBreaks (fun _ ↦ True) (expression e ctx)) :
      (answering (expression e ctx) s).Obeys n (.eval e ctx) s [] :=
    .of_keepsTo (lambda h) (.answering (.expression h hctx)) (fun hcall ↦ .answering (hp hcall)) hs
  obtain ⟨kind, span⟩ := e
  cases kind with
  | call receiver method args block =>
    match block with
    | some (.literal b) => exact call_obeys (lambda rfl) hctx hs
    | some (.pass e) => exact makesNone rfl fun _ ↦ .call rfl
    | none => exact makesNone rfl fun _ ↦ .call rfl
  | super args block =>
    match block with
    | some (.literal b) => exact callSuper_obeys (lambda rfl) hctx hs
    | some (.pass e) => exact makesNone rfl fun _ ↦ .callSuper rfl
    | none => exact makesNone rfl fun _ ↦ .callSuper rfl
  | block b =>
    intro hn
    have hpush : (s.newLambda ⟨b, ctx⟩).2.lambdas = s.lambdas.push ⟨b, ctx⟩ := rfl
    have hid : s.lambdas.size < n := by
      change (s.lambdas.push _).size ≤ n at hn
      rwa [Array.size_push] at hn
    refine ⟨.inr ⟨rfl, _, lambda rfl, hpush⟩, { hs with lambdas := hs.lambdas.push hctx }, hid, ?_⟩
    intro _ _ _
    change [] ++ s.made (s.newLambda ⟨b, ctx⟩).2 ≠ []
    rw [State.made_push hpush]
    simp
  | _ => exact makesNone rfl nofun

end

end Eval

open Eval

theorem Task.work_obeys {n : Nat} {t : Task} {s : State} (ht : Known n t) (hs : Known n s) :
    (t.work s).Obeys n t s [] := by
  cases t with
  | eval e ctx =>
    have counted : Known n { s with steps := s.steps + 1 } := { hs with }
    have same : ({ s with steps := s.steps + 1 } : State).lambdas = s.lambdas := rfl
    rw [work_eval]
    apply Step.Obeys.of_earlier same
    obtain h | ⟨l, -, -, h⟩ := tick_cases s <;> rw [h]
    · exact expression_obeys e ht counted
    · exact fun _ ↦ ⟨.inl rfl, counted, trivial, fun _ _ h ↦ nomatch h⟩
  | framed frame t =>
    rw [work_framed]
    split
    · exact fun _ ↦ ⟨.inl rfl, hs, trivial, fun _ _ h ↦ nomatch h⟩
    · refine fun _ ↦ ⟨.inl rfl, { hs with }, ht, nofun, fun o s' hs' ho _ ↦ ?_⟩
      refine ⟨.inl rfl, { hs' with }, ?_, nofun⟩
      cases o <;> exact ho
  | handling r t =>
    rw [work_handling]
    have handled : Known n { s with rescuing := r :: s.rescuing } :=
      { hs with rescuing := .cons ht.1 hs.rescuing }
    refine fun _ ↦ ⟨.inl rfl, handled, ht.2, nofun, fun o s' hs' ho _ ↦ ?_⟩
    have rest : Known n s'.rescuing.tail :=
      fun r hr ↦ hs'.rescuing r (List.mem_of_mem_tail hr)
    refine ⟨.inl rfl, { hs' with rescuing := rest }, ?_, nofun⟩
    cases o <;> exact ho
  | statements es ctx => exact .of_keepsTo rfl (.answering (.statements ht es)) nofun hs
  | body b ctx => exact .of_keepsTo rfl (.answering (.body ht)) nofun hs
  | guard e ctx => exact .of_keepsTo rfl (.answering (.eval ht)) nofun hs
  | send name c => exact .of_keepsTo rfl (.answering (.deliver ht)) nofun hs
  | super frame c => exact .of_keepsTo rfl (.answering (.deliverSuper ht.2)) nofun hs
  | callLambda l args block span =>
    exact .of_keepsTo rfl (.answering (.callBlock ht.1 ht.2.1 ht.2.2)) nofun hs
  | native m c => exact .of_keepsTo rfl (.answering (m.routine.run_keepsTo ht)) nofun hs
  | describe v => exact .of_keepsTo rfl (.describe ht) nofun hs
  | rawText v => exact .of_keepsTo rfl (.rawText ht) nofun hs
  | loop condition es ctx => exact .of_keepsTo rfl (.loopRound ht) nofun hs
  | forEach p es ctx span list index => exact .of_keepsTo rfl (.forRound ht) nofun hs
  | visit v list block span index => exact .of_keepsTo rfl (.visitRound ht.1 ht.2) nofun hs
  | times left index block span => exact .of_keepsTo rfl (.timesRound ht) nofun hs

end Quill
