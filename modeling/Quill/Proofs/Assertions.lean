import Quill.Proofs.Calls
import Quill.Proofs.Fresh
import Quill.Proofs.StepLimit
import Quill.Proofs.Stacks

/-!
# Assertions

A check compares the value of an assertion with what is expected, makes a description of both, and
only then does it look at the result of the comparison. So it returns the assertion, or raises an
error that carries value, expectation and description, as the result tells, wherever the messages
before that are answered and both are shown by a text. Main statement: `checks_report`. A value that
is shown by something else fails a check that it should pass: `passing_check_fails`.
-/

namespace Quill

open Eval

/-- The checks that compare a value with an expectation. -/
inductive Check where
  | equals | notEquals | lessThan | greaterThan
  deriving DecidableEq

namespace Check

def name : Check → String
  | equals => "equals"
  | notEquals => "not_equals"
  | lessThan => "less_than"
  | greaterThan => "greater_than"

def param : Check → String
  | equals | notEquals => "expected"
  | lessThan | greaterThan => "bound"

def operator : Check → Operator
  | equals => .eq
  | notEquals => .notEq
  | lessThan => .less
  | greaterThan => .greater

def relation : Check → String
  | equals => " to equal "
  | notEquals => " not to equal "
  | lessThan => " to be less than "
  | greaterThan => " to be greater than "

def result (c : Check) (v : Value) : Value := if c.operator = .notEq then .bool (!v.isTruthy) else v

def description (c : Check) (value expectation : String) : String :=
  "expected " ++ value ++ c.relation ++ expectation

def descriptionCode (c : Check) : Code :=
  .operation .add
    (.operation .add
      (.operation .add (.operand (.text "expected "))
        (.ask (.operand (.attr "value")) "inspect" []))
      (.operand (.text c.relation)))
    (.ask (.operand (.name c.param)) "inspect" [])

def code (c : Check) : Code :=
  .tell "check" [.operation c.operator (.operand (.attr "value")) (.operand (.name c.param)),
    .operand (.name c.param), c.descriptionCode]

def verdictCode : Code :=
  .choice (.operand (.name "ok")) (.operand .self)
    (.raise (.ask (.operand (.constant "AssertionFailure")) "new"
      [.operand (.attr "value"), .operand (.name "expected"), .operand (.name "description")]))

def assertCode : Code := .ask (.operand (.constant "Assertion")) "new" [.operand (.name "value")]

/-- The attributes of an assertion, with the parameters that they get the values of. -/
def fields : List (String × String) := [("value", "value")]

def failureFields : List (String × String) :=
  [("left", "left"), ("right", "right"), ("description", "description"),
    ("message", "description")]

end Check

def Routine.joinEntry : Entry := fixed .string .string "+" [.string] (.text .concat)

/-- The types for assertions and for their failures have the methods of the prelude, which uses
`new` and the `+` of texts as they are from the start. -/
structure Types.HasAssertions (ts : Types) (assertion failure : TypeId) : Prop where
  begins : ts.Defines assertion "initialize" assertion ["value"]
    (Check.fields.map fun f ↦ .set f.1 (.operand (.name f.2)))
  checks (c : Check) : ts.Defines assertion c.name assertion [c.param] [c.code]
  decides : ts.Defines assertion "check" assertion ["ok", "expected", "description"]
    [Check.verdictCode]
  fails : ts.Defines failure "initialize" failure ["left", "right", "description"]
    (Check.failureFields.map fun f ↦ .set f.1 (.operand (.name f.2)))
  made : ts.Instantiable assertion
  failure_made : ts.Instantiable failure
  seen : ts.Sees assertion "AssertionFailure" failure
  joins : ts.offers .string Routine.joinEntry = true

def Types.hasAssertions (ts : Types) (assertion failure : TypeId) : Bool :=
  ts.defines assertion "initialize" assertion ["value"]
      (Check.fields.map fun f ↦ .set f.1 (.operand (.name f.2))) &&
    [Check.equals, .notEquals, .lessThan, .greaterThan].all
      (fun c ↦ ts.defines assertion c.name assertion [c.param] [c.code]) &&
    ts.defines assertion "check" assertion ["ok", "expected", "description"]
      [Check.verdictCode] &&
    ts.defines failure "initialize" failure ["left", "right", "description"]
      (Check.failureFields.map fun f ↦ .set f.1 (.operand (.name f.2))) &&
    ts.instantiable assertion && ts.instantiable failure &&
    ts.sees assertion "AssertionFailure" failure && ts.offers .string Routine.joinEntry

theorem Types.HasAssertions.of_checked {ts : Types} {assertion failure : TypeId}
    (h : ts.hasAssertions assertion failure = true) : ts.HasAssertions assertion failure := by
  simp only [hasAssertions, Bool.and_eq_true, List.all_eq_true] at h
  obtain ⟨⟨⟨⟨⟨⟨⟨hbegins, hchecks⟩, hdecides⟩, hfails⟩, hmade⟩, hfailure⟩, hseen⟩, hjoins⟩ := h
  exact ⟨.of_checked hbegins, fun c ↦ .of_checked (hchecks c (by cases c <;> simp)),
    .of_checked hdecides, .of_checked hfails, .of_checked hmade, .of_checked hfailure,
    .of_checked hseen, hjoins⟩

section

variable {s s' : State} {assertion failure : TypeId} {a : ObjectId} {v e w : Value}
  {ctx : Context} {o : Outcome Value}

/-- The assertion is about the value, and assertions are as in the prelude. -/
structure State.Asserting (s : State) (assertion failure : TypeId) (a : ObjectId) (v : Value) :
    Prop extends s.types.HasAssertions assertion failure where
  type : s.typeOf (.object a) = assertion
  value : s.attr (.object a) "value" = v

theorem State.Asserting.of_same (h : s.Asserting assertion failure a v)
    (ht : s'.types = s.types) (ho : s'.objects = s.objects) :
    s'.Asserting assertion failure a v where
  toHasAssertions := ht ▸ h.toHasAssertions
  type := by
    rw [← h.type, typeOf, object, ho]
    rfl
  value := by
    rw [← h.value, attr, object, ho]
    rfl

/-- The instance is the failure of an assertion about `v` where `e` was expected. -/
structure State.Reports (s : State) (failure : TypeId) (w v e text : Value) : Prop where
  type : s.typeOf w = failure
  left : s.attr w "left" = v
  right : s.attr w "right" = e
  description : s.attr w "description" = text
  message : s.attr w "message" = text

/-- The settings and the calls in progress are the same, and at least `n` more steps are
counted. -/
structure State.Settles (s : State) (n : Nat) (s' : State) : Prop where
  config : s'.config = s.config
  frames : s'.frames = s.frames
  steps : s.steps + n ≤ s'.steps

namespace State.Settles

variable {n k : Nat}

theorem room (h : s.Settles n s') (hs : s.frames.size + k ≤ s.config.maxCallDepth) :
    s'.frames.size + k ≤ s'.config.maxCallDepth := by
  rw [h.frames, h.config]
  exact hs

theorem allows (h : s.Settles n s') (hs : s'.Allows k) : s.Allows (n + k) :=
  hs.later h.config.symm (by have := h.steps; omega)

end State.Settles

theorem Task.Gives.settles {t : Task} {asked : State} {n : Nat} (h : t.Gives asked o s')
    (hc : asked.config = s.config) (hf : asked.frames = s.frames) (hn : asked.steps = s.steps + n) :
    s.Settles n s' := by
  obtain ⟨fuel, hrun⟩ := h
  have later := State.later_spans t asked fuel o s' hrun
  exact ⟨later.config.trans hc, (Machine.run_stacked hrun).frames_eq.trans hf, hn ▸ later.steps⟩

/-- Texts are joined as from the start, and there is room for the call. -/
structure State.Joins (s : State) : Prop where
  offered : s.types.offers .string Routine.joinEntry = true
  room : s.frames.size < s.config.maxCallDepth

theorem Task.CallsFor.gives {t : Task} {x : Eval Value} (h : t.CallsFor x s)
    (hx : ∀ held frames, x.Gives { s with held, frames } o { s with held, frames }) :
    t.Gives s o s := by
  obtain ⟨held, frame, hcall⟩ := h
  have hgives := hcall _ _ (hx held (s.frames.push frame))
  rwa [Array.pop_push] at hgives

theorem Task.Gives.joined (h : s.Joins) (x y : String) (span : Span) :
    (Task.send "+" ⟨.str x, [.str y], none, span⟩).Gives s (.ok (.str (x ++ y))) s :=
  (Task.CallsFor.offered (e := Routine.joinEntry) (c := ⟨.str x, [.str y], none, span⟩) h.offered
    rfl rfl rfl h.room).gives fun _ _ ↦ .pure _ _

theorem Task.Gives.sum {s₁ s₂ : State} {held : List Held} {sum l r : Expr} {x y : String}
    (hs : s.Allows 1) (hsum : sum.kind = .binary .add l r)
    (hl : (Task.eval l ctx).Gives { s with steps := s.steps + 1 } (.ok (.str x)) s₁)
    (hheld : s₁.held = held)
    (hr : (Task.eval r ctx).Gives { s₁ with held := ⟨[.str x], none⟩ :: held } (.ok (.str y)) s₂)
    (h : s₂.Joins) : (Task.eval sum ctx).Gives s (.ok (.str (x ++ y))) { s₂ with held } := by
  subst hheld
  have hjoined := joined (s := { s₂ with held := s₁.held }) ⟨h.offered, h.room⟩ x y sum.span
  exact .operation hs hsum hl hr hjoined

theorem Check.described {c : Check} {x : Expr} (hx : c.descriptionCode.Spanned x) :
    ∃ span span', ∀ {s s₁ s₂ : State} {ctx : Context} {t u : String}, s.Allows 6 →
      s.attr ctx.self "value" = v →
      (Task.send "inspect" ⟨v, [], none, span⟩).Gives
        { s with steps := s.steps + 6, held := ⟨[.str "expected "], none⟩ :: s.held }
        (.ok (.str t)) s₁ →
      s₁.Joins → s₁.Allows 3 → s₁.scopes.get? ctx.scope c.param = some e →
      (Task.send "inspect" ⟨e, [], none, span'⟩).Gives
        { s₁ with
          steps := s₁.steps + 3
          held := ⟨[.str ("expected " ++ t ++ c.relation)], none⟩ :: s.held } (.ok (.str u)) s₂ →
      s₂.Joins →
      (Task.eval x ctx).Gives s (.ok (.str (c.description t u))) { s₂ with held := s.held } := by
  obtain ⟨y, y', hx, ⟨z, z', hy, ⟨l, l', hz, hl, ⟨r, m, args, hl', hm, hr, rfl⟩⟩, hz'⟩,
    ⟨r', m', args', hy', hm', hr', rfl⟩⟩ := hx
  refine ⟨l'.span, y'.span, fun {s s₁ s₂ ctx t u} hs hv hshown hjoins hs₁ he hshown' hjoins' ↦ ?_⟩
  have hfirst : (Task.eval l ctx).Gives { s with steps := s.steps + 1 + 1 + 1 }
      (.ok (.str "expected ")) _ := .operand (hs.later rfl (by simp)) hl rfl
  have hvalue : (Task.eval l' ctx).Gives { s with
      steps := s.steps + 1 + 1 + 1 + 1, held := ⟨[.str "expected "], none⟩ :: s.held }
      (.ok (.str t)) s₁ :=
    .ask_operands [] (hs.later rfl (by simp)) hl' hr rfl (congrArg some hv) .nil (hm ▸ hshown)
  have hstart : (Task.eval z ctx).Gives { s with steps := s.steps + 1 + 1 }
      (.ok (.str ("expected " ++ t))) { s₁ with held := s.held } :=
    .sum (hs.later rfl (by simp)) hz hfirst rfl hvalue hjoins
  have hrelation : (Task.eval z' ctx).Gives
      { s₁ with held := ⟨[.str ("expected " ++ t)], none⟩ :: s.held } (.ok (.str c.relation)) _ :=
    .operand (hs₁.later rfl (by simp)) hz' rfl
  have hmiddle := Task.Gives.sum (s := { s with steps := s.steps + 1 }) (hs.later rfl (by simp)) hy
    hstart rfl hrelation ⟨hjoins.offered, hjoins.room⟩
  have hexpectation : (Task.eval y' ctx).Gives
      { s₁ with
        held := ⟨[.str ("expected " ++ t ++ c.relation)], none⟩ :: s.held
        steps := s₁.steps + 1 } (.ok (.str u)) s₂ :=
    .ask_operands [] (hs₁.later rfl (by simp)) hy' hr' rfl he .nil (hm' ▸ hshown')
  exact .sum (hs.later rfl (by omega)) hx hmiddle rfl hexpectation hjoins'

theorem State.Asserting.decided {ok description : Value} {span : Span}
    (hs : s.Asserting assertion failure a v) (hroom : s.frames.size + 3 ≤ s.config.maxCallDepth)
    (hallows : s.Allows 16) :
    (ok.isTruthy = true → ∃ s',
      (Task.send "check" ⟨.object a, [ok, e, description], none, span⟩).Gives s (.ok (.object a))
        s') ∧
    (ok.isTruthy = false → ∃ r s',
      (Task.send "check" ⟨.object a, [ok, e, description], none, span⟩).Gives s (.error (.raise r))
        s' ∧ s'.Reports failure r.value v e description) := by
  obtain ⟨ctx, es, inner, hinner, hself, hmodule, hes, hcall⟩ :=
    (hs.decides.understands hs.type).inside [ok, e, description] rfl (by omega) span
  obtain ⟨x, _, rfl, ⟨_, c, y, n, hx, hc, hy, ⟨made, hn, hmade⟩⟩, rfl⟩ := hes
  have hinner_allows := hinner.allows hallows
  have hvalue : inner.attr ctx.self "value" = v := by
    rw [hself, hinner.attr]
    exact hs.value
  have hok : (Task.eval c ctx).Gives { inner with steps := inner.steps + 1 } (.ok ok) _ :=
    .operand (hinner_allows.later rfl (by simp)) hc (hinner.get? rfl)
  constructor
  · intro htrue
    have hanswer : (Task.eval y ctx).Gives { inner with steps := inner.steps + 1 + 1 }
        (.ok (.object a)) _ :=
      .operand (hinner_allows.later rfl (by simp)) hy (congrArg some hself)
    have hchoice : (Task.eval x ctx).Gives inner (.ok (.object a)) _ :=
      .choice (hinner_allows.later rfl (by simp)) hx hok (by rw [if_pos htrue]; exact hanswer)
    exact ⟨_, hcall _ _ (.value _) (.perform hchoice)⟩
  · intro hfalse
    obtain ⟨s', hfailure, -, htype, hattr⟩ := hinner.makes
      [.attr "value", .name "expected", .name "description"] (n := inner.steps + 1 + 1 + 1) hmade
      hmodule hs.seen hs.failure_made hs.fails
      (.cons (congrArg some hvalue) (.cons (hinner.get? rfl) (.cons (hinner.get? rfl) .nil))) rfl
      (.cons rfl (.cons rfl (.cons rfl (.cons rfl .nil)))) hroom
      (hinner_allows.later rfl (by simp [Check.failureFields]))
    have hraise : (Task.eval n ctx).Gives { inner with steps := inner.steps + 1 + 1 } _ s' :=
      .raise (hinner_allows.later rfl (by simp)) hn hfailure
    have hchoice : (Task.eval x ctx).Gives inner (.error (.raise _)) _ :=
      .choice (hinner_allows.later rfl (by simp)) hx hok
        (by rw [if_neg (by simp [hfalse])]; exact hraise)
    exact ⟨_, _, hcall _ _ (.raise _) (.perform hchoice), htype, hattr _, hattr _, hattr _, hattr _⟩

theorem Check.course {c : Check} {x : Expr} (hx : c.code.Spanned x) :
    ∃ span shown shown' verdict, ∀ {s s₁ s₂ s₃ s' : State} {ctx : Context} {bs : Bindings Value}
      {ok : Value} {t u : String} {o : Outcome Value}, s.Secluded ctx.scope bs →
      bs.get? c.param = some e → bs.get? "check" = none → ctx.self = .object a →
      s.attr (.object a) "value" = v → s.frames.size + 1 ≤ s.config.maxCallDepth →
      (Task.send c.operator.method ⟨v, [e], none, span⟩).Gives
        { s with steps := s.steps + 4, held := ⟨[], none⟩ :: s.held } (.ok ok) s₁ →
      s₁.Asserting assertion failure a v →
      (Task.send "inspect" ⟨v, [], none, shown⟩).Gives
        { s₁ with
          steps := s₁.steps + 7
          held := ⟨[.str "expected "], none⟩ :: ⟨[e, c.result ok], none⟩ :: s.held }
        (.ok (.str t)) s₂ →
      s₂.Asserting assertion failure a v →
      (Task.send "inspect" ⟨e, [], none, shown'⟩).Gives
        { s₂ with
          steps := s₂.steps + 3
          held := ⟨[.str ("expected " ++ t ++ c.relation)], none⟩ :: ⟨[e, c.result ok], none⟩ ::
            s.held } (.ok (.str u)) s₃ →
      s₃.Asserting assertion failure a v → s₃.Allows 16 →
      (Task.send "check" ⟨.object a, [c.result ok, e, .str (c.description t u)], none,
        verdict⟩).Gives { s₃ with held := s.held } o s' →
      (Task.eval x ctx).Gives s o s' := by
  obtain ⟨m, args, hx, hm, compared, _, rfl, ⟨l, r, hcompared, hl, hr⟩, expectation, _, rfl,
    hexpectation, text, _, rfl, htext, rfl⟩ := hx
  obtain ⟨shown, shown', hdescribed⟩ := Check.described (v := v) (e := e) htext
  refine ⟨compared.span, shown, shown', x.span, fun {s s₁ s₂ s₃ s' ctx bs ok t u o} hsecluded hparam
    hcheck hself hvalue hroom hok hs₁ hshown hs₂ hshown' hs₃ hallows hverdict ↦ ?_⟩
  have settles₁ : s.Settles 4 s₁ := hok.settles rfl rfl rfl
  have settles₂ : s₁.Settles 7 s₂ := hshown.settles rfl rfl rfl
  have settles₃ : s₂.Settles 3 s₃ := hshown'.settles rfl rfl rfl
  have hallows₂ := settles₃.allows hallows
  have hallows₁ := settles₂.allows hallows₂
  have hallows₀ := settles₁.allows hallows₁
  have hroom₁ := settles₁.room hroom
  have hroom₂ := settles₂.room hroom₁
  have hroom₃ := settles₃.room hroom₂
  -- No code that runs for the messages comes to the scope where the expectation is.
  have secluded₁ : s₁.Secluded ctx.scope bs := hsecluded.sent hok rfl rfl
  have secluded₂ : s₂.Secluded ctx.scope bs := secluded₁.sent hshown rfl rfl
  have secluded₃ : s₃.Secluded ctx.scope bs := secluded₂.sent hshown' rfl rfl
  have hresult : (Task.eval compared ctx).Gives
      { s with steps := s.steps + 1, held := ⟨[], none⟩ :: s.held } (.ok (c.result ok)) s₁ :=
    .operation_operands (hallows₀.later rfl (by simp)) hcompared hl hr
      (congrArg some (hself ▸ hvalue)) (hsecluded.get?_some hparam) hok
  have hexpected : (Task.eval expectation ctx).Gives
      { s₁ with held := ⟨[c.result ok], none⟩ :: s.held } (.ok e) _ :=
    .operand (hallows₁.later rfl (by simp)) hexpectation (secluded₁.get?_some hparam)
  have hvalue₁ : s₁.attr ctx.self "value" = v := hself ▸ hs₁.value
  have hdescription : (Task.eval text ctx).Gives
      { s₁ with steps := s₁.steps + 1, held := ⟨[e, c.result ok], none⟩ :: s.held }
      (.ok (.str (c.description t u))) { s₃ with held := ⟨[e, c.result ok], none⟩ :: s.held } :=
    hdescribed (hallows₁.later rfl (by simp)) hvalue₁ hshown ⟨hs₂.joins, hroom₂⟩
      (hallows₂.later rfl (by simp)) (secluded₂.get?_some hparam) hshown' ⟨hs₃.joins, hroom₃⟩
  have hargs : (Eval.values [compared, expectation, text] ctx).Gives
      { s with steps := s.steps + 1 } (.ok [c.result ok, e, .str (c.description t u)])
      { s₃ with held := s.held } :=
    .values_cons hresult (.values_cons hexpected (.values_cons hdescription (.pure _ _)))
  refine .tell (hallows₀.later rfl (by simp)) hx hargs ?_ ?_
  · rw [hm]
    exact secluded₃.get?_none hcheck
  · rw [hm, hself]
    exact hverdict

theorem Types.HasAssertions.asserted (h : s.types.HasAssertions assertion failure)
    (hw : s.Understands w "assert" CoreType.object.id ["value"] [Check.assertCode])
    (hseen : s.types.Sees CoreType.object.id "Assertion" assertion)
    (hroom : s.frames.size + 3 ≤ s.config.maxCallDepth) (hallows : s.Allows 5) (v : Value)
    (span : Span) : ∃ s',
    (Task.send "assert" ⟨w, [v], none, span⟩).Gives s (.ok (.object ⟨s.objects.size⟩)) s' ∧
      s'.Asserting assertion failure ⟨s.objects.size⟩ v ∧ s'.types = s.types := by
  obtain ⟨ctx, es, inner, hinner, -, hmodule, hes, hcall⟩ := hw.inside [v] rfl (by omega) span
  obtain ⟨x, _, rfl, hx, rfl⟩ := hes
  obtain ⟨s', hmade, htypes, htype, hattr⟩ := hinner.makes [.name "value"]
    (n := inner.steps) hx hmodule hseen h.made h.begins (.cons (hinner.get? rfl) .nil) rfl
    (.cons rfl .nil) hroom (hinner.allows hallows)
  exact ⟨_, hcall _ _ (.value _) (.perform hmade), ⟨htypes ▸ h, htype, hattr "value"⟩, htypes⟩

theorem Check.secluded (hs : s.Tidy) (c : Check) (e : Value) : ∃ bs,
    (s.entering [c.param] [e]).Secluded s.scopes.fresh bs ∧ bs.get? c.param = some e ∧
      bs.get? "check" = none := by
  have hname : c.param ≠ "check" := by cases c <;> decide
  exact ⟨_, hs.secluded, (Bindings.get?_set ..).trans (if_pos rfl),
    (Bindings.get?_set ..).trans (if_neg hname)⟩

end

namespace Prelude

def failureType : TypeId := ⟨CoreType.all.length⟩

def assertionType : TypeId := ⟨CoreType.all.length + 1⟩

def asserts (s : State) : Bool :=
  s.types.hasAssertions assertionType failureType &&
    s.types.sees CoreType.object.id "Assertion" assertionType &&
    s.types.defines CoreType.object.id "assert" CoreType.object.id ["value"] [Check.assertCode] &&
    s.typeOf (.object State.mainObject) == CoreType.object.id

/-- `assert(T.new)` after `type T` with an `inspect` that gives `1`. -/
def numbered : Program :=
  let one : Expr := ⟨.literal (.int 1), .origin⟩
  let inspect : MethodDef :=
    ⟨⟨"inspect", .origin⟩, false, .none, none, ⟨[one], [], none, none, .origin⟩, none, .origin⟩
  let made : Expr := ⟨.call (some ⟨.constant "T", .origin⟩) ⟨"new", .origin⟩ [] none, .origin⟩
  ⟨[⟨.type ⟨.type, ⟨"T", .origin⟩, none, [⟨.method inspect, .origin⟩], none, .origin⟩, .origin⟩,
    ⟨.call none ⟨"assert", .origin⟩ [made] none, .origin⟩], .origin⟩

def asking (name : String) (receiver : ObjectId) : Task :=
  .send name ⟨.object receiver, [.object ⟨1⟩], none, .origin⟩

/-- The instance is equal to itself, and fails the check that it is. -/
def failsAlike (s : State) : Bool :=
  asserts s && s.typeOf (.object ⟨2⟩) == assertionType &&
    (match s.attr (.object ⟨2⟩) "value" with
      | .object id => id == ⟨1⟩
      | _ => false) &&
    (match (Machine.start (asking "==" ⟨1⟩) s).run 100 with
      | some (.ok v, _) => v.isTruthy
      | _ => false) &&
    (match (Machine.start (asking "equals" ⟨2⟩) s).run 100 with
      | some (.error _, _) => true
      | _ => false)

/-- What a new interpreter keeps once the prelude has run. -/
def started (s : State) : Interpreter := ⟨{ s with frames := #[], output := "" }⟩

theorem asserts_spelled : ∃ chars, Spells lines chars ∧
    (programOf? chars).any (fun p ↦ (stateAfter 100 p).any fun s ↦ asserts s &&
      ((started s).run numbered 100).any fun result ↦ failsAlike result.2.state) = true :=
  ⟨_, by
    repeat apply Spells.cons
    exact .nil, by decide +kernel⟩

/-- A new interpreter can make assertions. -/
theorem new_asserts : ∃ i : Interpreter, Interpreter.new .standard 100 = some (.ok i) ∧
    i.state.Fresh ∧ i.state.frames = #[] ∧ i.state.Tidy ∧ asserts i.state = true ∧
    ∃ r j, i.run numbered 100 = some (r, j) ∧ failsAlike j.state = true := by
  obtain ⟨_, rfl, hcheck⟩ := asserts_spelled
  obtain ⟨p, hp, hchecked⟩ := (Option.any_eq_true _ _).mp hcheck
  obtain ⟨s, hs, hstate⟩ := (Option.any_eq_true _ _).mp hchecked
  obtain ⟨hasserts, hran⟩ := Bool.and_eq_true_iff.mp hstate
  obtain ⟨⟨r, j⟩, hrun, hfails⟩ := (Option.any_eq_true _ _).mp hran
  -- The same state is known to be as a new interpreter should be.
  obtain ⟨p', s', hp', -, hs', hfresh, -⟩ := program_read
  obtain rfl : p = p' := Except.ok.inj ((of_programOf? hp).symm.trans hp')
  obtain rfl : s = s' := Option.some.inj (hs.symm.trans hs')
  obtain ⟨v, hmachine⟩ := of_stateAfter hs
  have hprelude := Interpreter.run_of_machine hmachine 100 (Nat.le_refl _)
  have htidy := State.Tidy.ran (.initial .standard) hprelude
  refine ⟨started s, ?_, ⟨hfresh.config, hfresh.numbers, hfresh.shows, hfresh.errors⟩, rfl,
    ⟨⟨⟨htidy.root, htidy.made, htidy.homes, htidy.parents⟩, htidy.main⟩,
      ⟨htidy.names, htidy.parent⟩⟩, hasserts, r, j, hrun, hfails⟩
  rw [Interpreter.new, hp', Interpreter.withPrelude, hprelude]
  rfl

end Prelude

def Routine.equalEntry : Entry := fixed .number .number "==" [.any] (.number .equal)

theorem Task.Gives.one_compared {s : State} (hs : s.types.offers .int Routine.equalEntry = true)
    (hroom : s.frames.size < s.config.maxCallDepth) (span : Span) :
    (Task.send "==" ⟨.int 1, [.int 1], none, span⟩).Gives s (.ok (.bool true)) s :=
  (Task.CallsFor.offered (e := Routine.equalEntry) (c := ⟨.int 1, [.int 1], none, span⟩) hs rfl rfl
    rfl hroom).gives fun _ _ ↦ .pure _ _

theorem Task.Gives.one_inspected : ∃ text, ∀ {s : State},
    s.types.offers .int (Routine.inspectEntry .int) = true →
      s.frames.size < s.config.maxCallDepth → ∀ span,
        (Task.send "inspect" ⟨.int 1, [], none, span⟩).Gives s (.ok (.str text)) s := by
  obtain ⟨text, htext⟩ : ∃ text, ∀ s : State, s.inspectText? (.int 1) = some text :=
    ⟨_, fun _ ↦ rfl⟩
  refine ⟨text, fun hs hroom span ↦ ?_⟩
  have hshown (s : State) : (ObjectRoutine.inspectObject (.int 1)).Gives s (.ok (.str text)) s := by
    refine .bind (.read _ s) ?_
    rw [htext]
    exact .pure _ s
  exact (Task.CallsFor.offered (e := Routine.inspectEntry .int) (c := ⟨.int 1, [], none, span⟩) hs
    rfl rfl rfl hroom).gives fun _ _ ↦ .keeping _ (hshown _)

/-- For any value `assert` returns an assertion about it. A check on an assertion compares the value
with the expectation, asks both how they are shown, and then returns the assertion if the comparison
gave something true, and else raises a failure that carries the value, the expectation and the
description. Each message is sent inside of the call, in the state that the one before has left,
while the arguments that are there already are held. This is where both are shown by texts, also if
the comparison gave something true, and as long as what is asked leaves the assertion and the
methods of the prelude as they are. -/
theorem checks_report {s : State} {assertion failure : TypeId} (hs : s.Tidy)
    (hroom : s.frames.size + 4 ≤ s.config.maxCallDepth)
    (v e : Value) (span : Span) :
    (s.types.HasAssertions assertion failure →
      s.types.Sees CoreType.object.id "Assertion" assertion → s.Allows 5 → ∀ w,
        s.Understands w "assert" CoreType.object.id ["value"] [Check.assertCode] → ∃ s',
        (Task.send "assert" ⟨w, [v], none, span⟩).Gives s (.ok (.object ⟨s.objects.size⟩)) s' ∧
          s'.Asserting assertion failure ⟨s.objects.size⟩ v ∧ s'.Tidy ∧
          s'.config = s.config ∧ s'.types = s.types ∧ s'.frames = s.frames) ∧
    ∀ a, s.Asserting assertion failure a v → ∀ c : Check, ∃ ctx label compared shown shown',
      ctx.self = .object a ∧ ∀ (ok : Value) (t u : String) (s₁ s₂ s₃ : State),
      (Task.send c.operator.method ⟨v, [e], none, compared⟩).Gives
        { s.entering [c.param] [e] with
          frames := s.frames.push ⟨label, span⟩
          steps := s.steps + 4
          held := ⟨[], none⟩ :: ⟨[], some ctx⟩ :: s.held } (.ok ok) s₁ →
      s₁.Asserting assertion failure a v →
      (Task.send "inspect" ⟨v, [], none, shown⟩).Gives
        { s₁ with
          steps := s₁.steps + 7
          held := ⟨[.str "expected "], none⟩ :: ⟨[e, c.result ok], none⟩ :: ⟨[], some ctx⟩ ::
            s.held } (.ok (.str t)) s₂ →
      s₂.Asserting assertion failure a v →
      (Task.send "inspect" ⟨e, [], none, shown'⟩).Gives
        { s₂ with
          steps := s₂.steps + 3
          held := ⟨[.str ("expected " ++ t ++ c.relation)], none⟩ :: ⟨[e, c.result ok], none⟩ ::
            ⟨[], some ctx⟩ :: s.held } (.ok (.str u)) s₃ →
      s₃.Asserting assertion failure a v → s₃.Allows 16 →
    ((c.result ok).isTruthy = true → ∃ s',
      (Task.send c.name ⟨.object a, [e], none, span⟩).Gives s (.ok (.object a)) s') ∧
    ((c.result ok).isTruthy = false → ∃ r s',
      (Task.send c.name ⟨.object a, [e], none, span⟩).Gives s (.error (.raise r)) s' ∧
        s'.Reports failure r.value v e (.str (c.description t u))) := by
  refine ⟨fun hhas hseen hallows w hw ↦ ?_, fun a ha c ↦ ?_⟩
  · obtain ⟨s', hgives, hasserting, htypes⟩ := hhas.asserted hw hseen (by omega) hallows v span
    have settles : s.Settles 0 s' := hgives.settles rfl rfl rfl
    exact ⟨s', hgives, hasserting, hs.sent hgives, settles.config, htypes, settles.frames⟩
  · obtain ⟨ctx, es, label, hscope, hself, -, hes, hcall⟩ :=
      ((ha.checks c).understands ha.type).call [e] rfl (by omega) span
    obtain ⟨x, _, rfl, hx, rfl⟩ := hes
    obtain ⟨compared, shown, shown', verdict, hcourse⟩ :=
      Check.course (e := e) (a := a) (v := v) hx
    obtain ⟨bs, hsecluded, hparam, hcheck⟩ := Check.secluded hs c e
    let entered : State := { s.entering [c.param] [e] with
      held := ⟨[], some ctx⟩ :: s.held, frames := s.frames.push ⟨label, span⟩ }
    have hsecluded : entered.Secluded ctx.scope bs := hscope ▸ hsecluded.of_same rfl rfl
    have hentered : entered.frames.size + 3 ≤ entered.config.maxCallDepth := by
      change (s.frames.push ⟨label, span⟩).size + 3 ≤ s.config.maxCallDepth
      rw [Array.size_push]
      exact hroom
    have hroom_entered : entered.frames.size + 1 ≤ entered.config.maxCallDepth := by omega
    refine ⟨ctx, label, compared, shown, shown', hself,
      fun ok t u s₁ s₂ s₃ hok hs₁ hshown hs₂ hshown' hs₃ hallows ↦ ?_⟩
    -- What is asked leaves the calls in progress as they were, so there is room for the verdict.
    have settles₁ : entered.Settles 4 s₁ := hok.settles rfl rfl rfl
    have settles₂ : s₁.Settles 7 s₂ := hshown.settles rfl rfl rfl
    have settles₃ : s₂.Settles 3 s₃ := hshown'.settles rfl rfl rfl
    obtain ⟨hpass, hfail⟩ := State.Asserting.decided (s := { s₃ with held := entered.held })
      (e := e) (hs₃.of_same rfl rfl) (settles₃.room (settles₂.room (settles₁.room hentered)))
      hallows
    have hreach {o : Outcome Value} {s' : State} (ho : o.EndsCall) (hverdict :
        (Task.send "check" ⟨.object a, [c.result ok, e, .str (c.description t u)], none,
          verdict⟩).Gives { s₃ with held := entered.held } o s') :
        (Task.send c.name ⟨.object a, [e], none, span⟩).Gives s o
          { s' with frames := s'.frames.pop, held := s.held } :=
      hcall o s' ho (.perform (hcourse hsecluded hparam hcheck hself ha.value hroom_entered hok hs₁
        hshown hs₂ hshown' hs₃ hallows hverdict))
    constructor
    · intro htrue
      obtain ⟨s', hgives⟩ := hpass htrue
      exact ⟨_, hreach (.value _) hgives⟩
    · intro hfalse
      obtain ⟨r, s', hgives, htype, hleft, hright, htext, hmessage⟩ := hfail hfalse
      exact ⟨r, _, hreach (.raise r) hgives, htype, hleft, hright, htext, hmessage⟩

/-- In a new interpreter `assert(1).equals(1)` returns the assertion. -/
theorem one_equals_one : ∃ i : Interpreter, Interpreter.new .standard 100 = some (.ok i) ∧
    ∃ a s s', (Task.send "assert" ⟨.object State.mainObject, [.int 1], none, .origin⟩).Gives i.state
        (.ok (.object a)) s ∧
      (Task.send "equals" ⟨.object a, [.int 1], none, .origin⟩).Gives s (.ok (.object a)) s' := by
  obtain ⟨i, hnew, hfresh, hframes, htidy, hasserts, -⟩ := Prelude.new_asserts
  simp only [Prelude.asserts, Bool.and_eq_true, beq_iff_eq] at hasserts
  obtain ⟨⟨⟨hhas, hseen⟩, hassert⟩, hmain⟩ := hasserts
  have hroom {s : State} (hc : s.config = i.state.config) (hf : s.frames = i.state.frames) :
      s.frames.size + 4 ≤ s.config.maxCallDepth := by
    rw [hc, hf, hfresh.config, hframes]
    decide
  have hallows {s : State} (hc : s.config = i.state.config) (n : Nat) : s.Allows n := by
    intro limit hlimit
    rw [hc, hfresh.config] at hlimit
    cases hlimit
  obtain ⟨s, hgives, ha, hs, hconfig, htypes, hframes⟩ :=
    (checks_report htidy (hroom rfl rfl) (.int 1) (.int 1) .origin).1 (.of_checked hhas)
      (.of_checked hseen) (hallows rfl 5) _ (Types.Defines.of_checked hassert |>.understands hmain)
  obtain ⟨ctx, label, compared, shown, shown', -, hasked⟩ := (checks_report hs
    (hroom hconfig hframes) (.int 1) (.int 1) .origin).2 _ ha .equals
  have hequal : s.types.offers .int Routine.equalEntry = true :=
    htypes ▸ hfresh.numbers _ (by decide)
  have hinspect : s.types.offers .int (Routine.inspectEntry .int) = true :=
    htypes ▸ List.all_eq_true.mp hfresh.shows _ (by decide)
  have hdeeper (frame : CallFrame) : (s.frames.push frame).size < s.config.maxCallDepth := by
    rw [Array.size_push]
    exact Nat.lt_of_lt_of_le (by omega) (hroom hconfig hframes)
  obtain ⟨text, hshown⟩ := Task.Gives.one_inspected
  obtain ⟨hpass, -⟩ := hasked (.bool true) text text _ _ _
    (.one_compared (by exact hequal) (by exact hdeeper _) compared) (ha.of_same rfl rfl)
    (hshown (by exact hinspect) (by exact hdeeper _) shown) (ha.of_same rfl rfl)
    (hshown (by exact hinspect) (by exact hdeeper _) shown') (ha.of_same rfl rfl)
    (hallows (by exact hconfig) 16)
  obtain ⟨s', hequals⟩ := hpass rfl
  exact ⟨i, hnew, _, s, s', hgives, hequals⟩

/-- An instance that is shown by a number fails the check that it equals itself. -/
theorem passing_check_fails : ¬ ∀ (s s' : State) (assertion failure : TypeId) (a : ObjectId)
    (v e r : Value) (span : Span), s.Tidy → s.config = .standard → s.frames = #[] →
      s.Asserting assertion failure a v → (Task.send "==" ⟨v, [e], none, span⟩).Gives s (.ok r) s' →
      r.isTruthy = true →
      ∃ s', (Task.send "equals" ⟨.object a, [e], none, span⟩).Gives s (.ok (.object a)) s' := by
  intro h
  obtain ⟨i, -, hfresh, -, htidy, -, r, j, hrun, hfails⟩ := Prelude.new_asserts
  simp only [Prelude.failsAlike, Prelude.asserts, Bool.and_eq_true, beq_iff_eq] at hfails
  obtain ⟨⟨⟨⟨⟨⟨⟨hhas, -⟩, -⟩, -⟩, htype⟩, hvalue⟩, hequal⟩, hequals⟩ := hfails
  have hconfig := (Interpreter.run_spans State.later_enduring hrun).config.trans hfresh.config
  have hframes := (Interpreter.run_leaves_empty hrun).1
  have ha : j.state.Asserting Prelude.assertionType Prelude.failureType ⟨2⟩ (.object ⟨1⟩) := by
    refine ⟨.of_checked hhas, htype, ?_⟩
    split at hvalue
    · rename_i id heq
      rw [heq, beq_iff_eq.mp hvalue]
    · cases hvalue
  split at hequal
  · rename_i w s' hsent
    obtain ⟨s'', n, hpasses⟩ := h j.state s' _ _ _ _ _ w .origin (.ran htidy hrun) hconfig hframes
      ha ⟨100, hsent⟩ hequal
    split at hequals
    · rename_i u s₃ hfails
      cases Machine.run_unique hfails hpasses
    · cases hequals
  · cases hequal

end Quill
