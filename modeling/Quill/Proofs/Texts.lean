import Quill.Proofs.Comparing
import Quill.Proofs.Installed

/-!
# Texts without a message

The text of a scalar, of a type or of a lambda is found without a message. As long as programs have
not defined `to_s` or `inspect` for core types, the answer to the message would have the same text,
unless a type has a method of that name itself: `texts_as_by_message`.
-/

namespace Quill

open Eval

/-- Whom a text is for: readers of output see what `to_s` comes to, readers of programs what
`inspect` does. -/
inductive Audience where
  | output | programs
  deriving DecidableEq, Inhabited, Repr

namespace Audience

def message : Audience → String
  | output => "to_s"
  | programs => "inspect"

/-- The text that is found without a message. -/
def direct? (a : Audience) (s : State) (v : Value) : Option String :=
  match a with
  | output => s.plainText? v
  | programs => s.inspectText? v

def text (a : Audience) (v : Value) : Eval String :=
  match a with
  | output => Eval.display v
  | programs => Eval.inspect v

/-- The text of what the message comes to, with the value held as where texts are found. -/
def ask (a : Audience) (v : Value) : Eval String := do
  resultText (← holding [v] (send v a.message [] none .origin))

theorem text_eq (a : Audience) (v : Value) : a.text v = (do
    match ← read (a.direct? · v) with
    | some text => return text
    | none => a.ask v) := by
  cases a <;> rfl

end Audience

namespace CoreType

/-- Types of which some values have a text without a message. -/
def withText : List CoreType := [nil, bool, int, float, string, symbol, lambda, module, type]

/-- The method for texts that is there from the start. -/
def showing : Audience → CoreType → Signature × Routine
  | .output, int | .output, float => (⟨.number, [], none, .ignored⟩, .number .toText)
  | .output, string => (⟨.string, [], none, .ignored⟩, .text .itself)
  | .output, symbol => (⟨.symbol, [], none, .ignored⟩, .text .toText)
  | .programs, string => (⟨.string, [], none, .ignored⟩, .text .inspect)
  | .programs, symbol => (⟨.symbol, [], none, .ignored⟩, .text .inspect)
  | _, module | _, type => (⟨.module, [], none, .ignored⟩, .type .name)
  | .output, _ => (⟨.any, [], none, .ignored⟩, .object .toText)
  | .programs, _ => (⟨.any, [], none, .ignored⟩, .object .inspect)

theorem showing_installed (a : Audience) {t : CoreType} (ht : t ∈ withText) :
    (Types.standard.soleNative? a.message t.id).map (fun n ↦ (n.signature, n.routine)) =
      some (t.showing a) := by
  revert t
  cases a <;> decide +kernel

end CoreType

namespace Value

variable {v : Value} {text : String} {s : State} {span : Span}

/-- The method for texts that a core type has from the start gives the value this text. -/
def ShownBy (a : Audience) (v : Value) (s : State) (span : Span) (text : String)
    (t : CoreType) : Prop :=
  t ∈ CoreType.withText ∧ s.typeOf v = t.id ∧
    (t.showing a).1.mismatch s.types.sort v [] false = none ∧
    ∀ held frames, ((t.showing a).2.run ⟨v, [], none, span⟩).Gives { s with held, frames }
      (.ok (.str text)) { s with held, frames }

theorem shownBy_type (a : Audience) (t : TypeId) (s : State) (span : Span) :
    ∃ c, ShownBy a (.type t) s span (s.types.name t) c := by
  have hrun (held : List Held) (frames : Array CallFrame) :
      (TypeRoutine.name.run ⟨.type t, [], none, span⟩).Gives { s with held, frames }
        (.ok (.str (s.types.name t))) { s with held, frames } := .bind (.read _ _) (.pure _ _)
  cases hsort : s.types.sort t with
  | type =>
    refine ⟨.type, by decide, by simp [State.typeOf, hsort], ?_⟩
    cases a <;> exact ⟨rfl, hrun⟩
  | module =>
    refine ⟨.module, by decide, by simp [State.typeOf, hsort], ?_⟩
    cases a <;> exact ⟨rfl, hrun⟩

theorem shownBy_of_plainText? (h : s.plainText? v = some text) (span : Span) :
    ∃ t, ShownBy .output v s span text t := by
  have object (held : List Held) (frames : Array CallFrame) :
      (ObjectRoutine.toText.run ⟨v, [], none, span⟩).Gives { s with held, frames }
        (.ok (.str text)) { s with held, frames } := by
    have htext : State.plainText? { s with held, frames } v = some text := h
    refine .bind (.read _ _) (.bind (.read _ _) ?_)
    rw [htext]
    exact .pure _ _
  cases v with
  | nil => exact ⟨.nil, by decide, rfl, rfl, object⟩
  | bool b => exact ⟨.bool, by decide, rfl, rfl, object⟩
  | int n =>
    cases h
    exact ⟨.int, by decide, rfl, rfl, fun _ _ ↦ .pure _ _⟩
  | float x =>
    cases h
    exact ⟨.float, by decide, rfl, rfl, fun _ _ ↦ .pure _ _⟩
  | str t =>
    cases h
    exact ⟨.string, by decide, rfl, rfl, fun _ _ ↦ .pure _ _⟩
  | symbol name =>
    cases h
    exact ⟨.symbol, by decide, rfl, rfl, fun _ _ ↦ .pure _ _⟩
  | type t =>
    cases h
    exact shownBy_type .output t s span
  | _ => cases h

theorem shownBy_of_inspectText? (h : s.inspectText? v = some text) (span : Span) :
    ∃ t, ShownBy .programs v s span text t := by
  have bare (s' : State) (h' : s'.inspectText? v = some text) :
      (ObjectRoutine.inspectObject v).Gives s' (.ok (.str text)) s' := by
    refine .bind (.read _ s') ?_
    rw [h']
    exact .pure _ s'
  have object (held : List Held) (frames : Array CallFrame) :
      (ObjectRoutine.inspect.run ⟨v, [], none, span⟩).Gives { s with held, frames }
        (.ok (.str text)) { s with held, frames } :=
    Gives.keeping (s := { s with held, frames }) _ (bare _ h)
  cases v with
  | nil => exact ⟨.nil, by decide, rfl, rfl, object⟩
  | bool b => exact ⟨.bool, by decide, rfl, rfl, object⟩
  | int n => exact ⟨.int, by decide, rfl, rfl, object⟩
  | float x => exact ⟨.float, by decide, rfl, rfl, object⟩
  | lambda l => exact ⟨.lambda, by decide, rfl, rfl, object⟩
  | str t =>
    cases h
    exact ⟨.string, by decide, rfl, rfl, fun _ _ ↦ .bind (.read _ _) (.pure _ _)⟩
  | symbol name =>
    cases h
    exact ⟨.symbol, by decide, rfl, rfl, fun _ _ ↦ .bind (.read _ _) (.pure _ _)⟩
  | type t =>
    cases h
    exact shownBy_type .programs t s span
  | _ => cases h

end Value

/-- Nothing was defined to show the value to the audience: neither for core types and the modules
in them, nor for the value itself if it is a type. -/
structure State.ShowsPlainly (s : State) (a : Audience) (v : Value) : Prop where
  reached : s.Reached
  core : s.types.AllBuiltIn a.message
  own : s.ownMethod? v a.message = none

theorem State.Reached.sole {s : State} {name : String} (h : s.Reached)
    (hname : s.types.AllBuiltIn name) (t : CoreType) :
    s.types.soleNative? name t.id = Types.standard.soleNative? name t.id := by
  unfold Types.soleNative?
  rw [h.finds_installed hname t]

namespace State.ShowsPlainly

variable {s s' : State} {a : Audience} {v w : Value} {text : String} {span : Span}

theorem answers (hs : s.ShowsPlainly a v) (h : a.direct? s v = some text) (span : Span) :
    AnswersPlainly s v a.message [] span (.str text) := by
  have hshown : ∃ t, Value.ShownBy a v s span text t := by
    cases a with
    | output => exact Value.shownBy_of_plainText? h span
    | programs => exact Value.shownBy_of_inspectText? h span
  obtain ⟨t, ht, htype, hfits, hrun⟩ := hshown
  obtain ⟨n, hn, hshowing⟩ := Option.map_eq_some_iff.mp (CoreType.showing_installed a ht)
  rw [← hshowing] at hfits hrun
  have hsole : s.types.soleNative? a.message (s.typeOf v) = some n := by
    rw [htype, hs.reached.sole hs.core, hn]
  have hlower : State.isConstantName a.message = false := by cases a <;> decide
  obtain ⟨m, hanswer, hclauses⟩ := State.answer_of_sole hs.own hlower hsole
  exact ⟨m, n, hanswer, hclauses, hfits, hrun⟩

end State.ShowsPlainly

namespace Audience

variable {s s' : State} {a : Audience} {v w : Value} {text : String} {span : Span}

theorem text_of_direct (h : a.direct? s v = some text) : (a.text v).Gives s (.ok text) s := by
  rw [text_eq]
  refine .bind (.read _ s) ?_
  rw [h]
  exact .pure text s

theorem text_of_ask (hs : s.ShowsPlainly a v) (h : (a.ask v).Gives s (.ok text) s') :
    (a.text v).Gives s (.ok text) s' := by
  cases hdirect : a.direct? s v with
  | none =>
    rw [text_eq]
    refine .bind (.read _ s) ?_
    rw [hdirect]
    exact h
  | some shown =>
    have hheld : State.ShowsPlainly { s with held := ⟨[v], none⟩ :: s.held } a v :=
      ⟨.host hs.reached rfl, hs.core, hs.own⟩
    obtain ⟨es, hes⟩ := h
    unfold ask at hes
    rw [bind_apply] at hes
    obtain ⟨u, hu, -⟩ | ⟨w, es₁, es₂, s₁, rfl, hsend, hrest⟩ := hes.bind
    · cases hu
    · obtain ⟨s₂, hsent, rfl⟩ := holding_course hsend
      obtain ⟨-, rfl, rfl⟩ := (hheld.answers hdirect .origin).of_send ⟨es₁, hsent⟩
      obtain ⟨-, htext, rfl⟩ := Step.Course.of_done hrest
      cases htext
      exact text_of_direct hdirect

end Audience

namespace Eval

section

variable (shown : Audience → Value → Eval String)

/-- Like `putAll`, with `shown` to find the texts of values. -/
def putAllBy : List Value → Eval Unit
  | [] => return ()
  | v :: rest => do
    let text ← shown .output v
    write (if text.toList.getLast? = some '\n' then text else text ++ "\n")
    putAllBy rest

def printAllBy : List Value → Eval Unit
  | [] => return ()
  | v :: rest => do
    write (← shown .output v)
    printAllBy rest

def showAllBy : List Value → Eval Unit
  | [] => return ()
  | v :: rest => do
    write ((← shown .programs v) ++ "\n")
    showAllBy rest

def inspectAttrsBy (done : List String) : List (String × Value) → Eval (List String)
  | [] => return done.reverse
  | (name, v) :: rest => do
    inspectAttrsBy (("@" ++ name ++ "=" ++ (← shown .programs v)) :: done) rest

end

end Eval

namespace ObjectRoutine

/-- Like `inspectObject`, with `shown` to find the texts of attributes. -/
def inspectObjectBy (shown : Audience → Value → Eval String) (v : Value) : Eval Value := do
  match ← read (·.inspectText? v) with
  | some text => return .str text
  | none =>
    let type ← read (·.typeName v)
    let attrs ← read fun s => match v with
      | .object o => (s.object o).attrs.entries
      | _ => []
    match ← holding (attrs.map (·.2)) (inspectAttrsBy shown [] attrs) with
    | [] => return .str ("#<" ++ type ++ ">")
    | texts => return .str ("#<" ++ type ++ " " ++ ", ".intercalate texts ++ ">")

/-- Like `run`, with `shown` to find the texts of values. -/
def runBy (shown : Audience → Value → Eval String) (r : ObjectRoutine) (c : Call) : Eval Value :=
  match r with
  | inspect => holding c.values (inspectObjectBy shown c.receiver)
  | print => do
    holding c.values (printAllBy shown c.args)
    return .nil
  | puts => do
    if c.args.isEmpty then write "\n"
    holding c.values (putAllBy shown c.args)
    return .nil
  | p => do
    holding c.values (showAllBy shown c.args)
    match c.args with
    | [] => return .nil
    | [v] => return v
    | vs => newList vs
  | r => r.run c

end ObjectRoutine

namespace ListRoutine

section

variable (shown : Audience → Value → Eval String)

def displayItemsBy (done : List String) : List Value → Eval (List String)
  | [] => return done.reverse
  | item :: rest => do displayItemsBy ((← holding rest (shown .output item)) :: done) rest

def inspectItemsBy (l : ListId) (done : List String) : List Value → Eval (List String)
  | [] => return done.reverse
  | item :: rest => do
    let text ← if item.list? = some l then pure "[...]" else holding rest (shown .programs item)
    inspectItemsBy l (text :: done) rest

def joinedBy (l : ListId) (separator : String) : Eval Value := do
  let items ← read (·.items l)
  let texts ← displayItemsBy shown [] items.toList
  return .str (separator.intercalate texts)

def showBy (r : ListRoutine) (l : ListId) (c : Call) : Eval Value :=
  match r with
  | joinPlain => joinedBy shown l ""
  | join => joinedBy shown l ((c.arg 0).str?.getD "")
  | inspect => do
    let items ← read (·.items l)
    let texts ← inspectItemsBy shown l [] items.toList
    return .str ("[" ++ ", ".intercalate texts ++ "]")
  | r => r.runOn l c

end

end ListRoutine

namespace Eval.Follows

variable {ok : Episode → Prop} {shown : Audience → Value → Eval String}
  (hshown : ∀ a v, (Audience.text a v).Follows ok (shown a v))

include hshown

theorem putAll (vs : List Value) : (putAll vs).Follows ok (putAllBy shown vs) := by
  induction vs with
  | nil => exact .refl _
  | cons v vs ih => exact .bind (hshown .output v) fun text ↦ .bind (.refl _) fun _ ↦ ih

theorem printAll (vs : List Value) : (printAll vs).Follows ok (printAllBy shown vs) := by
  induction vs with
  | nil => exact .refl _
  | cons v vs ih => exact .bind (hshown .output v) fun text ↦ .bind (.refl _) fun _ ↦ ih

theorem showAll (vs : List Value) : (showAll vs).Follows ok (showAllBy shown vs) := by
  induction vs with
  | nil => exact .refl _
  | cons v vs ih => exact .bind (hshown .programs v) fun text ↦ .bind (.refl _) fun _ ↦ ih

theorem inspectAttrs (done : List String) (attrs : List (String × Value)) :
    (inspectAttrs done attrs).Follows ok (inspectAttrsBy shown done attrs) := by
  induction attrs generalizing done with
  | nil => exact .refl _
  | cons attr attrs ih => exact .bind (hshown .programs attr.2) fun text ↦ ih _

theorem inspectObject (v : Value) :
    (ObjectRoutine.inspectObject v).Follows ok (ObjectRoutine.inspectObjectBy shown v) := by
  refine .bind (.refl _) fun direct ↦ ?_
  cases direct with
  | some text => exact .refl _
  | none =>
    refine .bind (.refl _) fun type ↦ .bind (.refl _) fun attrs ↦ ?_
    exact .bind (.holding _ (.inspectAttrs hshown [] attrs)) fun _ ↦ .refl _

theorem objectRoutine (r : ObjectRoutine) (c : Call) :
    (r.run c).Follows ok (r.runBy shown c) := by
  cases r with
  | inspect => exact .holding _ (.inspectObject hshown c.receiver)
  | print => exact .bind (.holding _ (.printAll hshown c.args)) fun _ ↦ .refl _
  | puts =>
    have rest : (do
        Eval.holding c.values (Eval.putAll c.args)
        return Value.nil).Follows ok (do
          Eval.holding c.values (putAllBy shown c.args)
          return Value.nil) := .bind (.holding _ (.putAll hshown c.args)) fun _ ↦ .refl _
    unfold ObjectRoutine.run ObjectRoutine.runBy
    dsimp only
    split
    · exact .bind (.refl _) fun _ ↦ rest
    · exact rest
  | p => exact .bind (.holding _ (.showAll hshown c.args)) fun _ ↦ .refl _
  | _ => exact .refl _

theorem displayItems (done : List String) (items : List Value) :
    (ListRoutine.displayItems done items).Follows ok
      (ListRoutine.displayItemsBy shown done items) := by
  induction items generalizing done with
  | nil => exact .refl _
  | cons item items ih => exact .bind (.holding _ (hshown .output item)) fun text ↦ ih _

theorem inspectItems (l : ListId) (done : List String) (items : List Value) :
    (ListRoutine.inspectItems l done items).Follows ok
      (ListRoutine.inspectItemsBy shown l done items) := by
  induction items generalizing done with
  | nil => exact .refl _
  | cons item items ih =>
    unfold ListRoutine.inspectItems ListRoutine.inspectItemsBy
    split
    · exact .bind (.refl _) fun text ↦ ih _
    · exact .bind (.holding _ (hshown .programs item)) fun text ↦ ih _

theorem listRoutine (r : ListRoutine) (l : ListId) (c : Call) :
    (r.runOn l c).Follows ok (r.showBy shown l c) := by
  have joined (separator : String) : (ListRoutine.joined l separator).Follows ok
      (ListRoutine.joinedBy shown l separator) :=
    .bind (.refl _) fun items ↦ .bind (.displayItems hshown [] items.toList) fun _ ↦ .refl _
  cases r with
  | joinPlain => exact joined _
  | join => exact joined _
  | inspect =>
    exact .bind (.refl _) fun items ↦
      .bind (.inspectItems hshown l [] items.toList) fun _ ↦ .refl _
  | _ => exact .refl _

end Eval.Follows

/-- If the task is to ask a value for its text, nothing was defined that shows that value. -/
def Episode.AsksPlainly (e : Episode) : Prop :=
  ∀ (a : Audience) (c : Call), e.task = .send a.message c → e.before.ShowsPlainly a c.receiver

namespace Audience

theorem text_follows (a : Audience) (v : Value) :
    (a.text v).Follows Episode.AsksPlainly (a.ask v) := by
  intro s es text s' hcourse hes
  refine text_of_ask ?_ ⟨es, hcourse⟩
  unfold ask at hcourse
  rw [bind_apply] at hcourse
  obtain ⟨u, hu, -⟩ | ⟨w, es₁, es₂, s₁, rfl, hsend, -⟩ := hcourse.bind
  · cases hu
  · obtain ⟨s₂, hsent, -⟩ := holding_course hsend
    obtain ⟨rfl, -⟩ := perform_course hsent
    have hheld := hes _ List.mem_cons_self a _ rfl
    exact ⟨.host hheld.reached rfl, hheld.core, hheld.own⟩

end Audience

/-- As long as programs have defined no `to_s` or `inspect` for core types, what a value answers to
the message has the text that the value is shown with, unless it is a type that has such a method
itself: scalars and types answer so wherever the message comes from, and all values the message that
asks for a text. So built-in methods that show values end as if they asked each for its text. A type
that has such a method itself is shown with its name all the same. -/
theorem texts_as_by_message (a : Audience) {s : State} (hs : s.Reached)
    (hcore : s.types.AllBuiltIn a.message) :
    (∀ (v : Value) (text : String) (s' : State), s.ownMethod? v a.message = none →
      (a.ask v).Gives s (.ok text) s' → (a.text v).Gives s (.ok text) s') ∧
    (∀ (v : Value) (text : String) (span : Span), s.ownMethod? v a.message = none →
      a.direct? s v = some text → (a.text v).Gives s (.ok text) s ∧
      (∀ w s', (send v a.message [] none span).Gives s (.ok w) s' → w = .str text ∧ s' = s) ∧
      (s.frames.size < s.config.maxCallDepth →
        (send v a.message [] none span).Gives s (.ok (.str text)) s)) ∧
    (∀ (r : ObjectRoutine) (c : Call),
      (r.run c).Follows Episode.AsksPlainly (r.runBy Audience.ask c)) ∧
    (∀ (r : ListRoutine) (l : ListId) (c : Call),
      (r.runOn l c).Follows Episode.AsksPlainly (r.showBy Audience.ask l c)) ∧
    ∀ (t : TypeId) (m : Method), s.ownMethod? (.type t) a.message = some m →
      s.answer (.type t) a.message true = .method m ∧
        (a.text (.type t)).Gives s (.ok (s.types.name t)) s := by
  refine ⟨fun v text s' hown ↦ Audience.text_of_ask ⟨hs, hcore, hown⟩,
    fun v text span hown h ↦ ?_, .objectRoutine Audience.text_follows,
    .listRoutine Audience.text_follows, fun t m hm ↦ ⟨?_, Audience.text_of_direct ?_⟩⟩
  · have hplain : s.ShowsPlainly a v := ⟨hs, hcore, hown⟩
    have hanswers := hplain.answers h span
    exact ⟨Audience.text_of_direct h, fun w s' hw ↦ (hanswers.of_send hw).2, hanswers.send⟩
  · simp only [State.answer, hm]
  · cases a <;> rfl

/-- In a new interpreter `1` is shown as it answers. -/
theorem number_shown :
    (State.initial .standard).Reached ∧
      (State.initial .standard).types.AllBuiltIn Audience.output.message ∧
      (send (.int 1) "to_s" [] none .origin).Gives (.initial .standard) (.ok (.str "1"))
        (.initial .standard) ∧
      (Audience.text .output (.int 1)).Gives (.initial .standard) (.ok "1")
        (.initial .standard) := by
  have hreached : (State.initial .standard).Reached := .initial _
  have hcore : (State.initial .standard).types.AllBuiltIn Audience.output.message := by
    decide +kernel
  obtain ⟨-, hdirect, -⟩ := texts_as_by_message .output hreached hcore
  obtain ⟨hshown, -, hanswer⟩ := hdirect (.int 1) "1" .origin rfl (by decide)
  exact ⟨hreached, hcore, hanswer (by decide), hshown⟩

/-- `type T` with `def self.to_s`, which gives `"hi"`. -/
def ownText : Program :=
  let hi : Expr := ⟨.literal (.str "hi"), .origin⟩
  let toText : MethodDef :=
    ⟨⟨"to_s", .origin⟩, true, .none, none, ⟨[hi], [], none, none, .origin⟩, none, .origin⟩
  ⟨[⟨.type ⟨.type, ⟨"T", .origin⟩, none, [⟨.method toText, .origin⟩], none, .origin⟩, .origin⟩],
    .origin⟩

/-- The type answers `"hi"`, but is shown with its name. -/
theorem own_text_passed_over : ¬ ∀ (s s' : State) (a : Audience) (v : Value) (text : String),
    s.Reached → (∀ b : Audience, s.types.AllBuiltIn b.message) →
      (a.ask v).Gives s (.ok text) s' → (a.text v).Gives s (.ok text) s' := by
  intro h
  let i : Interpreter := ⟨.initial .standard⟩
  let t : TypeId := ⟨CoreType.all.length⟩
  have ran : (i.run ownText 20).map (fun result ↦ decide (
      (∀ b ∈ [Audience.output, .programs], result.2.state.types.AllBuiltIn b.message) ∧
        ((Audience.ask .output (.type t)).run 20 result.2.state).map (·.1.toOption) =
          some (some "hi") ∧
        result.2.state.types.name t = "T")) = some true := by
    decide +kernel
  obtain ⟨⟨r, j⟩, hrun, hj⟩ := Option.map_eq_some_iff.mp ran
  obtain ⟨hcore, hask, hname⟩ := of_decide_eq_true hj
  obtain ⟨⟨o, s'⟩, hask, hhi⟩ := Option.map_eq_some_iff.mp hask
  obtain ⟨es, hes⟩ := Step.exists_course hask
  cases o with
  | error u => cases hhi
  | ok text =>
    cases hhi
    have hbuilt (b : Audience) : j.state.types.AllBuiltIn b.message :=
      hcore b (by cases b <;> decide)
    have hreached : j.state.Reached := .ran (i := i) (.initial _) hrun
    have hshown := h j.state s' .output (.type t) "hi" hreached hbuilt ⟨es, hes⟩
    have hdirect : (Audience.text .output (.type t)).Gives j.state (.ok "T") j.state := by
      refine Audience.text_of_direct ?_
      rw [← hname]
      rfl
    have hsame : "T" = "hi" := Except.ok.inj (hshown.unique hdirect).1
    exact absurd hsame (by decide)

end Quill
