import Quill.Proofs.Evolution
import Quill.Proofs.Lambdas.Known

/-!
# Work that makes no lambda

Almost all work refers only to lambdas it was given, as long as what it waits for does. There is one
rule for each way to put work together, and with them the statements of code follow.
-/

namespace Quill

open Tracked

/-- As long as it is given the first `n` lambdas, the work keeps to these and makes none. -/
def Step.KeepsTo {α : Type} [Tracked α] (n : Nat) : Step α → State → Prop
  | done o s, s₀ => s.lambdas = s₀.lambdas ∧ Known n s ∧ Known n o
  | wait t s resume, s₀ => (s.lambdas = s₀.lambdas ∧ Known n s ∧ Known n t) ∧
      ∀ o s', Known n s' → Known n o → (resume o s').KeepsTo n s'

/-- As long as it is given the first `n` lambdas, the work keeps to these and makes none. -/
def Eval.KeepsTo {α : Type} [Tracked α] (n : Nat) (x : Eval α) : Prop :=
  ∀ s, Known n s → (x s).KeepsTo n s

namespace Step.KeepsTo

variable {α β : Type} [Tracked α] [Tracked β] {n : Nat} {s s' : State}

theorem of_earlier {x : Step α} (h : s'.lambdas = s.lambdas) (hx : x.KeepsTo n s') :
    x.KeepsTo n s := by
  cases x with
  | done o s'' => exact ⟨hx.1.trans h, hx.2⟩
  | wait t s'' resume => exact ⟨⟨hx.1.1.trans h, hx.1.2⟩, hx.2⟩

theorem bind {x : Step α} {f : α → State → Step β} (hx : x.KeepsTo n s)
    (hf : ∀ a s', Known n a → Known n s' → (f a s').KeepsTo n s') : (x.bind f).KeepsTo n s := by
  induction x generalizing s with
  | done o s' =>
    obtain ⟨hl, hs', ho⟩ := hx
    cases o with
    | ok a => exact of_earlier hl (hf a s' ho hs')
    | error u => exact ⟨hl, hs', ho⟩
  | wait t s' resume ih => exact ⟨hx.1, fun o s'' hs ho ↦ ih o s'' (hx.2 o s'' hs ho)⟩

theorem attempt {x : Step α} (hx : x.KeepsTo n s) : x.attempt.KeepsTo n s := by
  induction x generalizing s with
  | done o s' => exact hx
  | wait t s' resume ih => exact ⟨hx.1, fun o s'' hs ho ↦ ih o s'' (hx.2 o s'' hs ho)⟩

theorem restoring {before : List Held} (hb : Known n before) {x : Step α}
    (hx : x.KeepsTo n s) : (x.restoring before).KeepsTo n s := by
  induction x generalizing s with
  | done o s' =>
    obtain ⟨hl, hs', ho⟩ := hx
    exact ⟨hl, { hs' with held := hb }, ho⟩
  | wait t s' resume ih => exact ⟨hx.1, fun o s'' hs ho ↦ ih o s'' (hx.2 o s'' hs ho)⟩

end Step.KeepsTo

namespace Eval.KeepsTo

variable {α β : Type} [Tracked α] [Tracked β] {n : Nat} {v w : Value} {ctx : Context}
  {vs args : List Value} {block : Option Value} {name : String} {scope : ScopeId} {span : Span}

theorem pure {a : α} (ha : Known n a) : KeepsTo n (Pure.pure a : Eval α) :=
  fun _ hs ↦ ⟨rfl, hs, ha⟩

theorem bind {x : Eval α} {f : α → Eval β} (hx : KeepsTo n x)
    (hf : ∀ a, Known n a → KeepsTo n (f a)) : KeepsTo n (x >>= f) := by
  intro s hs
  rw [bind_apply]
  exact (hx s hs).bind fun a s' ha hs' ↦ hf a ha s' hs'

theorem read {f : State → α} (hf : ∀ s, Known n s → Known n (f s)) : KeepsTo n (read f) :=
  fun s hs ↦ ⟨rfl, hs, hf s hs⟩

theorem change {f : State → α × State}
    (hf : ∀ s, Known n s → (f s).2.lambdas = s.lambdas ∧ Known n (f s).2 ∧ Known n (f s).1) :
    KeepsTo n (modifyGet f : Eval α) := hf

theorem modify {f : State → State}
    (hf : ∀ s, Known n s → (f s).lambdas = s.lambdas ∧ Known n (f s)) :
    KeepsTo n (modify f : Eval Unit) :=
  fun s hs ↦ ⟨(hf s hs).1, (hf s hs).2, trivial⟩

theorem unwind {u : Unwind} (hu : Known n u) : KeepsTo n (unwind u : Eval α) :=
  fun _ hs ↦ ⟨rfl, hs, hu⟩

theorem ofOutcome {o : Outcome α} (ho : Known n o) : KeepsTo n (ofOutcome o) :=
  fun _ hs ↦ ⟨rfl, hs, ho⟩

theorem perform {t : Task} (ht : Known n t) : KeepsTo n (perform t) :=
  fun _ hs ↦ ⟨⟨rfl, hs, ht⟩, fun _ _ hs' ho ↦ ⟨rfl, hs', ho⟩⟩

theorem attempt {x : Eval α} (hx : KeepsTo n x) : KeepsTo n (attempt x) :=
  fun s hs ↦ (hx s hs).attempt

theorem keeping {x : Eval α} {h : Held} (hh : Known n h) (hx : KeepsTo n x) :
    KeepsTo n (keeping h x) := by
  intro s hs
  have inside : Known n { s with held := h :: s.held } := { hs with held := .cons hh hs.held }
  have same : ({ s with held := h :: s.held } : State).lambdas = s.lambdas := rfl
  exact .of_earlier same ((hx _ inside).restoring hs.held)

theorem holding {x : Eval α} (hvs : Known n vs) (hx : KeepsTo n x) : KeepsTo n (holding vs x) :=
  .keeping ⟨hvs, trivial⟩ hx

theorem within {x : Eval α} (hctx : Known n ctx) (hvs : Known n vs) (hx : KeepsTo n x) :
    KeepsTo n (within ctx vs x) := .keeping ⟨hvs, hctx⟩ hx

theorem eval {e : Expr} (hctx : Known n ctx) : KeepsTo n (eval e ctx) := .perform hctx

theorem send (hv : Known n v) (hargs : Known n args) (hblock : Known n block) :
    KeepsTo n (send v name args block span) := .perform ⟨hv, hargs, hblock⟩

theorem callLambda {l : LambdaId} (hl : Known n l) (hargs : Known n args)
    (hblock : Known n block) : KeepsTo n (Eval.perform (.callLambda l args block span)) :=
  .perform ⟨hl, hargs, hblock⟩

theorem callValue (hv : Known n v) (hargs : Known n args) (hblock : Known n block) :
    KeepsTo n (callValue v args block span) := by
  cases v with
  | lambda l => exact .callLambda hv hargs hblock
  | _ => exact .send hv hargs hblock

theorem newList (hvs : Known n vs) : KeepsTo n (newList vs) :=
  .change fun _ hs ↦ ⟨rfl, hs.newList hvs.toArray, trivial⟩

theorem newObject (t : TypeId) : KeepsTo n (newObject t) :=
  .change fun _ hs ↦ ⟨rfl, hs.newObject t .emptyBindings, trivial⟩

theorem newScope (outer : ScopeId) : KeepsTo n (newScope outer) :=
  .change fun _ hs ↦ ⟨rfl, hs.newScope outer, trivial⟩

theorem define (hv : Known n v) : KeepsTo n (define scope name v) :=
  .modify fun _ hs ↦ ⟨rfl, hs.define scope name hv⟩

theorem assign (hv : Known n v) : KeepsTo n (assign scope name v) :=
  .modify fun _ hs ↦ ⟨rfl, hs.assign scope name hv⟩

theorem changeTypes {f : Types → Types} (hf : ∀ ts, Known n ts → Known n (f ts)) :
    KeepsTo n (modifyGet fun s : State ↦ ((), { s with types := f s.types }) : Eval Unit) :=
  .change fun _ hs ↦ ⟨rfl, hs.withTypes (hf _ hs.types), trivial⟩

theorem raise (hv : Known n v) : KeepsTo n (raise v span : Eval α) :=
  .bind (.read fun _ _ _ _ ↦ trivial) fun _ _ ↦ .unwind hv

theorem raiseError (t : CoreType) (message : String) (span : Span) :
    KeepsTo n (raiseError t message span : Eval α) :=
  .bind (.change fun _ hs ↦ ⟨rfl, hs.newObject _ (.single ⟨trivial, trivial⟩), trivial⟩)
    fun _ hv ↦ .raise hv

theorem fault (f : Fault) (span : Span) : KeepsTo n (fault f span : Eval α) :=
  .raiseError f.type f.message span

theorem missing {f : Fault} (hv : Known n v) : KeepsTo n (missing f v name span : Eval α) := by
  refine .bind (.change fun _ hs ↦ ⟨rfl, hs.newObject _ ?_, trivial⟩) fun _ hw ↦ .raise hw
  exact .cons ⟨trivial, trivial⟩ (.cons ⟨trivial, trivial⟩ (.single ⟨trivial, hv⟩))

theorem resultText (hv : Known n v) : KeepsTo n (resultText v) := by
  refine .bind (.read fun _ _ ↦ .text? _) fun text _ ↦ ?_
  cases text with
  | some text => exact .pure trivial
  | none => exact .bind (.perform hv) fun _ _ ↦ .pure trivial

theorem inspect (hv : Known n v) : KeepsTo n (inspect v) := by
  refine .bind (.read fun _ _ ↦ .text? _) fun text _ ↦ ?_
  cases text with
  | some text => exact .pure trivial
  | none => exact .bind (.holding (.single hv) (.send hv .nil trivial)) fun _ hw ↦ .resultText hw

theorem display (hv : Known n v) : KeepsTo n (display v) := by
  refine .bind (.read fun _ _ ↦ .text? _) fun text _ ↦ ?_
  cases text with
  | some text => exact .pure trivial
  | none => exact .bind (.holding (.single hv) (.send hv .nil trivial)) fun _ hw ↦ .resultText hw

theorem describe (hv : Known n v) : KeepsTo n (describe v) := by
  refine .bind (.attempt (.inspect hv)) fun o _ ↦ ?_
  cases o with
  | ok text => exact .pure trivial
  | error u => exact .pure hv

theorem rawText (hv : Known n v) : KeepsTo n (rawText v) := by
  refine .bind (.read fun _ _ ↦ .text? _) fun text _ ↦ ?_
  cases text with
  | some text => exact .pure trivial
  | none => exact .pure hv

theorem inspectAnyway (hv : Known n v) : KeepsTo n (inspectAnyway v) :=
  .bind (.perform hv) fun _ _ ↦ .pure trivial

theorem valuesEqual (hv : Known n v) (hw : Known n w) : KeepsTo n (valuesEqual v w) := by
  unfold Eval.valuesEqual
  cases v.scalarEq? w with
  | some answer => exact .pure trivial
  | none =>
    exact .bind (.holding (.cons hv (.single hw)) (.send hv (.single hw) trivial)) fun _ _ ↦
      .pure trivial

theorem constant? (ctx : Context) (name : String) : KeepsTo n (constant? ctx name) := by
  refine .bind (.modify fun s hs ↦ ⟨?_, hs.letGoAround name _⟩) fun _ _ ↦
    .read fun _ hs ↦ hs.findConstant _ name
  obtain ⟨types, heq⟩ := s.letGoAround_eq name ctx.module
  rw [heq]

theorem constant (ctx : Context) (name : String) (span : Span) :
    KeepsTo n (constant ctx name span) := by
  refine .bind (.constant? ctx name) fun v hv ↦ ?_
  cases v with
  | some v => exact .pure hv
  | none => exact .fault _ span

theorem followPath (hv : Known n v) (walked : String) (path : List Ident) :
    KeepsTo n (followPath v walked path) := by
  induction path generalizing v walked with
  | nil => exact .pure hv
  | cons segment rest ih =>
    refine .bind (.read fun s hs ↦ ?_) fun found hfound ↦ ?_
    · cases v.type? with
      | some t => exact Known.constant? hs.types t segment.name
      | none => trivial
    · cases found with
      | some w => exact ih hfound _
      | none => exact .fault _ _

theorem constantAt (path : TypePath) (ctx : Context) : KeepsTo n (constantAt path ctx) := by
  unfold Eval.constantAt
  cases path.segments with
  | nil => exact .pure trivial
  | cons first rest => exact .bind (.constant ctx _ _) fun v hv ↦ .followPath hv _ rest

theorem typeAt (path : TypePath) (ctx : Context) : KeepsTo n (typeAt path ctx) := by
  refine .bind (.constantAt path ctx) fun v _ ↦ ?_
  cases v with
  | type t => exact .pure trivial
  | _ => exact .fault _ _

theorem fitsConstant (hv : Known n v) (hw : Known n w) : KeepsTo n (fitsConstant v w) := by
  unfold Eval.fitsConstant
  cases v with
  | type t => exact .read fun _ _ ↦ trivial
  | _ => exact .valuesEqual hv hw

theorem fitsPath {path : TypePath} (hv : Known n v) : KeepsTo n (fitsPath path v ctx) :=
  .bind (.constantAt path ctx) fun _ hc ↦ .fitsConstant hc hv

theorem matchedValues {m : Matched} (h : Known n m) : Known n m.values :=
  h.map fun _ hb ↦ hb.2

mutual

theorem matchPattern {ctx : Context} {acc : Matched} {v : Value} (hacc : Known n acc)
    (p : Pattern) (hv : Known n v) : KeepsTo n (matchPattern ctx acc p v) := by
  cases p with
  | wildcard span => unfold Eval.matchPattern; exact .pure hacc
  | bind name path =>
    cases path with
    | none => unfold Eval.matchPattern; exact .pure (.cons ⟨trivial, hv⟩ hacc)
    | some path =>
      unfold Eval.matchPattern
      refine .bind (.holding (matchedValues hacc) (.typeAt path ctx)) fun t _ ↦
        .bind (.read fun _ _ ↦ trivial) fun fits _ ↦ ?_
      split
      · exact .pure (.cons ⟨trivial, hv⟩ hacc)
      · exact .pure trivial
  | const path =>
    unfold Eval.matchPattern
    refine .bind (.holding (matchedValues hacc) (.fitsPath hv)) fun fits _ ↦ ?_
    split
    · exact .pure hacc
    · exact .pure trivial
  | literal value span =>
    unfold Eval.matchPattern
    have hl : Known n (Value.ofLiteral value) := by cases value <;> trivial
    refine .bind (.holding (matchedValues hacc) (.valuesEqual hl hv)) fun fits _ ↦ ?_
    split
    · exact .pure hacc
    · exact .pure trivial
  | list items span =>
    cases v with
    | list l =>
      unfold Eval.matchPattern
      refine .bind (.read fun _ hs ↦ (hs.items l).arrayList) fun found hfound ↦ ?_
      split
      · exact .holding hfound (matchAll hacc items hfound)
      · exact .pure trivial
    | _ => unfold Eval.matchPattern; exact .pure trivial
  | splat name span =>
    cases name with
    | some name => unfold Eval.matchPattern; exact .pure (.cons ⟨trivial, hv⟩ hacc)
    | none => unfold Eval.matchPattern; exact .pure hacc

theorem matchAll {ctx : Context} {acc : Matched} {vs : List Value} (hacc : Known n acc)
    (ps : List Pattern) (hvs : Known n vs) : KeepsTo n (matchAll ctx acc ps vs) := by
  cases ps with
  | nil => unfold Eval.matchAll; exact .pure hacc
  | cons p ps =>
    cases p with
    | splat name span =>
      have htaken : Known n (splatItems ps vs).1 := by
        rw [splatItems, List.splitAt_eq]
        exact hvs.subset (List.take_subset _ _)
      have hleft : Known n (splatItems ps vs).2 := by
        rw [splatItems, List.splitAt_eq]
        exact hvs.subset (List.drop_subset _ _)
      unfold Eval.matchAll
      cases name with
      | some name =>
        exact .bind (.newList htaken) fun v hv ↦ matchAll (.cons ⟨trivial, hv⟩ hacc) ps hleft
      | none => exact matchAll hacc ps hleft
    | _ =>
      cases vs with
      | nil => unfold Eval.matchAll; exact .pure hacc
      | cons v vs =>
        unfold Eval.matchAll
        refine .bind (matchPattern hacc _ hvs.head) fun found hfound ↦ ?_
        cases found with
        | some acc => exact matchAll hfound ps hvs.tail
        | none => exact .pure trivial

end

theorem matchSequence {ps : List Pattern} (hvs : Known n vs) :
    KeepsTo n (matchSequence ctx ps vs) := by
  unfold Eval.matchSequence
  split
  · exact .matchAll .nil ps hvs
  · exact .pure trivial

theorem defineAll {m : Matched} (hm : Known n m) : KeepsTo n (defineAll scope m) := by
  induction m with
  | nil => exact .pure trivial
  | cons b m ih => exact .bind (ih hm.tail) fun _ _ ↦ .define hm.head.2

theorem assignAll {m : Matched} (hm : Known n m) : KeepsTo n (assignAll scope m) := by
  induction m with
  | nil => exact .pure trivial
  | cons b m ih => exact .bind (ih hm.tail) fun _ _ ↦ .assign hm.head.2

theorem raiseNoMatch {p : Pattern} (hv : Known n v) :
    KeepsTo n (raiseNoMatch p v span : Eval α) :=
  .bind (.inspectAnyway hv) fun _ _ ↦ .fault _ span

theorem statementsAfter (hctx : Known n ctx) (hv : Known n v) (es : List Expr) :
    KeepsTo n (statementsAfter ctx v es) := by
  induction es generalizing v with
  | nil => exact .pure hv
  | cons e rest ih =>
    cases rest with
    | nil => exact .holding (.single hv) (.eval hctx)
    | cons => exact .bind (.holding (.single hv) (.eval hctx)) fun w hw ↦ ih hw

theorem statements (hctx : Known n ctx) (es : List Expr) : KeepsTo n (statements ctx es) := by
  match es with
  | [] => exact .pure trivial
  | [e] => exact .eval hctx
  | e :: e' :: rest =>
    exact .bind (.eval hctx) fun v hv ↦ .statementsAfter hctx hv (e' :: rest)

theorem valuesOnto (hctx : Known n ctx) (hvs : Known n vs) (es : List Expr) :
    KeepsTo n (valuesOnto ctx vs es) := by
  induction es generalizing vs with
  | nil => exact .pure hvs.reverse
  | cons e rest ih =>
    exact .bind (.holding hvs (.eval hctx)) fun v hv ↦ ih (.cons hv hvs)

theorem values {es : List Expr} (hctx : Known n ctx) : KeepsTo n (values es ctx) :=
  .valuesOnto hctx .nil es

theorem optional {e : Option Expr} (hctx : Known n ctx) : KeepsTo n (optional e ctx) := by
  cases e with
  | some e => exact .eval hctx
  | none => exact .pure trivial

theorem guardHolds {guard : Option Expr} (hctx : Known n ctx) :
    KeepsTo n (guardHolds guard ctx) := by
  cases guard with
  | some e => exact .bind (.eval hctx) fun _ _ ↦ .pure trivial
  | none => exact .pure trivial

theorem inNewScope (hctx : Known n ctx) : KeepsTo n (inNewScope ctx) :=
  .bind (.newScope ctx.scope) fun _ _ ↦ .pure hctx

theorem rescueMatch {p : Option Pattern} (hv : Known n v) : KeepsTo n (rescueMatch p ctx v) := by
  cases p with
  | some p => exact .matchPattern .nil p hv
  | none => exact .pure .nil

theorem bindsRescued {clause : Rescue} (hctx : Known n ctx) (hv : Known n v) :
    KeepsTo n (bindsRescued clause v ctx) := by
  refine .bind (.rescueMatch hv) fun found hfound ↦ ?_
  cases found with
  | none => exact .pure trivial
  | some found => exact .bind (.defineAll hfound) fun _ _ ↦ .guardHolds hctx

theorem rescue {r : Raised} (hctx : Known n ctx) (hr : Known n r) (clauses : List Rescue) :
    KeepsTo n (rescue ctx r clauses) := by
  induction clauses with
  | nil => exact .unwind hr
  | cons clause rest ih =>
    refine .bind (.inNewScope hctx) fun inner hinner ↦
      .bind (.within hinner (.single hr) (.bindsRescued hinner hr)) fun meant _ ↦ ?_
    split
    · exact .within hinner .nil (.perform ⟨hr, hinner⟩)
    · exact ih

theorem afterStatements {b : Body} {o : Outcome Value} (hctx : Known n ctx) (ho : Known n o) :
    KeepsTo n (afterStatements b ctx o) := by
  cases o with
  | error u =>
    cases u with
    | raise r => exact .rescue hctx ho b.rescues
    | _ => exact .unwind ho
  | ok v =>
    unfold Eval.afterStatements
    cases b.elseBody with
    | some es => exact .holding (.single ho) (.statements hctx es)
    | none => exact .pure ho

theorem outcomeValues {o : Outcome Value} (ho : Known n o) : Known n (outcomeValues o) := by
  rcases o with (r | v | v | ⟨l, v⟩ | v | l) | v
  case error.halt => exact .nil
  case error.blockBreak => exact .single ho.2
  all_goals exact .single ho

theorem ensuring {ensure : Option (List Expr)} {o : Outcome Value} (hctx : Known n ctx)
    (ho : Known n o) : KeepsTo n (ensuring ensure ctx o) := by
  unfold Eval.ensuring
  split
  · exact .ofOutcome ho
  · exact .ofOutcome ho
  · exact .bind (.holding (outcomeValues ho) (.statements hctx _)) fun _ _ ↦ .ofOutcome ho

theorem body {b : Body} (hctx : Known n ctx) : KeepsTo n (body b ctx) := by
  unfold Eval.body
  split
  · exact .bind (.attempt (.statements hctx _)) fun first hfirst ↦
      .bind (.attempt (.afterStatements hctx hfirst)) fun o ho ↦ .ensuring hctx ho
  · exact .statements hctx b.statements

theorem setAttr {target : Value} (hv : Known n v) : KeepsTo n (setAttr target name v span) := by
  unfold Eval.setAttr
  cases target with
  | object o => exact .modify fun _ hs ↦ ⟨rfl, hs.setObjectAttr o name hv⟩
  | type t => exact .modify fun _ hs ↦ ⟨rfl, hs.setTypeAttr t name hv⟩
  | _ => exact .bind (.read fun _ _ ↦ trivial) fun _ _ ↦ .fault _ span

theorem place {t : Target} (hctx : Known n ctx) : KeepsTo n (place t ctx) := by
  cases t with
  | index receiver args =>
    exact .bind (.eval hctx) fun v hv ↦
      .bind (.holding (.single hv) (.values hctx)) fun _ hargs ↦ .pure (.cons hv hargs)
  | member receiver name => exact .bind (.eval hctx) fun v hv ↦ .pure (.single hv)
  | _ => exact .pure .nil

theorem readPlace {p : Place} (hp : Known n p) : KeepsTo n (readPlace p ctx span) := by
  cases p with
  | variable_ name =>
    exact .bind (.read fun _ hs ↦ Known.valueOf? hs.scopes ctx.scope name) fun v hv ↦
      .pure (hv.getD trivial)
  | attr name => exact .read fun _ hs ↦ hs.attr ctx.self name
  | constant name => exact .bind (.constant? ctx name) fun v hv ↦ .pure (hv.getD trivial)
  | index receiver args => exact .send hp.head hp.tail trivial
  | member receiver name => exact .send hp.head .nil trivial

theorem writePlace {p : Place} (hp : Known n p) (hv : Known n v) :
    KeepsTo n (writePlace p v ctx span) := by
  cases p with
  | variable_ name => exact .assign hv
  | attr name => exact .setAttr hv
  | constant name => exact .changeTypes fun _ hts ↦ hts.setConstant ctx.module name hv
  | index receiver args =>
    exact .bind (.send hp.head (hp.tail.append (.single hv)) trivial) fun _ _ ↦ .pure trivial
  | member receiver name =>
    exact .bind (.send hp.head (.single hv) trivial) fun _ _ ↦ .pure trivial

theorem assignment {t : Target} {value : Expr} (hctx : Known n ctx) :
    KeepsTo n (assignment t value ctx span) :=
  .bind (.place hctx) fun _ hp ↦ .bind (.holding hp (.eval hctx)) fun _ hv ↦
    .bind (.holding (.single hv) (.writePlace hp hv)) fun _ _ ↦ .pure hv

theorem compoundAssignment {op : Compound} {t : Target} {value : Expr} (hctx : Known n ctx) :
    KeepsTo n (compoundAssignment op t value ctx span) := by
  refine .bind (.place hctx) fun p hp ↦
    .bind (.holding hp (.readPlace hp)) fun old hold ↦ ?_
  cases op with
  | arith op =>
    exact .bind (.holding (.cons hold hp) (.eval hctx)) fun right hright ↦
      .bind (.holding hp (.send hold (.single hright) trivial)) fun new hnew ↦
        .bind (.holding (.single hnew) (.writePlace hp hnew)) fun _ _ ↦ .pure hnew
  | logic op =>
    dsimp only
    split
    · exact .pure hold
    · exact .bind (.holding (.cons hold hp) (.eval hctx)) fun new hnew ↦
        .bind (.holding (.cons hnew (.single hold)) (.writePlace hp hnew)) fun _ _ ↦ .pure hnew

theorem superclass {e : Expr} (hctx : Known n ctx) : KeepsTo n (superclass e ctx) := by
  refine .bind (.eval hctx) fun v hv ↦ .bind (.read fun _ _ ↦ .type? _) fun t _ ↦ ?_
  cases t with
  | some t => exact .pure trivial
  | none => exact .bind (.inspectAnyway hv) fun _ _ ↦ .fault _ _

theorem superclass? {e : Option Expr} (hctx : Known n ctx) : KeepsTo n (superclass? e ctx) := by
  cases e with
  | some e => exact .bind (.superclass hctx) fun t _ ↦ .pure trivial
  | none => exact .pure trivial

theorem openAgain (d : TypeDef) (superclass : Option TypeId) (v : Value) :
    KeepsTo n (openAgain d superclass v) := by
  cases v with
  | type t =>
    have known (s : State) : Known n (s.types.sort t, s.types.superclass t) := ⟨trivial, .type? _⟩
    refine .bind (.read fun s _ ↦ known s) fun (sort, current) _ ↦ ?_
    dsimp only
    split
    · exact .fault _ _
    · split
      · exact .bind (.read fun _ _ ↦ trivial) fun _ _ ↦ .fault _ _
      · exact .pure trivial
  | _ => exact .fault _ _

theorem openType (d : TypeDef) (superclass : Option TypeId) (container : TypeId) :
    KeepsTo n (openType d superclass container) := by
  refine .bind (.read fun _ hs ↦ Known.constant? hs.types container d.name.name) fun found _ ↦ ?_
  cases found with
  | none =>
    exact .change fun _ hs ↦
      ⟨rfl, hs.withTypes (Known.declare hs.types container d.sort d.name.name superclass), trivial⟩
  | some v => exact .openAgain d superclass v

theorem defineType {d : TypeDef} (hctx : Known n ctx) : KeepsTo n (defineType d ctx) := by
  have known (scope : ScopeId) (t : TypeId) : Known n (⟨scope, .type t, t, none⟩ : Context) :=
    ⟨trivial, trivial⟩
  exact .bind (.superclass? hctx) fun superclass _ ↦
    .bind (.openType d superclass ctx.module) fun t _ ↦
      .bind (.changeTypes fun _ hts ↦ hts.document t d.doc) fun _ _ ↦
        .bind (.newScope _) fun scope _ ↦
          .bind (.within (known scope t) .nil (.statements (known scope t) d.body)) fun _ _ ↦
            .pure trivial

theorem defineMethod (d : MethodDef) (ctx : Context) : KeepsTo n (defineMethod d ctx) := by
  unfold Eval.defineMethod
  dsimp only
  split
  · cases ctx.self with
    | type t =>
      exact .bind (.changeTypes fun _ hts ↦ hts.addClassMethod t d.name.name (.user d)) fun _ _ ↦
        .pure trivial
    | _ => exact .bind (.fault _ _) fun _ _ ↦ .pure trivial
  · exact .bind (.changeTypes fun _ hts ↦ hts.addMethod ctx.module d.name.name (.user d))
      fun _ _ ↦ .pure trivial

theorem includeInto {e : Expr} (hctx : Known n ctx) : KeepsTo n (includeInto e ctx) := by
  refine .bind (.eval hctx) fun v hv ↦ .bind (.read fun _ _ ↦ .type? _) fun t _ ↦ ?_
  cases t with
  | some t =>
    exact .bind (.changeTypes fun _ hts ↦ hts.includeModule ctx.module t) fun _ _ ↦ .pure hv
  | none => exact .bind (.inspectAnyway hv) fun _ _ ↦ .fault _ _

end Eval.KeepsTo

end Quill
