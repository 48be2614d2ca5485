import Quill.Proofs.Evaluation
import Quill.Proofs.Protection

/-!
# Comparing without a message

Two scalars are compared without a message. As long as a message `==` to a scalar finds only the
method that is there from the start, its answer would be the same: `comparisons_as_by_message`.
-/

namespace Quill

open Eval

/-- What the name finds for instances of a type, if that is a single built-in clause. -/
def Types.soleNative? (ts : Types) (name : String) (t : TypeId) : Option NativeMethod :=
  match ts.firstWith name (ts.ancestors t) with
  | some (_, [.native n]) => some n
  | _ => none

namespace CoreType

def scalars : List CoreType := [nil, bool, int, float, string, symbol]

/-- The comparison of scalars that is there from the start. -/
def comparison : CoreType → Signature × Routine
  | int | float => (⟨.number, [.any], none, .ignored⟩, .number .equal)
  | string => (⟨.string, [.any], none, .ignored⟩, .text .equal)
  | symbol => (⟨.symbol, [.any], none, .ignored⟩, .text .equal)
  | _ => (⟨.any, [.any], none, .ignored⟩, .object .identical)

theorem comparison_installed {t : CoreType} (ht : t ∈ scalars) :
    (Types.standard.soleNative? "==" t.id).map (fun n ↦ (n.signature, n.routine)) =
      some t.comparison := by
  revert t
  decide +kernel

end CoreType

/-- Messages `==` to scalars find what they find from the start. -/
def State.ComparesAsInstalled (s : State) : Prop :=
  ∀ t ∈ CoreType.scalars, s.types.soleNative? "==" t.id = Types.standard.soleNative? "==" t.id

namespace Types

theorem firstWith_of_sole {ts : Types} {name : String} {t : TypeId} {n : NativeMethod}
    (h : ts.soleNative? name t = some n) :
    ∃ owner, ts.firstWith name (ts.ancestors t) = some (owner, [.native n]) := by
  unfold soleNative? at h
  split at h
  · rename_i owner n' hfound
    cases h
    exact ⟨owner, hfound⟩
  · cases h

end Types

namespace Value

/-- Whether two values are equal as far as no message needs to be sent. -/
def plainlyEqual (l r : Value) : Bool := (l.scalarEq? r).getD false

theorem scalarEq?_eq_none {l r : Value} :
    l.scalarEq? r = none ↔ l.isScalar = false ∨ r.isScalar = false := by
  cases l <;> cases r <;> simp [scalarEq?, isScalar]

theorem comparison_run {l : Value} (hl : l.isScalar) (s : State) (r : Value) (span : Span) :
    ∃ t ∈ CoreType.scalars, s.typeOf l = t.id ∧
      t.comparison.1.mismatch s.types.sort l [r] false = none ∧
      t.comparison.2.run ⟨l, [r], none, span⟩ = pure (.bool (l.plainlyEqual r)) := by
  cases l with
  | nil => exact ⟨.nil, by decide, rfl, rfl, by cases r <;> rfl⟩
  | bool b => exact ⟨.bool, by decide, rfl, rfl, by cases r <;> rfl⟩
  | int n => exact ⟨.int, by decide, rfl, rfl, rfl⟩
  | float x => exact ⟨.float, by decide, rfl, rfl, rfl⟩
  | str text => exact ⟨.string, by decide, rfl, rfl, rfl⟩
  | symbol name => exact ⟨.symbol, by decide, rfl, rfl, rfl⟩
  | _ => cases hl

end Value

namespace State

variable {s s' : State} {l r v : Value} {span : Span} {name : String} {bare : Bool}

theorem answer_of_sole {n : NativeMethod} (hown : s.ownMethod? v name = none)
    (hname : isConstantName name = false)
    (hn : s.types.soleNative? name (s.typeOf v) = some n) :
    ∃ m, s.answer v name bare = .method m ∧ m.clauses = [.native n] := by
  obtain ⟨owner, hfound⟩ := Types.firstWith_of_sole hn
  have hinstance : s.instanceMethod? v name = some ⟨name, owner, false, [.native n]⟩ := by
    simp only [instanceMethod?, methodAmong, hfound, Option.map_some]
  refine ⟨⟨name, owner, false, [.native n]⟩, ?_, rfl⟩
  simp [State.answer, hown, namedConstant?, hname, hinstance]

theorem ComparesAsInstalled.answer (hs : s.ComparesAsInstalled) (hl : l.isScalar) (r : Value)
    (span : Span) : ∃ m n, s.answer l "==" false = .method m ∧ m.clauses = [.native n] ∧
      n.signature.mismatch s.types.sort l [r] false = none ∧
      n.routine.run ⟨l, [r], none, span⟩ = pure (.bool (l.plainlyEqual r)) := by
  obtain ⟨t, ht, htype, hfits, hrun⟩ := Value.comparison_run hl s r span
  obtain ⟨n, hn, hcomparison⟩ := Option.map_eq_some_iff.mp (CoreType.comparison_installed ht)
  rw [← hcomparison] at hfits hrun
  have hown : s.ownMethod? l "==" = none := by
    cases l with
    | type id => cases hl
    | _ => rfl
  have hsole : s.types.soleNative? "==" (s.typeOf l) = some n := by
    rw [htype, hs t ht, hn]
  obtain ⟨m, hanswer, hclauses⟩ := answer_of_sole hown rfl hsole
  exact ⟨m, n, hanswer, hclauses, hfits, hrun⟩

end State

namespace Eval

variable {α β : Type} {s s₁ s₂ s' : State} {l r : Value} {span : Span}

theorem Gives.unique {x : Eval α} {o o' : Outcome α} (h : x.Gives s o s₁)
    (h' : x.Gives s o' s₂) : o' = o ∧ s₂ = s₁ := by
  obtain ⟨es, hes⟩ := h
  obtain ⟨es', hes'⟩ := h'
  exact (hes.unique hes').2

/-- The message to `v` is answered by a built-in method that has the value `w` and changes
nothing. -/
def AnswersPlainly (s : State) (v : Value) (name : String) (args : List Value) (span : Span)
    (w : Value) : Prop :=
  ∃ m n, s.answer v name args.isEmpty = .method m ∧ m.clauses = [.native n] ∧
    n.signature.mismatch s.types.sort v args false = none ∧
    ∀ held frames, (n.routine.run ⟨v, args, none, span⟩).Gives { s with held, frames } (.ok w)
      { s with held, frames }

namespace AnswersPlainly

variable {v w u : Value} {name : String} {args : List Value}

theorem framed (h : AnswersPlainly s v name args span w) :
    ∃ (n : NativeMethod) (held : List Held),
      (∀ frames, (n.routine.run ⟨v, args, none, span⟩).Gives { s with held, frames } (.ok w)
        { s with held, frames }) ∧
      ∀ o s₁, (Task.framed ⟨n.label, span⟩ (.native n ⟨v, args, none, span⟩)).Gives
        { s with held } o s₁ →
        (send v name args none span).Gives s o { s₁ with held := s.held } := by
  obtain ⟨m, n, hanswer, hclauses, hfits, hrun⟩ := h
  refine ⟨n, ⟨[.type m.owner], none⟩ :: s.held, hrun _, fun o s₁ h ↦ ?_⟩
  have hanswer : s.answer v name (args.isEmpty && Option.isNone (none : Option Value)) =
      .method m := by simpa using hanswer
  have hsend : (Task.send name ⟨v, args, none, span⟩).Gives s o { s₁ with held := s.held } :=
    .send_framed hanswer hclauses hfits h
  exact Gives.perform hsend

theorem send (h : AnswersPlainly s v name args span w)
    (hroom : s.frames.size < s.config.maxCallDepth) :
    (Eval.send v name args none span).Gives s (.ok w) s := by
  obtain ⟨n, held, hrun, hsend⟩ := h.framed
  have hsent := hsend _ _ (Task.Gives.framed (s := { s with held }) hroom (.native (hrun _)))
  rwa [Array.pop_push] at hsent

theorem send_deep (h : AnswersPlainly s v name args span w)
    (hdeep : s.config.maxCallDepth ≤ s.frames.size) :
    (Eval.send v name args none span).Gives s
      (.error (.halt (.depth s.config.maxCallDepth))) s := by
  obtain ⟨n, held, -, hsend⟩ := h.framed
  exact hsend _ { s with held } (.framed_deep _ _ hdeep)

theorem of_send (h : AnswersPlainly s v name args span w)
    (hu : (Eval.send v name args none span).Gives s (.ok u) s') :
    s.frames.size < s.config.maxCallDepth ∧ u = w ∧ s' = s := by
  obtain hroom | hdeep := Nat.lt_or_ge s.frames.size s.config.maxCallDepth
  · obtain ⟨hv, hs'⟩ := (h.send hroom).unique hu
    cases hv
    exact ⟨hroom, rfl, hs'⟩
  · cases ((h.send_deep hdeep).unique hu).1

end AnswersPlainly

theorem answersPlainly_scalar (hs : s.ComparesAsInstalled) (hl : l.isScalar) (r : Value)
    (span : Span) : AnswersPlainly s l "==" [r] span (.bool (l.plainlyEqual r)) := by
  obtain ⟨m, n, hanswer, hclauses, hfits, hrun⟩ := hs.answer hl r span
  exact ⟨m, n, hanswer, hclauses, hfits, fun _ _ ↦ by rw [hrun]; exact .pure _ _⟩

theorem send_scalar (hs : s.ComparesAsInstalled) (hl : l.isScalar)
    (hroom : s.frames.size < s.config.maxCallDepth) :
    (send l "==" [r] none span).Gives s (.ok (.bool (l.plainlyEqual r))) s :=
  (answersPlainly_scalar hs hl r span).send hroom

theorem send_scalar_answers {v : Value} (hs : s.ComparesAsInstalled) (hl : l.isScalar)
    (h : (send l "==" [r] none span).Gives s (.ok v) s') :
    s.frames.size < s.config.maxCallDepth ∧ v = .bool (l.plainlyEqual r) ∧ s' = s :=
  (answersPlainly_scalar hs hl r span).of_send h

/-- Asks `l` whether it is equal to `r`, with both held as where values are compared. -/
def ask (l r : Value) : Eval Value := holding [l, r] (send l "==" [r] none .origin)

theorem valuesEqual_of_ask {v : Value} (hundecided : l.scalarEq? r = none)
    (h : (ask l r).Gives s (.ok v) s') : (valuesEqual l r).Gives s (.ok v.isTruthy) s' := by
  unfold valuesEqual
  rw [hundecided]
  exact .bind h (.pure _ _)

theorem valuesEqual_scalar (hs : s.ComparesAsInstalled) (hl : l.isScalar)
    (hroom : s.frames.size < s.config.maxCallDepth) :
    (valuesEqual l r).Gives s (.ok (Value.bool (l.plainlyEqual r)).isTruthy) s := by
  cases heq : l.scalarEq? r with
  | some answer =>
    have htruthy : (Value.bool (l.plainlyEqual r)).isTruthy = answer := by
      rw [Value.plainlyEqual, heq]
      cases answer <;> rfl
    rw [htruthy]
    unfold valuesEqual
    rw [heq]
    exact .pure answer s
  | none =>
    -- The other value is no scalar, so the message is sent after all.
    have hsend : (send l "==" [r] none .origin).Gives
        { s with held := ⟨[l, r], none⟩ :: s.held } (.ok (.bool (l.plainlyEqual r)))
        { s with held := ⟨[l, r], none⟩ :: s.held } := send_scalar hs hl hroom
    exact valuesEqual_of_ask heq hsend.keeping

theorem valuesEqual_of_send {v : Value} (hs : s.ComparesAsInstalled) (hl : l.isScalar)
    (h : (send l "==" [r] none span).Gives s (.ok v) s') :
    (valuesEqual l r).Gives s (.ok v.isTruthy) s' := by
  obtain ⟨hroom, rfl, rfl⟩ := send_scalar_answers hs hl h
  exact valuesEqual_scalar hs hl hroom

theorem valuesEqual_of_answer {v : Value} (hs : s.ComparesAsInstalled)
    (h : (ask l r).Gives s (.ok v) s') : (valuesEqual l r).Gives s (.ok v.isTruthy) s' := by
  cases hl : l.isScalar with
  | false => exact valuesEqual_of_ask (Value.scalarEq?_eq_none.mpr (.inl hl)) h
  | true =>
    obtain ⟨es, hes⟩ := h
    obtain ⟨s₁, hsend, rfl⟩ := holding_course hes
    have hheld : State.ComparesAsInstalled { s with held := ⟨[l, r], none⟩ :: s.held } := hs
    obtain ⟨hroom, rfl, rfl⟩ := send_scalar_answers hheld hl ⟨es, hsend⟩
    exact valuesEqual_scalar hs hl hroom

/-- `x` ends as `y` does if that has a value and does only tasks as `ok` says. -/
def Follows (ok : Episode → Prop) (x y : Eval α) : Prop :=
  ∀ s es a s', (y s).Course es (.ok a) s' → (∀ e ∈ es, ok e) → x.Gives s (.ok a) s'

namespace Follows

variable {ok : Episode → Prop}

theorem refl (x : Eval α) : x.Follows ok x := fun _ es _ _ h _ ↦ ⟨es, h⟩

theorem bind {x y : Eval α} {f g : α → Eval β} (h : x.Follows ok y)
    (hf : ∀ a, (f a).Follows ok (g a)) : (x >>= f).Follows ok (y >>= g) := by
  intro s es b s' hcourse hes
  rw [bind_apply] at hcourse
  obtain ⟨u, hu, -⟩ | ⟨a, es₁, es₂, s₁, rfl, hy, hg⟩ := hcourse.bind
  · cases hu
  · have hx := h s es₁ a s₁ hy fun e he ↦ hes e (List.mem_append_left _ he)
    exact hx.bind (hf a s₁ es₂ b s' hg fun e he ↦ hes e (List.mem_append_right _ he))

theorem holding {x y : Eval α} (vs : List Value) (h : x.Follows ok y) :
    (holding vs x).Follows ok (holding vs y) := by
  intro s es a s' hcourse hes
  obtain ⟨s₁, hy, rfl⟩ := holding_course hcourse
  exact (h _ es a s₁ hy hes).keeping

end Follows

/-- `x` ends as `y` does if that has a value, and if scalars compare as from the start whenever `y`
asks for a comparison. -/
def Spares (x y : Eval α) : Prop :=
  ∀ s es a s', (y s).Course es (.ok a) s' →
    (∀ e ∈ es, ∀ c, e.task = .send "==" c → e.before.ComparesAsInstalled) → x.Gives s (.ok a) s'

theorem spares_iff {x y : Eval α} : x.Spares y ↔
    x.Follows (fun e ↦ ∀ c, e.task = .send "==" c → e.before.ComparesAsInstalled) y := .rfl

namespace Spares

theorem refl (x : Eval α) : x.Spares x := spares_iff.mpr (.refl x)

theorem bind {x y : Eval α} {f g : α → Eval β} (h : x.Spares y) (hf : ∀ a, (f a).Spares (g a)) :
    (x >>= f).Spares (y >>= g) := spares_iff.mpr (.bind (spares_iff.mp h) hf)

theorem holding {x y : Eval α} (vs : List Value) (h : x.Spares y) :
    (holding vs x).Spares (holding vs y) := spares_iff.mpr (.holding vs (spares_iff.mp h))

end Spares

def asks (l r : Value) : Eval Bool := do return (← ask l r).isTruthy

theorem valuesEqual_spares (l r : Value) : (valuesEqual l r).Spares (asks l r) := by
  intro s es b s' hcourse hes
  unfold asks at hcourse
  rw [bind_apply] at hcourse
  obtain ⟨u, hu, -⟩ | ⟨v, es₁, es₂, s₁, rfl, hask, hrest⟩ := hcourse.bind
  · cases hu
  · obtain ⟨-, hb, rfl⟩ := hrest.of_done
    cases hb
    have hs : s.ComparesAsInstalled := by
      obtain ⟨s₂, hsend, -⟩ := holding_course hask
      obtain ⟨rfl, -⟩ := perform_course hsend
      exact hes _ List.mem_cons_self _ rfl
    exact valuesEqual_of_answer hs ⟨es₁, hask⟩

section

variable (same : Value → Value → Eval Bool)

/-- Like `fitsConstant`, with `same` to tell whether values are equal. -/
def fitsConstantBy (c v : Value) : Eval Bool :=
  match c with
  | .type t => read (·.isInstance v t)
  | c => same c v

def fitsPathBy (path : TypePath) (v : Value) (ctx : Context) : Eval Bool := do
  fitsConstantBy same (← constantAt path ctx) v

mutual

/-- Like `matchPattern`, with `same` to tell whether values are equal. -/
def matchPatternBy (ctx : Context) (acc : Matched) : Pattern → Value → Eval (Option Matched)
  | .const path, v => do
    if ← holding acc.values (fitsPathBy same path v ctx) then return some acc else return none
  | .literal value _, v => do
    if ← holding acc.values (same (.ofLiteral value) v) then return some acc else return none
  | .list items _, .list l => do
    let found ← read fun s => (s.items l).toList
    if countFits items found.length then holding found (matchAllBy ctx acc items found)
    else return none
  | p, v => matchPattern ctx acc p v

def matchAllBy (ctx : Context) (acc : Matched) : List Pattern → List Value → Eval (Option Matched)
  | .splat name _ :: ps, values => do
    let (taken, left) := splatItems ps values
    match name with
    | some name => matchAllBy ctx ((name.name, ← newList taken) :: acc) ps left
    | none => matchAllBy ctx acc ps left
  | p :: ps, v :: values => do
    match ← matchPatternBy ctx acc p v with
    | some acc => matchAllBy ctx acc ps values
    | none => return none
  | _, _ => return some acc

end

end

end Eval

namespace ListRoutine

section

variable (same : Value → Value → Eval Bool)

/-- Like `containsItem`, with `same` to tell whether values are equal. -/
def containsItemBy (needle : Value) : List Value → Eval Bool
  | [] => return false
  | item :: rest => do
    if ← same item needle then return true else containsItemBy needle rest

def positionOfBy (needle : Value) (index : Nat) : List Value → Eval (Option Nat)
  | [] => return none
  | item :: rest => do
    if ← same item needle then return some index else positionOfBy needle (index + 1) rest

def matchForBy (item : Value) (index : Nat) : List Value → Eval (Option Nat)
  | [] => return none
  | candidate :: rest => do
    if ← same item candidate then return some index else matchForBy item (index + 1) rest

def equalItemsBy : List Value → List Value → Eval Bool
  | a :: as, b :: bs => do if ← same a b then equalItemsBy as bs else return false
  | _, _ => return true

def lessItemsBy (span : Span) : List Value → List Value → Eval Bool
  | a :: as, b :: bs => do
    if ← same a b then lessItemsBy span as bs
    else return (← send a "<" [b] none span).isTruthy
  | [], _ :: _ => return true
  | _, [] => return false

def subsetOfBy (other : List Value) : List Value → Eval Bool
  | [] => return true
  | item :: rest => do
    if ← containsItemBy same item other then subsetOfBy other rest else return false

def pairUpBy (candidates : Array Value) : List Value → Eval Bool
  | [] => return true
  | item :: rest => do
    match ← holding candidates.toList (matchForBy same item 0 candidates.toList) with
    | some i => pairUpBy (swapRemove candidates i) rest
    | none => return false

/-- Like `runOn`, with `same` to tell whether values are equal. -/
def runOnBy (r : ListRoutine) (l : ListId) (c : Call) : Eval Value :=
  match r with
  | includes => do
    let items ← read fun s => (s.items l).toList
    return .bool (← holding items (containsItemBy same (c.arg 0) items))
  | indexOf => do
    let items ← read fun s => (s.items l).toList
    match ← holding items (positionOfBy same (c.arg 0) 0 items) with
    | some i => return .int (Int64.ofNat i)
    | none => return .nil
  | equal => match c.arg 0 with
    | .list other => do
      if l = other then return .bool true
      else
        let (as, bs) ← itemsOf l other
        if as.length = bs.length then
          return .bool (← holding as (holding bs (equalItemsBy same as bs)))
        else return .bool false
    | _ => return .bool false
  | less => withArgument c fun other => do
    let (as, bs) ← itemsOf l other
    return .bool (← holding as (holding bs (lessItemsBy same c.span as bs)))
  | isSubset => withArgument c fun other => do
    let (as, bs) ← itemsOf l other
    return .bool (← holding as (holding bs (subsetOfBy same bs as)))
  | sameElements => withArgument c fun other => do
    let (as, bs) ← itemsOf l other
    if as.length = bs.length then return .bool (← holding as (pairUpBy same bs.toArray as))
    else return .bool false
  | r => r.runOn l c

end

end ListRoutine

namespace Eval.Spares

section

variable {same : Value → Value → Eval Bool}

theorem fitsPath (hsame : ∀ l r, (valuesEqual l r).Spares (same l r)) (path : TypePath)
    (v : Value) (ctx : Context) : (fitsPath path v ctx).Spares (fitsPathBy same path v ctx) := by
  refine .bind (.refl _) fun c ↦ ?_
  cases c with
  | type t => exact .refl _
  | _ => exact hsame _ v

mutual

theorem matchPattern (hsame : ∀ l r, (valuesEqual l r).Spares (same l r)) (ctx : Context)
    (acc : Matched) (p : Pattern) (v : Value) :
    (matchPattern ctx acc p v).Spares (matchPatternBy same ctx acc p v) := by
  cases p with
  | const path =>
    unfold Eval.matchPattern matchPatternBy
    exact .bind (.holding _ (.fitsPath hsame path v ctx)) fun _ ↦ .refl _
  | literal value span =>
    unfold Eval.matchPattern matchPatternBy
    exact .bind (.holding _ (hsame _ v)) fun _ ↦ .refl _
  | list items span =>
    cases v with
    | list l =>
      unfold Eval.matchPattern matchPatternBy
      refine .bind (.refl _) fun found ↦ ?_
      split
      · exact .holding _ (matchAll hsame ctx acc items found)
      · exact .refl _
    | _ => unfold matchPatternBy; exact .refl _
  | _ => unfold matchPatternBy; exact .refl _

theorem matchAll (hsame : ∀ l r, (valuesEqual l r).Spares (same l r)) (ctx : Context)
    (acc : Matched) (ps : List Pattern) (vs : List Value) :
    (matchAll ctx acc ps vs).Spares (matchAllBy same ctx acc ps vs) := by
  cases ps with
  | nil => unfold Eval.matchAll matchAllBy; exact .refl _
  | cons p ps =>
    cases p with
    | splat name span =>
      unfold Eval.matchAll matchAllBy
      cases name with
      | some name => exact .bind (.refl _) fun v ↦ matchAll hsame ctx _ ps _
      | none => exact matchAll hsame ctx acc ps _
    | _ =>
      cases vs with
      | nil => unfold Eval.matchAll matchAllBy; exact .refl _
      | cons v vs =>
        unfold Eval.matchAll matchAllBy
        refine .bind (matchPattern hsame ctx acc _ v) fun found ↦ ?_
        cases found with
        | some acc => exact matchAll hsame ctx acc ps vs
        | none => exact .refl _

end

variable (hsame : ∀ l r, (valuesEqual l r).Spares (same l r))

include hsame

open ListRoutine

theorem containsItem (needle : Value) (items : List Value) :
    (containsItem needle items).Spares (containsItemBy same needle items) := by
  induction items with
  | nil => exact .refl _
  | cons item rest ih =>
    refine .bind (hsame item needle) fun found ↦ ?_
    cases found with
    | true => exact .refl _
    | false => exact ih

theorem positionOf (needle : Value) (index : Nat) (items : List Value) :
    (positionOf needle index items).Spares (positionOfBy same needle index items) := by
  induction items generalizing index with
  | nil => exact .refl _
  | cons item rest ih =>
    refine .bind (hsame item needle) fun found ↦ ?_
    cases found with
    | true => exact .refl _
    | false => exact ih _

theorem matchFor (item : Value) (index : Nat) (candidates : List Value) :
    (matchFor item index candidates).Spares (matchForBy same item index candidates) := by
  induction candidates generalizing index with
  | nil => exact .refl _
  | cons candidate rest ih =>
    refine .bind (hsame item candidate) fun found ↦ ?_
    cases found with
    | true => exact .refl _
    | false => exact ih _

theorem equalItems (as bs : List Value) : (equalItems as bs).Spares (equalItemsBy same as bs) := by
  induction as generalizing bs with
  | nil => exact .refl _
  | cons a as ih =>
    cases bs with
    | nil => exact .refl _
    | cons b bs =>
      refine .bind (hsame a b) fun equal ↦ ?_
      cases equal with
      | true => exact ih bs
      | false => exact .refl _

theorem lessItems (span : Span) (as bs : List Value) :
    (lessItems span as bs).Spares (lessItemsBy same span as bs) := by
  induction as generalizing bs with
  | nil => cases bs <;> exact .refl _
  | cons a as ih =>
    cases bs with
    | nil => exact .refl _
    | cons b bs =>
      refine .bind (hsame a b) fun equal ↦ ?_
      cases equal with
      | true => exact ih bs
      | false => exact .refl _

theorem subsetOf (other items : List Value) :
    (subsetOf other items).Spares (subsetOfBy same other items) := by
  induction items with
  | nil => exact .refl _
  | cons item rest ih =>
    refine .bind (.containsItem hsame item other) fun found ↦ ?_
    cases found with
    | true => exact ih
    | false => exact .refl _

theorem pairUp (candidates : Array Value) (items : List Value) :
    (pairUp candidates items).Spares (pairUpBy same candidates items) := by
  induction items generalizing candidates with
  | nil => exact .refl _
  | cons item rest ih =>
    refine .bind (.holding _ (.matchFor hsame item 0 _)) fun found ↦ ?_
    cases found with
    | some i => exact ih _
    | none => exact .refl _

theorem runOn (r : ListRoutine) (l : ListId) (c : Call) :
    (r.runOn l c).Spares (runOnBy same r l c) := by
  have withArgument {f g : ListId → Eval Value} (h : ∀ other, (f other).Spares (g other)) :
      (withArgument c f).Spares (withArgument c g) := by
    unfold ListRoutine.withArgument
    split
    · exact h _
    · exact .refl _
  cases r with
  | includes =>
    exact .bind (.refl _) fun items ↦
      .bind (.holding _ (.containsItem hsame _ items)) fun _ ↦ .refl _
  | indexOf =>
    exact .bind (.refl _) fun items ↦
      .bind (.holding _ (.positionOf hsame _ 0 items)) fun _ ↦ .refl _
  | equal =>
    unfold ListRoutine.runOn runOnBy
    cases c.arg 0 with
    | list other =>
      dsimp only
      split
      · exact .refl _
      · refine .bind (.refl _) fun items ↦ ?_
        split
        · exact .bind (.holding _ (.holding _ (.equalItems hsame _ _))) fun _ ↦ .refl _
        · exact .refl _
    | _ => exact .refl _
  | less =>
    exact withArgument fun other ↦ .bind (.refl _) fun items ↦
      .bind (.holding _ (.holding _ (.lessItems hsame _ _ _))) fun _ ↦ .refl _
  | isSubset =>
    exact withArgument fun other ↦ .bind (.refl _) fun items ↦
      .bind (.holding _ (.holding _ (.subsetOf hsame _ _))) fun _ ↦ .refl _
  | sameElements =>
    refine withArgument fun other ↦ .bind (.refl _) fun items ↦ ?_
    dsimp only
    split
    · exact .bind (.holding _ (.pairUp hsame _ _)) fun _ ↦ .refl _
    · exact .refl _
  | _ => exact .refl _

end

end Eval.Spares

/-- As long as scalars compare as they do from the start, the answer to `l == r` tells what
comparing `l` with `r` comes to: that of a scalar wherever the message comes from, and that of any
value to the message which a comparison would send. So patterns and the methods of lists end as if
every comparison was a message. -/
theorem comparisons_as_by_message :
    (∀ (s : State) (l r v : Value) (s' : State), s.ComparesAsInstalled →
      (ask l r).Gives s (.ok v) s' → (valuesEqual l r).Gives s (.ok v.isTruthy) s') ∧
    (∀ (s : State) (l r : Value) (span : Span) (v : Value) (s' : State), s.ComparesAsInstalled →
      l.isScalar → (send l "==" [r] none span).Gives s (.ok v) s' →
      (valuesEqual l r).Gives s (.ok v.isTruthy) s') ∧
    (∀ ctx acc p v, (matchPattern ctx acc p v).Spares (matchPatternBy asks ctx acc p v)) ∧
    ∀ r l c, (ListRoutine.runOn r l c).Spares (ListRoutine.runOnBy asks r l c) :=
  ⟨fun _ _ _ _ _ hs h ↦ valuesEqual_of_answer hs h,
    fun _ _ _ _ _ _ hs hl h ↦ valuesEqual_of_send hs hl h,
    .matchPattern valuesEqual_spares, .runOn valuesEqual_spares⟩

/-- In a new interpreter `1` answers that it is not equal to `"1"`. -/
theorem number_compared_with_text :
    (ask (.int 1) (.str "1")).Gives (.initial .standard) (.ok (.bool false))
        (.initial .standard) ∧
      (valuesEqual (.int 1) (.str "1")).Gives (.initial .standard) (.ok false)
        (.initial .standard) := by
  have installed : (State.initial .standard).ComparesAsInstalled := fun _ _ ↦ rfl
  have hsend : (send (.int 1) "==" [.str "1"] none .origin).Gives
      { State.initial .standard with held := [⟨[.int 1, .str "1"], none⟩] } (.ok (.bool false))
      { State.initial .standard with held := [⟨[.int 1, .str "1"], none⟩] } :=
    send_scalar installed rfl (by decide)
  have answer : (ask (.int 1) (.str "1")).Gives (.initial .standard) (.ok (.bool false))
      (.initial .standard) := hsend.keeping
  exact ⟨answer, comparisons_as_by_message.1 _ _ _ _ _ installed answer⟩

end Quill
