import Quill.Proofs.Course
import Quill.Proofs.Evolution

namespace Quill

namespace Eval

variable {ω : Type} {view : Scopes Value → ω} {α : Type} {P : α → Prop}

namespace Quiet

theorem raise (v : Value) (span : Span) : Quiet view P (raise v span : Eval α) :=
  .bind (.read _) fun _ _ ↦ .unwind _

theorem fault (f : Fault) (span : Span) : Quiet view P (fault f span : Eval α) :=
  .bind (.change fun _ ↦ rfl) fun v _ ↦ .raise v span

theorem inspectAnyway (v : Value) : Quiet view (fun _ ↦ True) (inspectAnyway v) :=
  .bind (.perform _) fun _ _ ↦ .read _

theorem raiseNoMatch (p : Pattern) (v : Value) (span : Span) :
    Quiet view P (raiseNoMatch p v span : Eval α) :=
  .bind (.inspectAnyway v) fun _ _ ↦ .fault _ span

theorem valuesEqual (a b : Value) : Quiet view (fun _ ↦ True) (valuesEqual a b) := by
  unfold Eval.valuesEqual
  cases a.scalarEq? b with
  | some answer => exact .pure trivial
  | none => exact .bind (.holding _ (.perform _)) fun _ _ ↦ .pure trivial

theorem constant (ctx : Context) (name : String) (span : Span) :
    Quiet view (fun _ ↦ True) (constant ctx name span) := by
  have found : Quiet view (fun _ ↦ True) (constant? ctx name) := by
    refine .bind (.change fun s ↦ ?_) fun _ _ ↦ .read _
    obtain ⟨types, h⟩ := s.letGoAround_eq name ctx.module
    change view (s.letGoAround name ctx.module).scopes = _
    rw [h]
  refine .bind found fun v _ ↦ ?_
  cases v with
  | some v => exact .pure trivial
  | none => exact .fault _ span

theorem followPath (v : Value) (walked : String) (path : List Ident) :
    Quiet view (fun _ ↦ True) (followPath v walked path) := by
  induction path generalizing v walked with
  | nil => exact .pure trivial
  | cons segment rest ih =>
    refine .bind (.read _) fun found _ ↦ ?_
    cases found with
    | some v => exact ih v _
    | none => exact .fault _ _

theorem constantAt (path : TypePath) (ctx : Context) :
    Quiet view (fun _ ↦ True) (constantAt path ctx) := by
  unfold Eval.constantAt
  cases path.segments with
  | nil => exact .pure trivial
  | cons first rest => exact .bind (.constant ctx _ _) fun v _ ↦ .followPath v _ rest

theorem typeAt (path : TypePath) (ctx : Context) :
    Quiet view (fun _ ↦ True) (typeAt path ctx) := by
  refine .bind (.constantAt path ctx) fun v _ ↦ ?_
  cases v with
  | type t => exact .pure trivial
  | _ => exact .fault _ _

theorem fitsPath (path : TypePath) (v : Value) (ctx : Context) :
    Quiet view (fun _ ↦ True) (fitsPath path v ctx) := by
  refine .bind (.constantAt path ctx) fun c _ ↦ ?_
  unfold fitsConstant
  cases c with
  | type t => exact .read _
  | _ => exact .valuesEqual _ v

theorem statementsAfter (ctx : Context) (last : Value) (es : List Expr) :
    Quiet view (fun _ ↦ True) (statementsAfter ctx last es) := by
  induction es generalizing last with
  | nil => exact .pure trivial
  | cons e rest ih =>
    cases rest with
    | nil => exact .holding _ (.perform _)
    | cons => exact .bind (.holding _ (.perform _)) fun v _ ↦ ih v

theorem statements (ctx : Context) (es : List Expr) :
    Quiet view (fun _ ↦ True) (statements ctx es) := by
  match es with
  | [] => exact .pure trivial
  | [e] => exact .perform _
  | e :: e' :: rest => exact .bind (.perform _) fun v _ ↦ .statementsAfter ctx v (e' :: rest)

theorem guardHolds (guard : Option Expr) (ctx : Context) :
    Quiet view (fun _ ↦ True) (guardHolds guard ctx) := by
  cases guard with
  | some e => exact .bind (.perform _) fun _ _ ↦ .pure trivial
  | none => exact .pure trivial

theorem admits (guard : Option Expr) (ctx : Context) :
    Quiet view (fun _ ↦ True) (admits guard ctx) := by
  cases guard with
  | some e => exact .bind (.perform _) fun _ _ ↦ .pure trivial
  | none => exact .pure trivial

end Quiet

/-- A match that succeeds has found the names, beside those of before. The latest come first. -/
def Collects (names : List String) (before : Matched) (r : Option Matched) : Prop :=
  ∀ found, r = some found → found.map (·.1) = names.reverse ++ before.map (·.1)

namespace Collects

variable {before : Matched} {names names' : List String}

theorem none : Collects names before none := nofun

theorem self : Collects [] before (some before) := by
  rintro found ⟨⟩
  rfl

theorem one (name : String) (v : Value) :
    Collects [name] before (some ((name, v) :: before)) := by
  rintro found ⟨⟩
  rfl

theorem append {found : Matched} {r : Option Matched} (h : Collects names before (some found))
    (h' : Collects names' found r) : Collects (names ++ names') before r := by
  intro found' hr
  rw [h' found' hr, h found rfl, List.reverse_append, List.append_assoc]

end Collects

theorem countP_le_of_countFits {ps : List Pattern} {n : Nat} (h : countFits ps n = true) :
    ps.countP (!·.isSplat) ≤ n := by
  unfold countFits at h
  dsimp only at h
  split at h
  · exact of_decide_eq_true h
  · exact Nat.le_of_eq (beq_iff_eq.mp h).symm

theorem countP_le_splatItems {after : List Pattern} {values : List Value}
    (h : after.countP (!·.isSplat) ≤ values.length) :
    after.countP (!·.isSplat) ≤ (splatItems after values).2.length := by
  have hle : after.countP (!·.isSplat) ≤ after.length := List.countP_le_length
  simp only [splatItems, List.splitAt_eq, List.length_drop]
  omega

theorem matchAll_cons (ctx : Context) (acc : Matched) {p : Pattern} (ps : List Pattern) (v : Value)
    (vs : List Value) (hp : ¬ p.isSplat = true) :
    matchAll ctx acc (p :: ps) (v :: vs) = do
      match ← matchPattern ctx acc p v with
      | some acc => matchAll ctx acc ps vs
      | none => return none := by
  cases p with
  | splat => exact absurd rfl hp
  | _ =>
    rw [matchAll]
    all_goals first | rfl | simp

mutual

theorem matchPattern_quiet (ctx : Context) (acc : Matched) (p : Pattern) (v : Value) :
    Quiet view (Collects p.names acc) (matchPattern ctx acc p v) := by
  cases p with
  | wildcard span =>
    unfold matchPattern
    exact .pure .self
  | bind name path =>
    cases path with
    | none =>
      unfold matchPattern
      exact .pure (.one _ v)
    | some path =>
      unfold matchPattern
      refine .bind (.holding _ (.typeAt path ctx)) fun t _ ↦ .bind (.read _) fun fits _ ↦ ?_
      split
      · exact .pure (.one _ v)
      · exact .pure .none
  | const path =>
    unfold matchPattern
    refine .bind (.holding _ (.fitsPath path v ctx)) fun fits _ ↦ ?_
    split
    · exact .pure .self
    · exact .pure .none
  | literal value span =>
    unfold matchPattern
    refine .bind (.holding _ (.valuesEqual _ v)) fun fits _ ↦ ?_
    split
    · exact .pure .self
    · exact .pure .none
  | list items span =>
    cases v with
    | list l =>
      unfold matchPattern
      refine .bind (.read _) fun found _ ↦ ?_
      split
      · rename_i hfits
        exact .holding _ (matchAll_quiet ctx acc items found (countP_le_of_countFits hfits))
      · exact .pure .none
    | _ =>
      unfold matchPattern
      exact .pure .none
  | splat name span =>
    cases name with
    | some name =>
      unfold matchPattern
      exact .pure (.one _ v)
    | none =>
      unfold matchPattern
      exact .pure .self

theorem matchAll_quiet (ctx : Context) (acc : Matched) (ps : List Pattern) (vs : List Value)
    (h : ps.countP (!·.isSplat) ≤ vs.length) :
    Quiet view (Collects (Pattern.names.all ps) acc) (matchAll ctx acc ps vs) := by
  cases ps with
  | nil =>
    unfold matchAll
    exact .pure .self
  | cons p ps =>
    by_cases hp : p.isSplat = true
    · cases p with
      | splat name span =>
        rw [List.countP_cons_of_neg (by simp [Pattern.isSplat])] at h
        have hleft := countP_le_splatItems h
        unfold matchAll
        cases name with
        | some name =>
          refine .bind (.change fun _ ↦ rfl) fun v _ ↦ ?_
          exact (matchAll_quiet ctx _ ps _ hleft).mono fun r hr ↦ (Collects.one _ v).append hr
        | none => exact matchAll_quiet ctx acc ps _ hleft
      | _ => cases hp
    · cases vs with
      | nil => simp [hp] at h
      | cons v vs =>
        have hrest : ps.countP (!·.isSplat) ≤ vs.length := by
          simpa [hp] using h
        rw [matchAll_cons ctx acc ps v vs hp]
        refine .bind (matchPattern_quiet ctx acc p v) fun found hfound ↦ ?_
        cases found with
        | some found =>
          exact (matchAll_quiet ctx found ps vs hrest).mono fun r hr ↦ hfound.append hr
        | none => exact .pure .none

end

theorem matchSequence_quiet (ctx : Context) (ps : List Pattern) (vs : List Value) :
    Quiet view (Collects (Pattern.names.all ps) []) (matchSequence ctx ps vs) := by
  unfold matchSequence
  split
  · rename_i hfits
    exact matchAll_quiet ctx [] ps vs (countP_le_of_countFits hfits)
  · exact .pure .none

def namesOf (p : Option Pattern) : List String := p.elim [] Pattern.names

theorem rescueMatch_quiet (p : Option Pattern) (ctx : Context) (v : Value) :
    Quiet view (Collects (namesOf p) []) (rescueMatch p ctx v) := by
  cases p with
  | some p => exact matchPattern_quiet ctx [] p v
  | none => exact .pure .self

end Eval

end Quill
