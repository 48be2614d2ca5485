import Quill.Proofs.Fresh
import Quill.Proofs.Installed
import Quill.Proofs.Unpacking

/-!
# What core types answer as from the start

As long as nothing of a name is defined for a core type, its instances answer messages of that name
with the built-in method of the catalogue: `Types.FindsInstalled.offers`. What that method answers,
the message answers: `Eval.Answers.offered`.
-/

namespace Quill

namespace Types

variable {ts : Types} {name : String} {cores : List CoreType}

/-- Instances of these core types find under the name what they find there from the start. -/
def FindsInstalled (ts : Types) (name : String) (cores : List CoreType) : Prop :=
  ∀ t ∈ cores, ts.firstWith name (ts.ancestors t.id) =
    standard.firstWith name (standard.ancestors t.id)

theorem FindsInstalled.offers {t : CoreType} {e : Routine.Entry}
    (h : ts.FindsInstalled e.name cores) (ht : t ∈ cores) (he : standard.offers t e = true) :
    ts.offers t e = true := by
  unfold Types.offers at he ⊢
  rwa [h t ht]

end Types

theorem State.Reached.findsInstalled {s : State} {name : String} (h : s.Reached)
    (hname : s.types.AllBuiltIn name) (cores : List CoreType) :
    s.types.FindsInstalled name cores := fun t _ ↦ h.finds_installed hname t

namespace Eval

section

variable {s : State} {p q : Prop}

/-- The work tells whether `p`, and changes nothing. -/
def Tells (x : Eval Bool) (s : State) (p : Prop) : Prop := ∃ b, x.Gives s (.ok b) s ∧ (b = true ↔ p)

/-- The value of the work tells whether `p`, and nothing changes. -/
def Answers (x : Eval Value) (s : State) (p : Prop) : Prop :=
  ∃ b, x.Gives s (.ok (.bool b)) s ∧ (b = true ↔ p)

theorem Tells.pure {b : Bool} (h : b = true ↔ p) : (Pure.pure b : Eval Bool).Tells s p :=
  ⟨b, .pure b s, h⟩

theorem Tells.congr {x : Eval Bool} (hx : x.Tells s p) (h : p ↔ q) : x.Tells s q := by
  obtain ⟨b, hgives, hb⟩ := hx
  exact ⟨b, hgives, hb.trans h⟩

theorem Tells.holding {x : Eval Bool} {vs : List Value}
    (h : x.Tells { s with held := ⟨vs, none⟩ :: s.held } p) : (holding vs x).Tells s p := by
  obtain ⟨b, hgives, hb⟩ := h
  exact ⟨b, hgives.keeping, hb⟩

theorem Tells.ite {x y z : Eval Bool} {r : Prop} (hx : x.Tells s p) (hy : p → y.Tells s q)
    (hz : ¬p → z.Tells s r) :
    (x >>= fun b ↦ if b then y else z).Tells s (p ∧ q ∨ ¬p ∧ r) := by
  obtain ⟨b, hgives, hb⟩ := hx
  cases b with
  | true =>
    have hp : p := hb.mp rfl
    obtain ⟨b', hgives', hb'⟩ := hy hp
    exact ⟨b', hgives.bind hgives', by simp [hb', hp]⟩
  | false =>
    have hp : ¬p := fun hp ↦ Bool.false_ne_true (hb.mpr hp)
    obtain ⟨b', hgives', hb'⟩ := hz hp
    exact ⟨b', hgives.bind hgives', by simp [hb', hp]⟩

theorem Answers.pure {b : Bool} (h : b = true ↔ p) :
    (Pure.pure (.bool b) : Eval Value).Answers s p := ⟨b, .pure _ s, h⟩

theorem Answers.holding {x : Eval Value} {vs : List Value}
    (h : x.Answers { s with held := ⟨vs, none⟩ :: s.held } p) : (holding vs x).Answers s p := by
  obtain ⟨b, hgives, hb⟩ := h
  exact ⟨b, hgives.keeping, hb⟩

theorem Answers.reading {α : Type} {g : State → α} {f : α → Eval Value}
    (h : (f (g s)).Answers s p) : (read g >>= f).Answers s p := by
  obtain ⟨b, hgives, hb⟩ := h
  exact ⟨b, .bind (.read g s) hgives, hb⟩

theorem Answers.negated {x : Eval Value} (h : x.Answers s p) :
    (x >>= fun v ↦ Pure.pure (.bool (!v.isTruthy))).Answers s (¬p) := by
  obtain ⟨b, hgives, hb⟩ := h
  refine ⟨!b, hgives.bind ?_, by rw [← hb, Bool.not_eq_true, Bool.not_eq_true']⟩
  cases b <;> exact .pure _ s

theorem Answers.truthy {x : Eval Value} (h : x.Answers s p) :
    (x >>= fun v ↦ Pure.pure v.isTruthy).Tells s p := by
  obtain ⟨b, hgives, hb⟩ := h
  refine ⟨b, hgives.bind ?_, hb⟩
  cases b <;> exact .pure _ s

theorem Tells.answers {x : Eval Bool} (h : x.Tells s p) :
    (x >>= fun b ↦ Pure.pure (Value.bool b)).Answers s p := by
  obtain ⟨b, hgives, hb⟩ := h
  exact ⟨b, hgives.bind (.pure _ s), hb⟩

end

end Eval

variable {s : State} {t : CoreType} {e : Routine.Entry}

/-- The task ends as the work does in a call of its own. -/
def Task.CallsFor (t : Task) (x : Eval Value) (s : State) : Prop :=
  ∃ held frame, ∀ o s', x.Gives { s with held, frames := s.frames.push frame } o s' →
    t.Gives s o { s' with frames := s'.frames.pop, held := s.held }

theorem Task.CallsFor.offered {c : Call} (he : s.types.offers t e = true)
    (ht : s.typeOf c.receiver = t.id) (hv : c.receiver.type? = none)
    (hfits : e.signature.mismatch s.types.sort c.receiver c.args c.block.isSome = none)
    (hs : s.frames.size < s.config.maxCallDepth) :
    (Task.send e.name c).CallsFor (e.routine.run c) s := by
  obtain ⟨m, n, hanswer, hclauses, hsignature, hroutine⟩ :=
    State.answer_of_offers ht hv he (c.args.isEmpty && c.block.isNone)
  refine ⟨⟨[.type m.owner], none⟩ :: s.held, ⟨n.label, c.span⟩, fun o s' h ↦
    .send hanswer hclauses ?_ hs ?_⟩
  · rw [hsignature]
    exact hfits
  · rw [hroutine]
    exact h

theorem Eval.Answers.offered {v : Value} {args : List Value} {span : Span} {p : Prop}
    (he : s.types.offers t e = true) (ht : s.typeOf v = t.id) (hv : v.type? = none)
    (hfits : e.signature.mismatch s.types.sort v args false = none)
    (hs : s.frames.size < s.config.maxCallDepth)
    (h : ∀ held frame, (e.routine.run ⟨v, args, none, span⟩).Answers
      { s with held, frames := s.frames.push frame } p) :
    (Eval.send v e.name args none span).Answers s p := by
  obtain ⟨held, frame, hsend⟩ :=
    Task.CallsFor.offered (c := ⟨v, args, none, span⟩) he ht hv hfits hs
  obtain ⟨b, hgives, hb⟩ := h held frame
  have hsent := Gives.perform (hsend _ _ hgives)
  rw [Array.pop_push] at hsent
  exact ⟨b, hsent, hb⟩

def Clause.builtIn? : Clause → Option (Signature × Routine)
  | .native n => some (n.signature, n.routine)
  | .user _ => none

/-- Instances of `t` answer the message with the first of these methods that takes the call. -/
def Types.offersFirst (ts : Types) (t : CoreType) (name : String) (es : List Routine.Entry) :
    Bool :=
  match ts.firstWith name (ts.ancestors t.id) with
  | some (_, clauses) =>
    clauses.map Clause.builtIn? == es.map fun e ↦ some (e.signature, e.routine)
  | none => false

theorem Types.FindsInstalled.offersFirst {ts : Types} {name : String} {cores : List CoreType}
    {es : List Routine.Entry} (h : ts.FindsInstalled name cores) (ht : t ∈ cores)
    (hes : standard.offersFirst t name es = true) : ts.offersFirst t name es = true := by
  unfold Types.offersFirst at hes ⊢
  rwa [h t ht]

theorem Eval.invoke_first {c : Call} {m : Method} {before after : List Routine.Entry}
    (hclauses : m.clauses.map Clause.builtIn? =
      (before ++ e :: after).map fun e ↦ some (e.signature, e.routine))
    (hbefore : ∀ p ∈ before,
      p.signature.mismatch s.types.sort c.receiver c.args c.block.isSome ≠ none)
    (hfits : e.signature.mismatch s.types.sort c.receiver c.args c.block.isSome = none) :
    ∃ n : NativeMethod, n.routine = e.routine ∧
      Eval.invoke m c s = Eval.holding [.type m.owner] (Eval.runNative n c) s := by
  unfold Eval.invoke
  generalize m.clauses = clauses at hclauses
  generalize (none : Option Mismatch) = mismatch
  induction before generalizing clauses mismatch with
  | nil =>
    obtain ⟨clause, rest, rfl, hclause, -⟩ := List.map_eq_cons_iff.mp hclauses
    cases clause with
    | user d => cases hclause
    | native n =>
      obtain ⟨hsignature, hroutine⟩ := Prod.mk.inj (Option.some.inj hclause)
      rw [← hsignature] at hfits
      refine ⟨n, hroutine, ?_⟩
      rw [Eval.runClauses, Eval.read_bind, hfits]
  | cons p before ih =>
    obtain ⟨clause, rest, rfl, hclause, hrest⟩ := List.map_eq_cons_iff.mp hclauses
    obtain ⟨hp, hbefore⟩ := List.forall_mem_cons.mp hbefore
    cases clause with
    | user d => cases hclause
    | native n =>
      obtain ⟨hsignature, -⟩ := Prod.mk.inj (Option.some.inj hclause)
      obtain ⟨reason, hreason⟩ := Option.ne_none_iff_exists'.mp hp
      rw [← hsignature] at hreason
      obtain ⟨n', hn', hinvoke⟩ := ih hbefore rest hrest (mismatch.or (some reason))
      refine ⟨n', hn', ?_⟩
      rw [Eval.runClauses, Eval.read_bind, hreason]
      exact hinvoke

theorem Task.CallsFor.first {name : String} {c : Call} {before after : List Routine.Entry}
    (hoffers : s.types.offersFirst t name (before ++ e :: after) = true)
    (ht : s.typeOf c.receiver = t.id) (hv : c.receiver.type? = none)
    (hbefore : ∀ p ∈ before,
      p.signature.mismatch s.types.sort c.receiver c.args c.block.isSome ≠ none)
    (hfits : e.signature.mismatch s.types.sort c.receiver c.args c.block.isSome = none)
    (hs : s.frames.size < s.config.maxCallDepth) :
    (Task.send name c).CallsFor (e.routine.run c) s := by
  unfold Types.offersFirst at hoffers
  split at hoffers
  · rename_i owner clauses hfound
    obtain ⟨n, hroutine, hinvoke⟩ := Eval.invoke_first (m := ⟨name, owner, false, clauses⟩)
      (eq_of_beq hoffers) hbefore hfits
    refine ⟨⟨[.type owner], none⟩ :: s.held, ⟨n.label, c.span⟩, fun o s' h ↦ ?_⟩
    rw [← hroutine] at h
    have hcall : (Eval.invoke ⟨name, owner, false, clauses⟩ c).Gives s o
        { s' with frames := s'.frames.pop, held := s.held } := by
      unfold Eval.Gives
      rw [hinvoke]
      exact Eval.Gives.keeping _ (.perform (.framed hs (.native h)))
    refine .of_work (.answering (.bind (.read _ s) ?_))
    rw [State.answer_of_found ht hv hfound]
    exact hcall
  · cases hoffers

namespace Routine

def numberLess : Entry := fixed .number .number "<" [.number] (.number (.compare .less))

def textLess : Entry := fixed .string .string "<" [.string] (.text (.compare .less))

end Routine

section

variable {cores : List CoreType} {span : Span} (h : s.types.FindsInstalled "<" cores)
  (hs : s.frames.size < s.config.maxCallDepth)

include h hs

theorem Eval.send_less_int (hint : .int ∈ cores) (a b : Int64) :
    (Eval.send (.int a) "<" [.int b] none span).Answers s (a.toInt < b.toInt) := by
  have hoffers : s.types.offers .int Routine.numberLess = true :=
    h.offers hint (by decide +kernel)
  refine .offered hoffers rfl rfl rfl hs fun held frame ↦ .pure ?_
  change Relation.less.holds (some (compare a.toInt b.toInt)) = true ↔ _
  cases hcase : compare a.toInt b.toInt with
  | lt => simp [Relation.holds, Int.compare_eq_lt.mp hcase]
  | eq => simp [Relation.holds, Int.compare_eq_eq.mp hcase]
  | gt => simp [Relation.holds, Int.le_of_lt (Int.compare_eq_gt.mp hcase)]

theorem Eval.send_less_str (hstr : .string ∈ cores) (a b : String) :
    (Eval.send (.str a) "<" [.str b] none span).Answers s (a < b) := by
  have hoffers : s.types.offers .string Routine.textLess = true :=
    h.offers hstr (by decide +kernel)
  refine .offered hoffers rfl rfl rfl hs fun held frame ↦ .pure ?_
  change Relation.less.holds (some (compareTexts a b)) = true ↔ _
  unfold compareTexts
  split
  · simp [Relation.holds, *]
  · split <;> simp [Relation.holds, *]

end

namespace ListRoutine

variable {r : ListRoutine} {c : Call} {l : ListId}

theorem gives_of_runOn {o : Outcome Value} {s' : State} (hr : r ≠ .newEmpty ∧ r ≠ .newFilled)
    (hblock : r.needsBlock = false) (hvisit : ∀ first, r.visit? c first = none)
    (hc : c.receiver = .list l)
    (h : (r.runOn l c).Gives { s with held := ⟨c.values, none⟩ :: s.held } o s') :
    (r.run c).Gives s o { s' with held := s.held } := by
  unfold Eval.Gives
  rw [run_list hr hblock hvisit hc]
  exact h.keeping

theorem answers_of_runOn {p : Prop} (hr : r ≠ .newEmpty ∧ r ≠ .newFilled)
    (hblock : r.needsBlock = false) (hvisit : ∀ first, r.visit? c first = none)
    (hc : c.receiver = .list l)
    (h : (r.runOn l c).Answers { s with held := ⟨c.values, none⟩ :: s.held } p) :
    (r.run c).Answers s p := by
  obtain ⟨b, hgives, hb⟩ := h
  have hrun := gives_of_runOn (s := s) hr hblock hvisit hc hgives
  exact ⟨b, hrun, hb⟩

end ListRoutine

end Quill
