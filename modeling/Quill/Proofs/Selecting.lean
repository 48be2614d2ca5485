import Quill.Proofs.Iterating
import Quill.Proofs.Leniency
import Quill.Proofs.Steady

/-!
# Selecting elements

Where a block always answers the same about the same values, and has no effect that matters, it is
settled what a visit to the elements of a list comes to. So the methods that select, count and find
elements agree with each other. Main statement: `list_predicates_agree`.
-/

namespace Quill

open Eval

theorem Task.Gives.goesOn {t t' : Task} {s s₁ s' : State} {o : Outcome Value}
    (hwork : t.work.Gives s (.ok (.task t')) s₁) (h : t'.Gives s₁ o s') : t.Gives s o s' := by
  obtain ⟨es, hes⟩ := hwork
  obtain ⟨es', t'', hcomes⟩ := Task.gives_iff_course.mp h
  exact Task.gives_iff_course.mpr ⟨es ++ es', t'', .round hes hcomes⟩

/-- What tells the answer for an element: the block, or else the element itself. -/
def answerFor (block : Option Value) (span : Span) (args : List Value) (item : Value) :
    Eval Value :=
  match block with
  | some b => callValue b args none span
  | none => pure item

namespace Visit

/-- What a visit has come to after these elements, the first of which is at `i`, if `answer` tells
the answer for the arguments of the block. -/
def through (answer : List Value → Value) : Visit → Nat → List Value → Visit ⊕ Value
  | v, _, [] => .inl v
  | v, i, item :: rest =>
    match v.step item (answer (v.args i item)) with
    | .inl v' => through answer v' (i + 1) rest
    | .inr r => .inr r

/-- Whatever such a visit asks for is answered so, wherever `I` holds. -/
def Settled (I : State → Prop) (block : Option Value) (span : Span) (answer : List Value → Value) :
    Visit → Nat → List Value → Prop
  | _, _, [] => True
  | v, i, item :: rest =>
    (answerFor block span (v.args i item) item).Settles I (answer (v.args i item)) ∧
      ∀ v', v.step item (answer (v.args i item)) = .inl v' →
        Settled I block span answer v' (i + 1) rest

section

variable {I : State → Prop} {l : ListId} {block : Option Value} {span : Span} {s : State}
  {answer : List Value → Value} {v : Visit}

theorem round_gives (hI : ∀ s held, I s → I { s with held }) {i : Nat} {item a : Value}
    (hitem : (s.items l)[i]? = some item)
    (h : (answerFor block span (v.args i item) item).Settles I a) (hs : I s) :
    ∃ s₁, I s₁ ∧ (Task.visit v l block span i).work.Gives s (.ok ((v.step item a).elim
      (fun v' ↦ .task (.visit v' l block span (i + 1))) .value)) s₁ := by
  change ∃ s₁, I s₁ ∧ (visitRound v l block span i).Gives _ _ s₁
  unfold visitRound
  cases block with
  | some b =>
    obtain ⟨s₁, hgives, hs₁⟩ := h.holding hI (v.held item) s hs
    refine ⟨s₁, hs₁, .bind (.read _ s) ?_⟩
    rw [hitem]
    refine .bind hgives ?_
    dsimp only
    cases v.step item a <;> exact .pure _ _
  | none =>
    obtain ⟨s₁, hgives, hs₁⟩ := h s hs
    refine ⟨s₁, hs₁, .bind (.read _ s) ?_⟩
    rw [hitem]
    refine .bind hgives ?_
    dsimp only
    cases v.step item a <;> exact .pure _ _

theorem gives_of_settled (hI : ∀ s held, I s → I { s with held }) {before rest : List Value}
    (hitems : ∀ s, I s → (s.items l).toList = before ++ rest)
    (h : Settled I block span answer v before.length rest) (hs : I s) :
    ∃ s₁, I s₁ ∧ ∀ o s',
      ((through answer v before.length rest).elim (·.result l) pure : Eval Value).Gives s₁ o s' →
        (Task.visit v l block span before.length).Gives s o s' := by
  induction rest generalizing v before s with
  | nil =>
    have hitem : (s.items l)[before.length]? = none := by
      rw [← Array.getElem?_toList, hitems s hs, List.append_nil]
      exact List.getElem?_eq_none (Nat.le_refl _)
    refine ⟨s, hs, fun o s' hgives ↦ .of_work ?_⟩
    change (visitRound v l block span before.length).Gives _ _ _
    unfold visitRound
    refine .bind (.read _ s) ?_
    rw [hitem]
    exact hgives.answering
  | cons item rest ih =>
    have hitem : (s.items l)[before.length]? = some item := by
      rw [← Array.getElem?_toList, hitems s hs]
      rw [List.getElem?_append_right (Nat.le_refl _), Nat.sub_self, List.getElem?_cons_zero]
    obtain ⟨hanswer, hrest⟩ := h
    obtain ⟨s₁, hs₁, hround⟩ := round_gives hI hitem hanswer hs
    rw [through]
    cases hstep : v.step item (answer (v.args before.length item)) with
    | inr r =>
      rw [hstep] at hround
      refine ⟨s₁, hs₁, fun o s' ⟨es, hes⟩ ↦ ?_⟩
      obtain ⟨-, rfl, rfl⟩ := Step.Course.of_done hes
      exact .of_work hround
    | inl v' =>
      rw [hstep] at hround
      have hlength : (before ++ [item]).length = before.length + 1 := List.length_append
      have hitems' : ∀ s, I s → (s.items l).toList = (before ++ [item]) ++ rest := fun s hs ↦ by
        rw [hitems s hs, List.append_assoc, List.singleton_append]
      obtain ⟨s₂, hs₂, hgoes⟩ := ih hitems' (by rw [hlength]; exact hrest v' hstep) hs₁
      rw [hlength] at hgoes
      exact ⟨s₂, hs₂, fun o s' hgives ↦ .goesOn hround (hgoes o s' hgives)⟩

end

section

variable {answer : List Value → Value} (i : Nat) (xs : List Value)

theorem through_cons {v : Visit} {i : Nat} {x : Value} (hargs : v.args i x = [x])
    (xs : List Value) : v.through answer i (x :: xs) =
      (v.step x (answer [x])).elim (through answer · (i + 1) xs) .inr := by
  rw [through, hargs]
  cases v.step x (answer [x]) <;> rfl

theorem through_filter (keep : Bool) (kept : List Value) :
    (filter keep kept).through answer i xs =
      .inl (filter keep ((xs.filter fun x ↦ (answer [x]).isTruthy == keep).reverse ++ kept)) := by
  induction xs generalizing i kept with
  | nil => rfl
  | cons x xs ih =>
    rw [through_cons rfl, List.filter_cons]
    simp only [step, Sum.elim_inl, ih]
    by_cases hkept : ((answer [x]).isTruthy == keep) = true
    · rw [if_pos hkept, if_pos hkept, List.reverse_cons, List.append_assoc, List.singleton_append]
    · rw [if_neg hkept, if_neg hkept]

theorem through_count (passed : Nat) : (count passed).through answer i xs =
    .inl (count (passed + xs.countP fun x ↦ (answer [x]).isTruthy)) := by
  induction xs generalizing i passed with
  | nil => rfl
  | cons x xs ih =>
    rw [through_cons rfl, List.countP_cons]
    simp only [step, Sum.elim_inl, ih]
    by_cases hpasses : (answer [x]).isTruthy = true
    · rw [if_pos hpasses, if_pos hpasses, Nat.add_right_comm, Nat.add_assoc]
    · rw [if_neg hpasses, if_neg hpasses, Nat.add_zero]

theorem through_find : find.through answer i xs =
    (xs.find? fun x ↦ (answer [x]).isTruthy).elim (.inl find) .inr := by
  induction xs generalizing i with
  | nil => rfl
  | cons x xs ih =>
    rw [through_cons rfl, step, List.find?_cons]
    by_cases hpasses : (answer [x]).isTruthy = true
    · rw [if_pos hpasses, hpasses]
      rfl
    · rw [if_neg hpasses, Bool.eq_false_iff.mpr hpasses]
      exact ih (i + 1)

theorem through_decide (wanted : Bool) : (decide wanted).through answer i xs =
    if xs.any fun x ↦ (answer [x]).isTruthy == wanted then .inr (.bool wanted)
    else .inl (decide wanted) := by
  induction xs generalizing i with
  | nil => rfl
  | cons x xs ih =>
    rw [through_cons rfl, step, List.any_cons]
    by_cases hpasses : ((answer [x]).isTruthy == wanted) = true
    · rw [if_pos hpasses, hpasses, Bool.true_or, if_pos rfl, Sum.elim_inr]
    · rw [if_neg hpasses, Bool.eq_false_iff.mpr hpasses, Bool.false_or]
      exact ih (i + 1)

theorem through_reduce (a : Value) : (reduce a).through answer i xs =
    .inl (reduce (xs.foldl (fun a x ↦ answer [a, x]) a)) := by
  induction xs generalizing i a with
  | nil => rfl
  | cons x xs ih => exact ih (i + 1) _

end

section

variable {I : State → Prop} {block : Option Value} {b : Value} {span : Span}
  {answer : List Value → Value} {xs : List Value}

theorem args_of_step {v v' : Visit} {item a : Value} (hstep : v.step item a = .inl v')
    (hargs : ∀ i x, v.args i x = [x]) (i : Nat) (x : Value) : v'.args i x = [x] := by
  cases v with
  | eachWithIndex | reduce => cases hargs 0 .nil
  | find | decide =>
    rw [step] at hstep
    split at hstep
    · cases hstep
    · cases hstep
      rfl
  | _ =>
    cases hstep
    rfl

theorem settled_of_single {v : Visit} (hargs : ∀ i x, v.args i x = [x])
    (h : ∀ x ∈ xs, (answerFor block span [x] x).Settles I (answer [x])) (i : Nat) :
    v.Settled I block span answer i xs := by
  induction xs generalizing v i with
  | nil => trivial
  | cons x xs ih =>
    refine ⟨?_, fun v' hstep ↦ ?_⟩
    · rw [hargs]
      exact h x List.mem_cons_self
    · exact ih (args_of_step hstep hargs) (fun y hy ↦ h y (List.mem_cons_of_mem x hy)) _

end

end Visit

/-- The block always answers the same about what came of the elements so far, from `init` on, and
the next one. -/
def Combines (I : State → Prop) (b : Value) (span : Span) (answer : List Value → Value)
    (init : Value) (xs : List Value) : Prop :=
  ∀ before x after, xs = before ++ x :: after →
    let a := before.foldl (fun a x ↦ answer [a, x]) init
    (callValue b [a, x] none span).Settles I (answer [a, x])

theorem Combines.settled {I : State → Prop} {b : Value} {span : Span}
    {answer : List Value → Value} {init : Value} {xs : List Value}
    (h : Combines I b span answer init xs) (i : Nat) :
    (Visit.reduce init).Settled I (some b) span answer i xs := by
  induction xs generalizing init i with
  | nil => trivial
  | cons x xs ih =>
    refine ⟨h [] x xs rfl, fun v' hstep ↦ ?_⟩
    cases hstep
    exact ih (fun before y after hxs ↦ h (x :: before) y after (congrArg (x :: ·) hxs)) _

/-- Wherever `I` holds, the work makes a new list of these elements, and has no other effect that
matters. -/
def Eval.Makes (I : State → Prop) (x : Eval Value) (ys : List Value) : Prop :=
  ∀ s, I s → ∃ s₁, I s₁ ∧ x.Gives s (.ok (s₁.newList ys.toArray).1) (s₁.newList ys.toArray).2

theorem State.items_newList (s : State) (ys : List Value) :
    ((s.newList ys.toArray).2.items ⟨s.lists.size⟩).toList = ys := by
  simp only [items, newList, Array.getElem?_push_size, Option.getD_some]

namespace ListRoutine

section

variable {I : State → Prop} {l : ListId} {r : ListRoutine} {c : Call} {v : Visit}
  {answer : List Value → Value} (hI : ∀ s held, I s → I { s with held }) (before rest : List Value)

include hI

theorem run_comes
    (hitems : ∀ s, I s → (s.items l).toList = before ++ rest) (hc : c.receiver = .list l)
    (hb : (r.needsBlock && c.block.isNone) = false)
    (hv : r.visit? c (before ++ rest)[0]? = some (v, before.length))
    (h : v.Settled I c.block c.span answer before.length rest) {s : State} (hs : I s) :
    ∃ s₁, I s₁ ∧ ∀ o s', ((v.through answer before.length rest).elim (·.result l) pure :
        Eval Value).Gives s₁ o s' → (r.run c).Gives s o { s' with held := s.held } := by
  rw [← hitems s hs, Array.getElem?_toList] at hv
  obtain ⟨s₁, hs₁, hgoes⟩ := Visit.gives_of_settled hI hitems h (hI s _ hs)
  refine ⟨s₁, hs₁, fun o s' hgives ↦ ?_⟩
  obtain ⟨n, hrun⟩ := hgoes o s' hgives
  unfold Gives
  rw [run_visit hc hb hv]
  exact ⟨_, .wait hrun .done⟩

theorem run_settles
    (hitems : ∀ s, I s → (s.items l).toList = before ++ rest) (hc : c.receiver = .list l)
    (hb : (r.needsBlock && c.block.isNone) = false)
    (hv : r.visit? c (before ++ rest)[0]? = some (v, before.length))
    (h : v.Settled I c.block c.span answer before.length rest) {a : Value}
    (ha : (v.through answer before.length rest).elim (·.result l) pure = (pure a : Eval Value)) :
    (r.run c).Settles I a := by
  intro s hs
  obtain ⟨s₁, hs₁, hgoes⟩ := run_comes hI before rest hitems hc hb hv h hs
  rw [ha] at hgoes
  exact ⟨_, hgoes _ _ (.pure a s₁), hI s₁ _ hs₁⟩

theorem run_makes
    (hitems : ∀ s, I s → (s.items l).toList = before ++ rest) (hc : c.receiver = .list l)
    (hb : (r.needsBlock && c.block.isNone) = false)
    (hv : r.visit? c (before ++ rest)[0]? = some (v, before.length))
    (h : v.Settled I c.block c.span answer before.length rest) {ys : List Value}
    (hys : (v.through answer before.length rest).elim (·.result l) pure = newList ys) :
    (r.run c).Makes I ys := by
  intro s hs
  obtain ⟨s₁, hs₁, hgoes⟩ := run_comes hI before rest hitems hc hb hv h hs
  rw [hys] at hgoes
  exact ⟨{ s₁ with held := s.held }, hI s₁ _ hs₁, hgoes _ _ (.newList ys s₁)⟩

end

section

variable {I : State → Prop} {l : ListId} {xs : List Value} {block : Option Value} {b : Value}
  {span : Span} {answer : List Value → Value} (hI : ∀ s held, I s → I { s with held })
  (hitems : ∀ s, I s → (s.items l).toList = xs)

include hI hitems

theorem filter_makes (h : ∀ x ∈ xs, (callValue b [x] none span).Settles I (answer [x]))
    (keep : Bool) : ((filter keep).run ⟨.list l, [], some b, span⟩).Makes I
      (xs.filter fun x ↦ (answer [x]).isTruthy == keep) := by
  refine run_makes hI [] xs hitems rfl rfl rfl (Visit.settled_of_single (fun _ _ ↦ rfl) h 0) ?_
  rw [Visit.through_filter, Sum.elim_inl, Visit.result, List.append_nil, List.reverse_reverse]

theorem count_settles (h : ∀ x ∈ xs, (callValue b [x] none span).Settles I (answer [x])) :
    (count.run ⟨.list l, [], some b, span⟩).Settles I
      (.int (Int64.ofNat (xs.countP fun x ↦ (answer [x]).isTruthy))) := by
  refine run_settles hI [] xs hitems rfl rfl rfl (Visit.settled_of_single (fun _ _ ↦ rfl) h 0) ?_
  rw [Visit.through_count, Sum.elim_inl, Visit.result, Nat.zero_add]

theorem find_settles (h : ∀ x ∈ xs, (callValue b [x] none span).Settles I (answer [x])) :
    (find.run ⟨.list l, [], some b, span⟩).Settles I
      ((xs.find? fun x ↦ (answer [x]).isTruthy).getD .nil) := by
  refine run_settles hI [] xs hitems rfl rfl rfl (Visit.settled_of_single (fun _ _ ↦ rfl) h 0) ?_
  rw [Visit.through_find]
  cases xs.find? fun x ↦ (answer [x]).isTruthy <;> rfl

theorem any_settles (h : ∀ x ∈ xs, (answerFor block span [x] x).Settles I (answer [x])) :
    (any.run ⟨.list l, [], block, span⟩).Settles I
      (.bool (xs.any fun x ↦ (answer [x]).isTruthy)) := by
  refine run_settles hI [] xs hitems rfl rfl rfl (Visit.settled_of_single (fun _ _ ↦ rfl) h 0) ?_
  rw [Visit.through_decide]
  simp only [beq_true]
  cases xs.any fun x ↦ (answer [x]).isTruthy <;> rfl

theorem all_settles (h : ∀ x ∈ xs, (answerFor block span [x] x).Settles I (answer [x])) :
    (all.run ⟨.list l, [], block, span⟩).Settles I
      (.bool (xs.all fun x ↦ (answer [x]).isTruthy)) := by
  refine run_settles hI [] xs hitems rfl rfl rfl (Visit.settled_of_single (fun _ _ ↦ rfl) h 0) ?_
  rw [Visit.through_decide, List.all_eq_not_any_not]
  simp only [beq_false]
  cases xs.any fun x ↦ !(answer [x]).isTruthy <;> rfl

theorem reduce_settles {init : Value} (h : Combines I b span answer init xs) :
    (reduce.run ⟨.list l, [init], some b, span⟩).Settles I
      (xs.foldl (fun a x ↦ answer [a, x]) init) := by
  refine run_settles hI [] xs hitems rfl rfl rfl (h.settled 0) ?_
  rw [Visit.through_reduce]
  rfl

theorem reduceFirst_settles {first : Value} {rest : List Value} (hxs : xs = first :: rest)
    (h : Combines I b span answer first rest) :
    (reduceFirst.run ⟨.list l, [], some b, span⟩).Settles I
      (rest.foldl (fun a x ↦ answer [a, x]) first) := by
  subst hxs
  refine run_settles hI [first] rest hitems rfl rfl rfl (h.settled 1) ?_
  rw [Visit.through_reduce, Sum.elim_inl, Visit.result]

omit hI in
theorem reduceFirst_settles_nil (hxs : xs = []) :
    (reduceFirst.run ⟨.list l, [], some b, span⟩).Settles I .nil := by
  intro s hs
  have hempty : (s.items l)[0]? = none := by
    rw [← Array.getElem?_toList, hitems s hs, hxs, List.getElem?_nil]
  refine ⟨s, ⟨[], ?_⟩, hs⟩
  rw [reduceFirst_of_empty rfl rfl hempty]
  exact .done

end

theorem size_gives {m : ListId} {s : State} {ys : List Value} {span : Span}
    (hitems : (s.items m).toList = ys) : (size.run ⟨.list m, [], none, span⟩).Gives s
      (.ok (.int (Int64.ofNat ys.length))) s := by
  rw [← hitems, Array.length_toList]
  have hrun (held : List Held) : (size.runOn m ⟨.list m, [], none, span⟩).Gives { s with held }
      (.ok (.int (Int64.ofNat (s.items m).size))) { s with held } := .bind (.read _ _) (.pure _ _)
  have hsize := gives_of_runOn (by decide) rfl (fun _ ↦ rfl) rfl (hrun _)
  exact hsize

/-- A method of lists that may have a block. -/
def entry (name : String) (params : List Expect) (r : ListRoutine) (use : BlockUse) :
    Routine.Entry :=
  Routine.withBlock (Routine.fixed .list .list name params (.list r)) use

theorem callsFor_entry {name : String} {params : List Expect} {r : ListRoutine} {use : BlockUse}
    (he : entry name params r use ∈ Routine.iterators) {c : Call} {s : State}
    (hfits : (entry name params r use).signature.mismatch s.types.sort c.receiver c.args
      c.block.isSome = none)
    (hroom : s.frames.size < s.config.maxCallDepth) (hfinds : s.types.FindsInstalled name [.list]) :
    (Task.send name c).CallsFor (r.run c) s := iterators_callsFor he hfits hfinds hroom

theorem isEmpty_filter {α : Type} (p : α → Bool) (xs : List α) :
    (xs.filter p).isEmpty = xs.all fun x ↦ !p x := by
  rw [Bool.eq_iff_iff, List.isEmpty_iff, List.filter_eq_nil_iff, List.all_eq_true]
  simp only [Bool.not_eq_true', Bool.not_eq_true]

/-- If a block always answers the same about an element, with no effect that matters, then the
methods that ask it agree which elements pass. Without a block, that is as if it answered with the
element itself. If it always combines two values in the same way, reducing a list is folding it,
from its first element on if there is no other value to begin with. The messages do what the methods
do. -/
theorem list_predicates_agree {I : State → Prop} {l : ListId} {xs : List Value}
    (hI : ∀ s held, I s → I { s with held }) (hitems : ∀ s, I s → (s.items l).toList = xs)
    (b : Value) (span : Span) (answer : List Value → Value) :
    let selected := xs.filter fun x ↦ (answer [x]).isTruthy
    let rejected := xs.filter fun x ↦ !(answer [x]).isTruthy
    let fold := List.foldl fun a x ↦ answer [a, x]
    let c : Call := ⟨.list l, [], some b, span⟩
    let plain : Call := ⟨.list l, [], none, span⟩
    ((∀ x ∈ xs, (callValue b [x] none span).Settles I (answer [x])) →
      ((filter true).run c).Makes I selected ∧ ((filter false).run c).Makes I rejected ∧
      (count.run c).Settles I (.int (Int64.ofNat selected.length)) ∧
      (any.run c).Settles I (.bool !selected.isEmpty) ∧
      (all.run c).Settles I (.bool rejected.isEmpty) ∧
      (find.run c).Settles I (selected.head?.getD .nil)) ∧
    (selected.Sublist xs ∧ rejected.Sublist xs ∧ (selected ++ rejected).Perm xs ∧
      ∀ x ∈ xs, x ∈ selected ↔ x ∉ rejected) ∧
    (∀ m s, (s.items m).toList = selected → (size.run ⟨.list m, [], none, span⟩).Gives s
      (.ok (.int (Int64.ofNat selected.length))) s) ∧
    (∀ p ∈ [(any, xs.any (·.isTruthy)), (all, xs.all (·.isTruthy))],
      (p.1.run plain).Settles I (.bool p.2) ∧
        ((∀ x ∈ xs, (callValue b [x] none span).Settles I x) →
          (p.1.run c).Settles I (.bool p.2))) ∧
    (∀ init, Combines I b span answer init xs →
      (reduce.run { c with args := [init] }).Settles I (fold init xs)) ∧
    (xs = [] → (reduceFirst.run c).Settles I .nil) ∧
    (∀ first rest, xs = first :: rest → Combines I b span answer first rest →
      (reduceFirst.run c).Settles I (fold first rest) ∧
        ∀ l', (∀ s, I s → (s.items l').toList = rest) →
          (reduce.run ⟨.list l', [first], some b, span⟩).Settles I (fold first rest)) ∧
    ∀ s init, s.frames.size < s.config.maxCallDepth →
      ∀ p ∈ [("select", filter true, c), ("reject", filter false, c), ("count", count, c),
        ("any?", any, c), ("all?", all, c), ("find", find, c), ("any?", any, plain),
        ("all?", all, plain), ("reduce", reduceFirst, c),
        ("reduce", reduce, { c with args := [init] })],
      s.types.FindsInstalled p.1 [.list] → (Task.send p.1 p.2.2).CallsFor (p.2.1.run p.2.2) s := by
  intro selected rejected fold c plain
  refine ⟨fun h ↦ ⟨?_, ?_, ?_, ?_, ?_, ?_⟩, ⟨List.filter_sublist, List.filter_sublist, ?_, ?_⟩,
    fun m s ↦ size_gives, ?_, fun init ↦ reduce_settles hI hitems,
    reduceFirst_settles_nil hitems, fun first rest hxs h ↦ ⟨reduceFirst_settles hI hitems hxs h,
      fun l' hrest ↦ reduce_settles hI hrest h⟩, ?_⟩
  · simpa only [beq_true] using filter_makes hI hitems h true
  · simpa only [beq_false] using filter_makes hI hitems h false
  · rw [← List.countP_eq_length_filter]
    exact count_settles hI hitems h
  · rw [isEmpty_filter, ← List.not_any_eq_all_not, Bool.not_not]
    exact any_settles hI hitems h
  · simp only [rejected, isEmpty_filter, Bool.not_not]
    exact all_settles hI hitems h
  · rw [List.head?_filter]
    exact find_settles hI hitems h
  · exact List.filter_append_perm _ xs
  · intro x hx
    simp only [selected, rejected, List.mem_filter, hx, true_and, Bool.not_eq_true',
      Bool.not_eq_false]
  · -- Without a block the answers are the elements, whatever they are.
    let itself (args : List Value) : Value := args.headD .nil
    have hplain : ∀ x ∈ xs, (answerFor none span [x] x).Settles I (itself [x]) := fun x _ ↦ .pure x
    have hsame (h : ∀ x ∈ xs, (callValue b [x] none span).Settles I x) :
        ∀ x ∈ xs, (answerFor (some b) span [x] x).Settles I (itself [x]) := h
    refine List.forall_mem_cons.mpr ⟨⟨any_settles hI hitems hplain, fun h ↦ ?_⟩,
      List.forall_mem_singleton.mpr ⟨all_settles hI hitems hplain, fun h ↦ ?_⟩⟩
    · exact any_settles hI hitems (hsame h)
    · exact all_settles hI hitems (hsame h)
  · intro s init hroom
    have hentries : ∀ e ∈ [entry "select" [] (filter true) .required,
        entry "reject" [] (filter false) .required, entry "count" [] count .optional,
        entry "any?" [] any .optional, entry "all?" [] all .optional,
        entry "find" [] find .required, entry "reduce" [] reduceFirst .required,
        entry "reduce" [.any] reduce .required], e ∈ Routine.iterators := by decide +kernel
    simp only [List.forall_mem_cons] at hentries ⊢
    obtain ⟨hselect, hreject, hcount, hany, hall, hfind, hfirst, hreduce, -⟩ := hentries
    exact ⟨callsFor_entry hselect rfl hroom, callsFor_entry hreject rfl hroom,
      callsFor_entry hcount rfl hroom, callsFor_entry hany rfl hroom, callsFor_entry hall rfl hroom,
      callsFor_entry hfind rfl hroom, callsFor_entry hany rfl hroom, callsFor_entry hall rfl hroom,
      callsFor_entry hfirst rfl hroom, callsFor_entry hreduce rfl hroom,
      List.forall_mem_nil _⟩

end ListRoutine

theorem Task.Gives.callLambda {s s₁ s₂ : State} {id : LambdaId} {l : Lambda}
    {args given : List Value} {block : Option Value} {span : Span} {found : Matched} {v : Value}
    (hl : s.lambda? id = some l) (hgiven : s.blockArgs l.block.params args = given) :
    let ctx : Context := { l.home with scope := s.scopes.fresh }
    let bound := State.definedBlock l.block.params block ctx.scope (.defined ctx.scope found s₁)
    (matchSequence ctx l.block.params.items given).Gives
      { (s.newScope l.home.scope).2 with held := ⟨block.toList ++ given, some ctx⟩ :: s.held }
      (.ok (some found)) s₁ →
    (Task.framed ⟨blockLabel l.home, span⟩ (.statements l.block.body ctx)).Gives bound (.ok v) s₂ →
    (Task.callLambda id args block span).Gives s (.ok v) { s₂ with held := s.held } := by
  subst hgiven
  intro ctx bound hmatch hbody
  have hblock : (defineBlock l.block.params block ctx.scope).Gives (.defined ctx.scope found s₁)
      (.ok ()) bound := by
    unfold defineBlock bound State.definedBlock
    cases l.block.params.block with
    | none => exact .pure _ _
    | some name => exact .change _ _
  refine .of_work (.answering (.bind (.read _ s) ?_))
  rw [hl]
  refine .bind (.bind (.change _ s) (.pure _ _)) (.bind (.read _ _) ?_)
  refine .keeping _ (.bind hmatch (.bind (.change _ _) (.bind hblock ?_)))
  exact .bind (.attempt (.perform hbody)) (.ofOutcome _ _)

/-- `{ |x| x }` -/
def identity : Lambda :=
  ⟨⟨⟨[.name "x"], none⟩, [⟨.name "x", .origin⟩], .origin⟩, State.topContext⟩

theorem identity_gives {s : State} {id : LambdaId} (hl : s.lambda? id = some identity)
    (hlimit : s.config.stepLimit = none) (hroom : s.frames.size < s.config.maxCallDepth)
    (v : Value) (span : Span) : ∃ s', (Task.callLambda id [v] none span).Gives s (.ok v) s' ∧
      s'.lists = s.lists ∧ s'.lambdas = s.lambdas ∧ s'.config = s.config ∧
      s'.frames = s.frames := by
  let ctx : Context := { State.topContext with scope := s.scopes.fresh }
  let scopes := (s.scopes.child State.mainScope).define s.scopes.fresh "x" v
  have hgiven : s.blockArgs identity.block.params [v] = [v] := by
    cases v <;> rfl
  have hmatch (s : State) : (matchSequence ctx identity.block.params.items [v]).Gives s
      (.ok (some [("x", v)])) s := .pure _ s
  have hbound : scopes.get? s.scopes.fresh "x" = some v := by
    refine Scopes.get?_of_bindings ?_
    simp only [scopes, Scopes.bindings, Scopes.define, Scopes.child, Scopes.fresh,
      Array.getElem?_modify, Array.getElem?_push_size, if_true, Option.map_some]
    exact Bindings.get?_set_self _ _ _
  have hname (s : State) (hs : s.scopes = scopes) :
      (expression ⟨.name "x", .origin⟩ ctx).Gives s (.ok v) s := by
    refine .bind (.read _ s) ?_
    rw [hs, hbound]
    exact .pure v s
  refine ⟨_, .callLambda hl hgiven (hmatch _)
    (.framed hroom (.statement (.eval hlimit (hname _ rfl)))), rfl, rfl, rfl, Array.pop_push⟩

namespace ListRoutine

/-- What passes are the elements that are truthy themselves. -/
theorem predicates_agree_of_identity :
    let s : State := { State.initial .standard with
      lists := #[#[.int 7, .nil, .bool true]], lambdas := #[identity] }
    let c : Call := ⟨.list ⟨0⟩, [], some (.lambda ⟨0⟩), .origin⟩
    (∃ m s', ((filter true).run c).Gives s (.ok (.list m)) s' ∧
        (s'.items m).toList = [.int 7, .bool true]) ∧
      (∃ m s', ((filter false).run c).Gives s (.ok (.list m)) s' ∧ (s'.items m).toList = [.nil]) ∧
      (∃ s', (count.run c).Gives s (.ok (.int 2)) s') ∧
      (∃ s', (all.run c).Gives s (.ok (.bool false)) s') ∧
      (∃ s', (all.run { c with block := none }).Gives s (.ok (.bool false)) s') ∧
      (∃ s', (find.run c).Gives s (.ok (.int 7)) s') ∧
      (Task.send "select" c).CallsFor ((filter true).run c) s := by
  intro s c
  let I (s' : State) : Prop :=
    s'.lists = s.lists ∧ s'.lambdas = s.lambdas ∧ s'.config = s.config ∧ s'.frames = s.frames
  have hI : ∀ s held, I s → I { s with held } := fun _ _ h ↦ h
  have hs : I s := ⟨rfl, rfl, rfl, rfl⟩
  have hitems : ∀ s', I s' → (s'.items ⟨0⟩).toList = [.int 7, .nil, .bool true] := by
    rintro s' ⟨hlists, -⟩
    rw [State.items, hlists]
    rfl
  have hblock (x : Value) : (callValue (.lambda ⟨0⟩) [x] none .origin).Settles I x := by
    rintro s' ⟨hlists, hlambdas, hconfig, hframes⟩
    have hl : s'.lambda? ⟨0⟩ = some identity := by
      rw [State.lambda?, hlambdas]
      rfl
    have hroom : s'.frames.size < s'.config.maxCallDepth := by
      rw [hframes, hconfig]
      decide
    obtain ⟨s₁, hgives, hlists', hlambdas', hconfig', hframes'⟩ :=
      identity_gives hl (by rw [hconfig]; rfl) hroom x .origin
    exact ⟨s₁, .perform hgives, hlists'.trans hlists, hlambdas'.trans hlambdas,
      hconfig'.trans hconfig, hframes'.trans hframes⟩
  obtain ⟨hagree, -, -, hplain, -, -, -, hsends⟩ :=
    list_predicates_agree hI hitems (.lambda ⟨0⟩) .origin fun args ↦ args.headD .nil
  obtain ⟨hselect, hreject, hcount, -, hall, hfind⟩ := hagree fun x _ ↦ hblock x
  obtain ⟨hwithout, -⟩ := hplain _ (List.mem_cons_of_mem _ (List.mem_singleton_self _))
  obtain ⟨s₁, -, hselected⟩ := hselect s hs
  obtain ⟨s₂, -, hrejected⟩ := hreject s hs
  obtain ⟨s₃, hcounted, -⟩ := hcount s hs
  obtain ⟨s₄, hchecked, -⟩ := hall s hs
  obtain ⟨s₅, hunasked, -⟩ := hwithout s hs
  obtain ⟨s₆, hfound, -⟩ := hfind s hs
  exact ⟨⟨_, _, hselected, State.items_newList s₁ _⟩, ⟨_, _, hrejected, State.items_newList s₂ _⟩,
    ⟨s₃, hcounted⟩, ⟨s₄, hchecked⟩, ⟨s₅, hunasked⟩, ⟨s₆, hfound⟩,
    hsends s .nil (by decide) _ List.mem_cons_self fun _ _ ↦ rfl⟩

end ListRoutine

end Quill
