import Quill.Proofs.Composition.Builtin

namespace Quill

open Eval

variable {α : Type} {F : Fault → Prop}

theorem mergeOnto_faulting {before : α → α → Eval Bool}
    (h : ∀ a b, Faulting F (before a b)) (n : Nat) (done left right : List α) :
    Faulting F (mergeOnto before n done left right) := by
  induction n generalizing done left right with
  | zero => exact .pure _
  | succ n ih =>
    match left, right with
    | a :: left, b :: right =>
      refine .bind (h b a) fun less ↦ ?_
      split
      · exact ih (b :: done) (a :: left) right
      · exact ih (a :: done) left (b :: right)
    | [], right => exact .pure _
    | _ :: _, [] => exact .pure _

theorem mergeSortWithin_faulting {before : α → α → Eval Bool}
    (h : ∀ a b, Faulting F (before a b)) (n : Nat) (l : List α) :
    Faulting F (mergeSortWithin before n l) := by
  induction n generalizing l with
  | zero => exact .pure l
  | succ n ih =>
    unfold mergeSortWithin
    split
    · exact .pure l
    · exact .bind (ih _) fun left ↦ .bind (ih _) fun right ↦
        mergeOnto_faulting h l.length [] left right

theorem mergeSort_faulting {before : α → α → Eval Bool}
    (h : ∀ a b, Faulting F (before a b)) (l : List α) : Faulting F (mergeSort before l) :=
  mergeSortWithin_faulting h l.length l

namespace ListRoutine

theorem containsItem_faulting (needle : Value) (items : List Value) :
    Faulting F (containsItem needle items) := by
  induction items with
  | nil => exact .pure false
  | cons item rest ih =>
    refine .bind (.valuesEqual item needle) fun equal ↦ ?_
    split
    · exact .pure true
    · exact ih

theorem positionOf_faulting (needle : Value) (index : Nat) (items : List Value) :
    Faulting F (positionOf needle index items) := by
  induction items generalizing index with
  | nil => exact .pure none
  | cons item rest ih =>
    refine .bind (.valuesEqual item needle) fun equal ↦ ?_
    split
    · exact .pure _
    · exact ih (index + 1)

theorem matchFor_faulting (item : Value) (index : Nat) (candidates : List Value) :
    Faulting F (matchFor item index candidates) := by
  induction candidates generalizing index with
  | nil => exact .pure none
  | cons candidate rest ih =>
    refine .bind (.valuesEqual item candidate) fun equal ↦ ?_
    split
    · exact .pure _
    · exact ih (index + 1)

theorem equalItems_faulting (as bs : List Value) : Faulting F (equalItems as bs) := by
  induction as generalizing bs with
  | nil => exact .pure true
  | cons a as ih =>
    cases bs with
    | nil => exact .pure true
    | cons b bs =>
      refine .bind (.valuesEqual a b) fun equal ↦ ?_
      split
      · exact ih bs
      · exact .pure false

theorem lessItems_faulting (span : Span) (as bs : List Value) :
    Faulting F (lessItems span as bs) := by
  induction as generalizing bs with
  | nil => cases bs <;> exact .pure _
  | cons a as ih =>
    cases bs with
    | nil => exact .pure false
    | cons b bs =>
      refine .bind (.valuesEqual a b) fun equal ↦ ?_
      split
      · exact ih bs
      · exact .bind (.send _ _ _ _ _) fun _ ↦ .pure _

theorem subsetOf_faulting (other items : List Value) : Faulting F (subsetOf other items) := by
  induction items with
  | nil => exact .pure true
  | cons item rest ih =>
    refine .bind (containsItem_faulting item other) fun contained ↦ ?_
    split
    · exact ih
    · exact .pure false

theorem pairUp_faulting (candidates : Array Value) (items : List Value) :
    Faulting F (pairUp candidates items) := by
  induction items generalizing candidates with
  | nil => exact .pure true
  | cons item rest ih =>
    refine .bind (.holding _ (matchFor_faulting item 0 candidates.toList)) fun found ↦ ?_
    cases found with
    | some i => exact ih (swapRemove candidates i)
    | none => exact .pure false

theorem displayItems_faulting (done : List String) (items : List Value) :
    Faulting F (displayItems done items) := by
  induction items generalizing done with
  | nil => exact .pure _
  | cons item rest ih => exact .bind (.holding _ (.display item)) fun _ ↦ ih _

theorem inspectItems_faulting (l : ListId) (done : List String) (items : List Value) :
    Faulting F (inspectItems l done items) := by
  induction items generalizing done with
  | nil => exact .pure _
  | cons item rest ih =>
    unfold ListRoutine.inspectItems
    split
    · exact .bind (.pure _) fun _ ↦ ih _
    · exact .bind (.holding _ (.inspect item)) fun _ ↦ ih _

theorem sortsBefore_faulting (block : Option Value) (span : Span) (a b : Value) :
    Faulting F (sortsBefore block span a b) := by
  cases block with
  | some block => exact .bind (.callValue block _ none span) fun _ ↦ .pure _
  | none => exact .bind (.send _ _ _ _ _) fun _ ↦ .pure _

theorem withArgument_faulting {r : ListRoutine} {c : Call} {use : ListId → Eval Value}
    (hneeds : .argument 0 [.list] ∈ r.needs)
    (h : ∀ l, Faulting (Fault.FoundUnless (r.strict c)) (use l)) :
    Faulting (Fault.FoundUnless (r.strict c)) (withArgument c use) := by
  unfold ListRoutine.withArgument
  cases harg : c.arg 0 with
  | list other => exact h other
  | _ =>
    have hnone : c.argAs? 0 Value.list? = none := Call.argAs?_eq_none (by rw [harg]; rfl)
    have hunmet : (Need.argument 0 [.list]).metBy (fun _ ↦ .type) c = false := by
      rw [Need.argument_metBy 0 fun _ ↦ Expect.any_list, hnone, Option.isSome_none]
    exact .fault c.span (.inl (strict_of_unmet hneeds hunmet))

theorem joined_faulting (l : ListId) (separator : String) : Faulting F (joined l separator) :=
  .bind (.read fun _ _ ↦ rfl) fun items ↦
    .bind (displayItems_faulting [] items.toList) fun _ ↦ .pure _

theorem itemsOf_faulting (l m : ListId) : Faulting F (itemsOf l m) := .read fun _ _ ↦ rfl

section

variable {o : Option (Eval Value)}

theorem filled_faulting (c : Call) : Faulting (Fault.FoundUnless o) (filled c) := by
  unfold ListRoutine.filled
  dsimp only
  split
  · exact .fault c.span (.inr rfl)
  · split
    · exact .fault c.span (.inr rfl)
    · split
      · exact .fault c.span (.inr rfl)
      · exact .change (.newList fun _ _ ↦ rfl)

theorem setItem_faulting (l : ListId) (c : Call) :
    Faulting (Fault.FoundUnless o) (setItem l c) := by
  refine .bind (.read fun _ _ ↦ rfl) fun size ↦ ?_
  dsimp only
  split
  · exact .fault c.span (.inr rfl)
  · split
    · exact .fault c.span (.inr rfl)
    · exact .bind (.change (.modifyList l _)) fun _ ↦ .pure _

end

theorem runOn_faulting (r : ListRoutine) (l : ListId) (c : Call) :
    Faulting (Fault.FoundUnless (r.strict c)) (r.runOn l c) := by
  cases r with
  | size => exact .bind (.read fun _ _ ↦ rfl) fun _ ↦ .pure _
  | count => exact .bind (.read fun _ _ ↦ rfl) fun _ ↦ .pure _
  | isEmpty => exact .bind (.read fun _ _ ↦ rfl) fun _ ↦ .pure _
  | push => exact .bind (.change (.modifyList l _)) fun _ ↦ .pure _
  | pop =>
    exact .bind (.read fun _ _ ↦ rfl) fun last ↦
      .bind (.change (.modifyList l Array.pop)) fun _ ↦ .pure _
  | first => exact .bind (.read fun _ _ ↦ rfl) fun _ ↦ .pure _
  | last => exact .bind (.read fun _ _ ↦ rfl) fun _ ↦ .pure _
  | get => exact .read fun _ _ ↦ rfl
  | set => exact setItem_faulting l c
  | includes =>
    exact .bind (.read fun _ _ ↦ rfl) fun items ↦
      .bind (.holding _ (containsItem_faulting _ items)) fun _ ↦ .pure _
  | indexOf =>
    refine .bind (.read fun _ _ ↦ rfl) fun items ↦
      .bind (.holding _ (positionOf_faulting _ 0 items)) fun found ↦ ?_
    cases found <;> exact .pure _
  | concat =>
    exact withArgument_faulting (by decide) fun other ↦ .bind (.read fun _ _ ↦ rfl) fun more ↦
      .bind (.change (.modifyList l (· ++ more))) fun _ ↦ .pure _
  | plus => exact withArgument_faulting (by decide) fun other ↦ .change (.newList fun _ _ ↦ rfl)
  | reverse => exact .change (.newList fun _ _ ↦ rfl)
  | joinPlain => exact joined_faulting l ""
  | join => exact joined_faulting l _
  | sort =>
    exact .bind (.read fun _ _ ↦ rfl) fun items ↦
      .bind (.holding _ (mergeSort_faulting (sortsBefore_faulting c.block c.span) items)) fun _ ↦
        .newList _
  | equal =>
    unfold ListRoutine.runOn
    cases c.arg 0 with
    | list other =>
      dsimp only
      split
      · exact .pure _
      · refine .bind (itemsOf_faulting l other) fun (as, bs) ↦ ?_
        dsimp only
        split
        · exact .bind (.holding _ (.holding _ (equalItems_faulting as bs))) fun _ ↦ .pure _
        · exact .pure _
    | _ => exact .pure _
  | less =>
    exact withArgument_faulting (by decide) fun other ↦
      .bind (itemsOf_faulting l other) fun (as, bs) ↦
        .bind (.holding _ (.holding _ (lessItems_faulting c.span as bs))) fun _ ↦ .pure _
  | isSubset =>
    exact withArgument_faulting (by decide) fun other ↦
      .bind (itemsOf_faulting l other) fun (as, bs) ↦
        .bind (.holding _ (.holding _ (subsetOf_faulting bs as))) fun _ ↦ .pure _
  | sameElements =>
    refine withArgument_faulting (by decide) fun other ↦
      .bind (itemsOf_faulting l other) fun (as, bs) ↦ ?_
    dsimp only
    split
    · exact .bind (.holding _ (pairUp_faulting _ as)) fun _ ↦ .pure _
    · exact .pure _
  | inspect =>
    exact .bind (.read fun _ _ ↦ rfl) fun items ↦
      .bind (inspectItems_faulting l [] items.toList) fun _ ↦ .pure _
  | _ => exact .pure _

theorem run_faulting (r : ListRoutine) (c : Call) :
    Faulting (Fault.FoundUnless (r.strict c)) (r.run c) := by
  unfold ListRoutine.run
  split
  · exact .newList []
  · exact filled_faulting c
  · split
    · rename_i hblock
      obtain ⟨hneeds, hnone⟩ := Bool.and_eq_true_iff.mp hblock
      have hunmet : Need.block.metBy (fun _ ↦ .type) c = false := by
        rw [Need.block_metBy, Option.isNone_iff_eq_none.mp hnone, Option.isSome_none]
      exact .fault c.span (.inl (strict_of_unmet (needs_block hneeds) hunmet))
    · refine .bind (.read fun _ _ ↦ rfl) fun first ↦ .holding _ ?_
      split
      · exact .perform rfl
      · exact runOn_faulting _ _ c
  · rename_i hempty hfilled hlist
    have hunmet : (Need.receiver [.list]).metBy (fun _ ↦ .type) c = false := by
      rw [Need.receiver_metBy fun _ ↦ Expect.any_list]
      cases hreceiver : c.receiver.list? with
      | none => rfl
      | some l => exact absurd (Value.list?_eq_some.mp hreceiver) (hlist l)
    exact .fault c.span (.inl (strict_of_unmet (needs_list ⟨hempty, hfilled⟩) hunmet))

end ListRoutine

end Quill
