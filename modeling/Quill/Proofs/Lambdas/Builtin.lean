import Quill.Builtin
import Quill.Proofs.Lambdas.Work

namespace Quill

open Tracked Eval

variable {n : Nat} {v w : Value} {vs ws : List Value} {c : Call}

namespace Eval.KeepsTo

theorem calculated {α : Type} [Tracked α] {r : Except Fault α} {span : Span}
    (h : ∀ a, r = .ok a → Known n a) : KeepsTo n (calculated r span) := by
  cases r with
  | ok a => exact .pure (h a rfl)
  | error f => exact .fault f span

theorem write (text : String) : KeepsTo n (write text) := .modify fun _ hs ↦ ⟨rfl, { hs with }⟩

theorem putAll (hvs : Known n vs) : KeepsTo n (putAll vs) := by
  induction vs with
  | nil => exact .pure trivial
  | cons v rest ih =>
    exact .bind (.display hvs.head) fun _ _ ↦ .bind (.write _) fun _ _ ↦ ih hvs.tail

theorem printAll (hvs : Known n vs) : KeepsTo n (printAll vs) := by
  induction vs with
  | nil => exact .pure trivial
  | cons v rest ih =>
    exact .bind (.display hvs.head) fun _ _ ↦ .bind (.write _) fun _ _ ↦ ih hvs.tail

theorem showAll (hvs : Known n vs) : KeepsTo n (showAll vs) := by
  induction vs with
  | nil => exact .pure trivial
  | cons v rest ih =>
    exact .bind (.inspect hvs.head) fun _ _ ↦ .bind (.write _) fun _ _ ↦ ih hvs.tail

theorem inspectAttrs (done : List String) {attrs : List (String × Value)}
    (h : Known n attrs) : KeepsTo n (inspectAttrs done attrs) := by
  induction attrs generalizing done with
  | nil => exact .pure fun _ _ ↦ trivial
  | cons a rest ih => exact .bind (.inspect h.head.2) fun _ _ ↦ ih _ h.tail

end Eval.KeepsTo

theorem Arithmetic.onValues_known {op : Arithmetic} {a : Value}
    (h : op.onValues v w = .ok a) : Known n a := by
  unfold onValues at h
  split at h
  · rename_i i j
    cases hr : op.onInts i j <;> rw [hr] at h <;> cases h
    trivial
  · split at h
    · rename_i x y _ _
      cases hr : op.onFloats x y <;> rw [hr] at h <;> cases h
      trivial
    · cases h

namespace NumberRoutine

theorem run_keepsTo (r : NumberRoutine) (hc : Known n c) : KeepsTo n (r.run c) := by
  have checked (r : Except Fault Int64) : KeepsTo n (calculated r c.span) :=
    .calculated fun _ _ ↦ trivial
  cases r with
  | arithmetic op => exact .calculated fun _ ↦ Arithmetic.onValues_known
  | compare r => exact .pure trivial
  | equal => exact .pure trivial
  | negate =>
    unfold NumberRoutine.run
    cases c.receiver with
    | int i => exact .bind (checked _) fun _ _ ↦ .pure trivial
    | float x => exact .pure trivial
    | _ => exact .fault _ c.span
  | abs =>
    unfold NumberRoutine.run
    cases c.receiver with
    | int i =>
      dsimp only
      generalize checkedInt i.toInt.natAbs = r
      exact .bind (checked r) fun _ _ ↦ .pure trivial
    | float x => exact .pure trivial
    | _ => exact .fault _ c.span
  | toText =>
    unfold NumberRoutine.run
    cases c.receiver with
    | int i => exact .pure trivial
    | float x => exact .pure trivial
    | _ => exact .fault _ c.span
  | toInt =>
    unfold NumberRoutine.run
    cases c.receiver with
    | int i => exact .pure trivial
    | float x =>
      dsimp only
      split
      · exact .pure trivial
      · exact .fault _ c.span
    | _ => exact .fault _ c.span
  | toFloat =>
    unfold NumberRoutine.run
    dsimp only
    split
    · exact .pure trivial
    · exact .fault _ c.span
  | times =>
    unfold NumberRoutine.run
    dsimp only
    split
    · rename_i block _ hblock
      have known : Known n block := hc.2.2.of_some hblock
      exact .bind (.holding hc.values (.perform known)) fun _ _ ↦ .pure trivial
    · exact .fault _ c.span

end NumberRoutine

namespace TextRoutine

theorem run_keepsTo (r : TextRoutine) (hc : Known n c) : KeepsTo n (r.run c) := by
  have pieces (parts : List (List Char)) : KeepsTo n (pieces parts) := by
    refine .newList fun v hv ↦ ?_
    obtain ⟨p, -, rfl⟩ := List.mem_map.mp hv
    trivial
  cases r with
  | repeat_ =>
    unfold TextRoutine.run
    dsimp only
    split
    · exact .fault _ c.span
    · split
      · exact .fault _ c.span
      · exact .pure trivial
  | words => exact pieces _
  | split => exact pieces _
  | chars => exact pieces _
  | itself => exact .pure hc.1
  | inspect =>
    refine .bind (.read fun _ _ ↦ .text? _) fun shown _ ↦ ?_
    cases shown with
    | some shown => exact .pure trivial
    | none => exact .fault _ c.span
  | at_ =>
    unfold TextRoutine.run
    dsimp only
    split <;> exact .pure trivial
  | _ => exact .pure trivial

end TextRoutine

namespace ObjectRoutine

theorem inspectObject_keepsTo (hv : Known n v) : KeepsTo n (inspectObject v) := by
  refine .bind (.read fun _ _ ↦ .text? _) fun text _ ↦ ?_
  cases text with
  | some text => exact .pure trivial
  | none =>
    refine .bind (.read fun _ _ ↦ trivial) fun type _ ↦ .bind (.read fun s hs ↦ ?_)
      fun attrs hattrs ↦ .bind (.holding (hattrs.map fun _ h ↦ h.2) (.inspectAttrs [] hattrs))
        fun texts _ ↦ ?_
    · cases v with
      | object o => exact hs.attrs o
      | _ => exact .nil
    · cases texts <;> exact .pure trivial

theorem run_keepsTo (r : ObjectRoutine) (hc : Known n c) : KeepsTo n (r.run c) := by
  cases r with
  | nothing => exact .pure trivial
  | identical => exact .pure trivial
  | notEqual =>
    exact .bind (.holding hc.2.2.toList (.send hc.1 hc.2.1 trivial)) fun _ _ ↦ .pure trivial
  | class_ => exact .bind (.read fun _ _ ↦ trivial) fun _ _ ↦ .pure trivial
  | isA =>
    unfold ObjectRoutine.run
    cases c.arg 0 with
    | type t => exact .bind (.read fun _ _ ↦ trivial) fun _ _ ↦ .pure trivial
    | _ => exact .fault _ c.span
  | respondTo =>
    unfold ObjectRoutine.run
    dsimp only
    split
    · exact .bind (.read fun _ _ ↦ trivial) fun _ _ ↦ .pure trivial
    · exact .fault _ c.span
  | isNil => exact .pure trivial
  | toText =>
    exact .bind (.read fun _ _ ↦ .text? _) fun _ _ ↦
      .bind (.read fun _ _ ↦ trivial) fun _ _ ↦ .pure trivial
  | inspect => exact .holding hc.values (inspectObject_keepsTo hc.1)
  | send =>
    unfold ObjectRoutine.run
    dsimp only
    split
    · exact .fault _ c.span
    · rename_i name rest hargs
      have known : Known n (name :: rest) := hargs ▸ hc.2.1
      split
      · exact .send hc.1 known.tail hc.2.2
      · exact .fault _ c.span
  | print => exact .bind (.holding hc.values (.printAll hc.2.1)) fun _ _ ↦ .pure trivial
  | puts =>
    have rest : KeepsTo n (do
        Eval.holding c.values (putAll c.args)
        return Value.nil) :=
      .bind (.holding hc.values (.putAll hc.2.1)) fun _ _ ↦ .pure trivial
    unfold ObjectRoutine.run
    dsimp only
    split
    · exact .bind (.write _) fun _ _ ↦ rest
    · exact rest
  | p =>
    refine .bind (.holding hc.values (.showAll hc.2.1)) fun _ _ ↦ ?_
    split
    · exact .pure trivial
    · rename_i v hargs
      have known : Known n [v] := hargs ▸ hc.2.1
      exact .pure known.head
    · exact .newList hc.2.1
  | lambda =>
    unfold ObjectRoutine.run
    dsimp only
    split
    · rename_i block hblock
      exact .pure (hc.2.2.of_some hblock)
    · exact .fault _ c.span

end ObjectRoutine

namespace ErrorRoutine

theorem run_keepsTo (r : ErrorRoutine) (hc : Known n c) : KeepsTo n (r.run c) := by
  cases r with
  | init =>
    unfold ErrorRoutine.run
    cases c.receiver with
    | object o =>
      exact .bind (.modify fun _ hs ↦ ⟨rfl, hs.setObjectAttr o "message" (hc.arg 0)⟩) fun _ _ ↦
        .pure trivial
    | _ => exact .pure trivial
  | message => exact .read fun _ hs ↦ hs.attr c.receiver "message"

end ErrorRoutine

namespace LambdaRoutine

theorem run_keepsTo (r : LambdaRoutine) (hc : Known n c) : KeepsTo n (r.run c) := by
  unfold LambdaRoutine.run
  split
  · rename_i l hl
    have known : Known n (Value.lambda l) := hl ▸ hc.1
    exact .holding (.single hc.1) (.callLambda known hc.2.1 hc.2.2)
  · refine .bind (.read fun _ hs ↦ hs.lambda? _) fun l _ ↦ ?_
    cases l <;> exact .pure trivial
  · exact .fault _ c.span

end LambdaRoutine

namespace HostRoutine

theorem run_keepsTo (r : HostRoutine) (hc : Known n c) : KeepsTo n (r.run c) := by
  cases r with
  | echo =>
    exact .bind (.newList hc.2.1) fun _ hargs ↦
      .newList (.cons hc.1 (.cons hargs (.single trivial)))
  | apply =>
    have callee : Known n (c.block.getD (c.arg 0)) := hc.2.2.getD (hc.arg 0)
    exact .holding (.cons callee (.single hc.1)) (.callValue callee hc.2.1 trivial)
  | forward => exact .send hc.1 (hc.2.1.subset (List.drop_subset _ _)) hc.2.2
  | fail =>
    unfold HostRoutine.run
    dsimp only
    split
    · exact .raiseError _ _ c.span
    · exact .raiseError _ _ c.span
    · exact .raise (hc.arg 0)

end HostRoutine

namespace TypeRoutine

theorem instantiate_keepsTo (t : TypeId) (hc : Known n c) : KeepsTo n (instantiate t c) := by
  unfold TypeRoutine.instantiate
  split
  · exact .bind (.read fun _ _ ↦ trivial) fun _ _ ↦ .fault _ c.span
  · exact .bind (.newObject t) fun _ hmade ↦
      .bind (.holding (.cons hmade (.single hc.1)) (.send hmade hc.2.1 hc.2.2)) fun _ _ ↦
        .pure hmade

theorem symbols_keepsTo (names : List String) : KeepsTo n (symbols names) := by
  refine .newList fun v hv ↦ ?_
  obtain ⟨name, -, rfl⟩ := List.mem_map.mp hv
  trivial

theorem runOn_keepsTo (r : TypeRoutine) (t : TypeId) (hc : Known n c) :
    KeepsTo n (r.runOn t c) := by
  have names (f : State → List String) : KeepsTo n (Eval.read f) :=
    .read fun _ _ _ _ ↦ trivial
  cases r with
  | ancestors =>
    refine .bind (.read fun _ _ _ _ ↦ trivial) fun ts _ ↦ .newList fun v hv ↦ ?_
    obtain ⟨t, -, rfl⟩ := List.mem_map.mp hv
    trivial
  | instanceMethods => exact .bind (names _) fun _ _ ↦ symbols_keepsTo _
  | classMethods => exact .bind (names _) fun _ _ ↦ symbols_keepsTo _
  | constants => exact .bind (names _) fun _ _ ↦ symbols_keepsTo _
  | name => exact .bind (.read fun _ _ ↦ trivial) fun _ _ ↦ .pure trivial
  | doc =>
    refine .bind (.read fun _ _ ↦ .text? _) fun doc _ ↦ ?_
    cases doc <;> exact .pure trivial
  | superclass =>
    refine .bind (.read fun _ _ ↦ .type? _) fun t _ ↦ ?_
    cases t <;> exact .pure trivial
  | methodDoc =>
    unfold TypeRoutine.runOn
    dsimp only
    split
    · refine .bind (.read fun _ _ ↦ .text? _) fun doc _ ↦ ?_
      cases doc <;> exact .pure trivial
    · exact .fault _ c.span
  | includes =>
    unfold TypeRoutine.runOn
    cases c.arg 0 with
    | type m => exact .bind (.read fun _ _ ↦ trivial) fun _ _ ↦ .pure trivial
    | _ => exact .fault _ c.span
  | new => exact instantiate_keepsTo t hc

theorem run_keepsTo (r : TypeRoutine) (hc : Known n c) : KeepsTo n (r.run c) := by
  unfold TypeRoutine.run
  cases c.receiver with
  | type t => exact r.runOn_keepsTo t hc
  | _ => exact .fault _ c.span

end TypeRoutine

namespace Eval.KeepsTo

variable {before : Value → Value → Eval Bool}

theorem mergeOnto (h : ∀ v w, Known n v → Known n w → KeepsTo n (before v w)) (k : Nat)
    {done : List Value} (hdone : Known n done) (hvs : Known n vs) (hws : Known n ws) :
    KeepsTo n (mergeOnto before k done vs ws) := by
  induction k generalizing done vs ws with
  | zero => exact .pure ((hdone.reverse.append hvs).append hws)
  | succ k ih =>
    match vs, ws with
    | v :: vs, w :: ws =>
      refine .bind (h w v hws.head hvs.head) fun less _ ↦ ?_
      split
      · exact ih (.cons hws.head hdone) hvs hws.tail
      · exact ih (.cons hvs.head hdone) hvs.tail hws
    | [], ws => exact .pure ((hdone.reverse.append hvs).append hws)
    | _ :: _, [] => exact .pure ((hdone.reverse.append hvs).append hws)

theorem mergeSortWithin (h : ∀ v w, Known n v → Known n w → KeepsTo n (before v w)) (k : Nat)
    (hvs : Known n vs) : KeepsTo n (mergeSortWithin before k vs) := by
  induction k generalizing vs with
  | zero => exact .pure hvs
  | succ k ih =>
    unfold Quill.mergeSortWithin
    split
    · exact .pure hvs
    · rw [List.splitAt_eq]
      exact .bind (ih (hvs.subset (List.take_subset _ _))) fun left hleft ↦
        .bind (ih (hvs.subset (List.drop_subset _ _))) fun right hright ↦
          .mergeOnto h vs.length .nil hleft hright

end Eval.KeepsTo

namespace ListRoutine

theorem containsItem_keepsTo (hv : Known n v) (hvs : Known n vs) :
    KeepsTo n (containsItem v vs) := by
  induction vs with
  | nil => exact .pure trivial
  | cons item rest ih =>
    refine .bind (.valuesEqual hvs.head hv) fun equal _ ↦ ?_
    split
    · exact .pure trivial
    · exact ih hvs.tail

theorem positionOf_keepsTo (index : Nat) (hv : Known n v) (hvs : Known n vs) :
    KeepsTo n (positionOf v index vs) := by
  induction vs generalizing index with
  | nil => exact .pure trivial
  | cons item rest ih =>
    refine .bind (.valuesEqual hvs.head hv) fun equal _ ↦ ?_
    split
    · exact .pure trivial
    · exact ih (index + 1) hvs.tail

theorem matchFor_keepsTo (index : Nat) (hv : Known n v) (hvs : Known n vs) :
    KeepsTo n (matchFor v index vs) := by
  induction vs generalizing index with
  | nil => exact .pure trivial
  | cons candidate rest ih =>
    refine .bind (.valuesEqual hv hvs.head) fun equal _ ↦ ?_
    split
    · exact .pure trivial
    · exact ih (index + 1) hvs.tail

theorem equalItems_keepsTo (hvs : Known n vs) (hws : Known n ws) :
    KeepsTo n (equalItems vs ws) := by
  induction vs generalizing ws with
  | nil => exact .pure trivial
  | cons v vs ih =>
    cases ws with
    | nil => exact .pure trivial
    | cons w ws =>
      refine .bind (.valuesEqual hvs.head hws.head) fun equal _ ↦ ?_
      split
      · exact ih hvs.tail hws.tail
      · exact .pure trivial

theorem lessItems_keepsTo (span : Span) (hvs : Known n vs) (hws : Known n ws) :
    KeepsTo n (lessItems span vs ws) := by
  induction vs generalizing ws with
  | nil => cases ws <;> exact .pure trivial
  | cons v vs ih =>
    cases ws with
    | nil => exact .pure trivial
    | cons w ws =>
      refine .bind (.valuesEqual hvs.head hws.head) fun equal _ ↦ ?_
      split
      · exact ih hvs.tail hws.tail
      · exact .bind (.send hvs.head (.single hws.head) trivial) fun _ _ ↦ .pure trivial

theorem subsetOf_keepsTo (hvs : Known n vs) (hws : Known n ws) : KeepsTo n (subsetOf vs ws) := by
  induction ws with
  | nil => exact .pure trivial
  | cons item rest ih =>
    refine .bind (containsItem_keepsTo hws.head hvs) fun contained _ ↦ ?_
    split
    · exact ih hws.tail
    · exact .pure trivial

theorem pairUp_keepsTo {candidates : Array Value} (hc : Known n candidates) (hvs : Known n vs) :
    KeepsTo n (pairUp candidates vs) := by
  induction vs generalizing candidates with
  | nil => exact .pure trivial
  | cons item rest ih =>
    refine .bind (.holding hc.arrayList (matchFor_keepsTo 0 hvs.head hc.arrayList))
      fun found _ ↦ ?_
    cases found with
    | some i =>
      have last : Known n (candidates.back?.getD .nil) := hc.back?.getD trivial
      exact ih (hc.setIfInBounds i last).pop hvs.tail
    | none => exact .pure trivial

theorem displayItems_keepsTo (done : List String) (hvs : Known n vs) :
    KeepsTo n (displayItems done vs) := by
  induction vs generalizing done with
  | nil => exact .pure fun _ _ ↦ trivial
  | cons item rest ih =>
    exact .bind (.holding hvs.tail (.display hvs.head)) fun _ _ ↦ ih _ hvs.tail

theorem inspectItems_keepsTo (l : ListId) (done : List String) (hvs : Known n vs) :
    KeepsTo n (inspectItems l done vs) := by
  induction vs generalizing done with
  | nil => exact .pure fun _ _ ↦ trivial
  | cons item rest ih =>
    unfold ListRoutine.inspectItems
    split
    · exact .bind (.pure trivial) fun _ _ ↦ ih _ hvs.tail
    · exact .bind (.holding hvs.tail (.inspect hvs.head)) fun _ _ ↦ ih _ hvs.tail

theorem sortsBefore_keepsTo {block : Option Value} {span : Span} (hblock : Known n block)
    (hv : Known n v) (hw : Known n w) : KeepsTo n (sortsBefore block span v w) := by
  cases block with
  | some block =>
    exact .bind (.callValue hblock (.cons hv (.single hw)) trivial) fun _ _ ↦ .pure trivial
  | none => exact .bind (.send hv (.single hw) trivial) fun _ _ ↦ .pure trivial

theorem withArgument_keepsTo {use : ListId → Eval Value} (h : ∀ l, KeepsTo n (use l)) :
    KeepsTo n (withArgument c use) := by
  unfold ListRoutine.withArgument
  cases c.arg 0 with
  | list other => exact h other
  | _ => exact .fault _ c.span

theorem joined_keepsTo (l : ListId) (separator : String) : KeepsTo n (joined l separator) :=
  .bind (.read fun _ hs ↦ hs.items l) fun _ hitems ↦
    .bind (displayItems_keepsTo [] hitems.arrayList) fun _ _ ↦ .pure trivial

theorem itemsOf_keepsTo (l m : ListId) : KeepsTo n (itemsOf l m) :=
  .read fun _ hs ↦ ⟨(hs.items l).arrayList, (hs.items m).arrayList⟩

theorem filled_keepsTo (hc : Known n c) : KeepsTo n (filled c) := by
  unfold ListRoutine.filled
  dsimp only
  split
  · exact .fault _ c.span
  · split
    · exact .fault _ c.span
    · split
      · exact .fault _ c.span
      · refine .change fun _ hs ↦ ⟨rfl, hs.newList fun v hv ↦ ?_, trivial⟩
        rw [Array.mem_replicate] at hv
        exact hv.2 ▸ hc.arg 1

theorem setItem_keepsTo (l : ListId) (hc : Known n c) : KeepsTo n (setItem l c) := by
  refine .bind (.read fun _ _ ↦ trivial) fun size _ ↦ ?_
  dsimp only
  split
  · exact .fault _ c.span
  · rename_i i _
    split
    · exact .fault _ c.span
    · have assigned (items : Array Value) (h : Known n items) :
          Known n (assignAt items i (c.arg 1)) := by
        unfold assignAt
        split
        · exact h.setIfInBounds i (hc.arg 1)
        · refine (h.arrayAppend fun v hv ↦ ?_).push (hc.arg 1)
          rw [Array.mem_replicate] at hv
          exact hv.2 ▸ trivial
      exact .bind (.modify fun _ hs ↦ ⟨rfl, hs.modifyList l assigned⟩) fun _ _ ↦
        .pure (hc.arg 1)

theorem runOn_keepsTo (r : ListRoutine) (l : ListId) (hc : Known n c) :
    KeepsTo n (r.runOn l c) := by
  have items : KeepsTo n (Eval.read fun s ↦ (s.items l).toList) :=
    .read fun _ hs ↦ (hs.items l).arrayList
  cases r with
  | size => exact .bind (.read fun _ _ ↦ trivial) fun _ _ ↦ .pure trivial
  | count => exact .bind (.read fun _ _ ↦ trivial) fun _ _ ↦ .pure trivial
  | isEmpty => exact .bind (.read fun _ _ ↦ trivial) fun _ _ ↦ .pure trivial
  | push =>
    have pushed (items : Array Value) (h : Known n items) :
        Known n (items ++ c.args.toArray) := h.arrayAppend hc.2.1.toArray
    exact .bind (.modify fun _ hs ↦ ⟨rfl, hs.modifyList l pushed⟩) fun _ _ ↦ .pure hc.1
  | pop =>
    exact .bind (.read fun _ hs ↦ (hs.items l).back?) fun last hlast ↦
      .bind (.modify fun _ hs ↦ ⟨rfl, hs.modifyList l fun _ h ↦ h.pop⟩) fun _ _ ↦
        .pure (hlast.getD trivial)
  | first =>
    exact .bind (.read fun _ hs ↦ (hs.items l).at? 0) fun v hv ↦ .pure (hv.getD trivial)
  | last => exact .bind (.read fun _ hs ↦ (hs.items l).back?) fun v hv ↦ .pure (hv.getD trivial)
  | get =>
    refine .read fun s hs ↦ Known.getD ?_ trivial
    cases Text.place? (s.items l).size ((c.arg 0).int?.getD 0).toInt with
    | some i => exact (hs.items l).at? i
    | none => trivial
  | set => exact setItem_keepsTo l hc
  | includes =>
    exact .bind items fun _ hitems ↦
      .bind (.holding hitems (containsItem_keepsTo (hc.arg 0) hitems)) fun _ _ ↦ .pure trivial
  | indexOf =>
    refine .bind items fun _ hitems ↦
      .bind (.holding hitems (positionOf_keepsTo 0 (hc.arg 0) hitems)) fun found _ ↦ ?_
    cases found <;> exact .pure trivial
  | concat =>
    exact withArgument_keepsTo fun other ↦ .bind (.read fun _ hs ↦ hs.items other) fun more hmore ↦
      .bind (.modify fun _ hs ↦ ⟨rfl, hs.modifyList l fun _ h ↦ h.arrayAppend hmore⟩) fun _ _ ↦
        .pure hc.1
  | plus =>
    exact withArgument_keepsTo fun other ↦ .change fun _ hs ↦
      ⟨rfl, hs.newList ((hs.items l).arrayAppend (hs.items other)), trivial⟩
  | reverse =>
    exact .change fun _ hs ↦
      ⟨rfl, hs.newList fun v hv ↦ hs.items l v (Array.mem_reverse.mp hv), trivial⟩
  | joinPlain => exact joined_keepsTo l ""
  | join => exact joined_keepsTo l _
  | sort =>
    have order (v w : Value) (hv : Known n v) (hw : Known n w) :
        KeepsTo n (sortsBefore c.block c.span v w) := sortsBefore_keepsTo hc.2.2 hv hw
    exact .bind items fun vs hvs ↦
      .bind (.holding hvs (.mergeSortWithin order vs.length hvs)) fun _ hsorted ↦ .newList hsorted
  | equal =>
    unfold ListRoutine.runOn
    cases c.arg 0 with
    | list other =>
      dsimp only
      split
      · exact .pure trivial
      · refine .bind (itemsOf_keepsTo l other) fun (as, bs) hboth ↦ ?_
        dsimp only
        split
        · exact .bind (.holding hboth.1 (.holding hboth.2 (equalItems_keepsTo hboth.1 hboth.2)))
            fun _ _ ↦ .pure trivial
        · exact .pure trivial
    | _ => exact .pure trivial
  | less =>
    exact withArgument_keepsTo fun other ↦ .bind (itemsOf_keepsTo l other) fun (as, bs) hboth ↦
      .bind (.holding hboth.1 (.holding hboth.2 (lessItems_keepsTo c.span hboth.1 hboth.2)))
        fun _ _ ↦ .pure trivial
  | isSubset =>
    exact withArgument_keepsTo fun other ↦ .bind (itemsOf_keepsTo l other) fun (as, bs) hboth ↦
      .bind (.holding hboth.1 (.holding hboth.2 (subsetOf_keepsTo hboth.2 hboth.1)))
        fun _ _ ↦ .pure trivial
  | sameElements =>
    refine withArgument_keepsTo fun other ↦
      .bind (itemsOf_keepsTo l other) fun (as, bs) hboth ↦ ?_
    dsimp only
    split
    · exact .bind (.holding hboth.1 (pairUp_keepsTo hboth.2.toArray hboth.1)) fun _ _ ↦
        .pure trivial
    · exact .pure trivial
  | inspect =>
    exact .bind (.read fun _ hs ↦ hs.items l) fun _ hitems ↦
      .bind (inspectItems_keepsTo l [] hitems.arrayList) fun _ _ ↦ .pure trivial
  | _ => exact .pure trivial

theorem visit?_known (r : ListRoutine) (hc : Known n c) {first : Option Value}
    (hfirst : Known n first) {visit : Visit} {index : Nat}
    (h : r.visit? c first = some (visit, index)) : Known n visit := by
  cases r with
  | map => cases h; exact .nil
  | filter keep => cases h; exact .nil
  | reduceFirst =>
    cases first with
    | some v => cases h; exact hfirst
    | none => cases h
  | reduce => cases h; exact hc.arg 0
  | count =>
    unfold visit? at h
    dsimp only at h
    split at h
    · cases h; trivial
    · cases h
  | each | eachWithIndex | find | any | all => cases h; trivial
  | _ => cases h

theorem run_keepsTo (r : ListRoutine) (hc : Known n c) : KeepsTo n (r.run c) := by
  unfold ListRoutine.run
  split
  · exact .newList .nil
  · exact filled_keepsTo hc
  · split
    · exact .fault _ c.span
    · refine .bind (.read fun _ hs ↦ (hs.items _).at? 0) fun first hfirst ↦
        .holding hc.values ?_
      split
      · rename_i visit index hvisit
        exact .perform ⟨visit?_known _ hc hfirst hvisit, hc.2.2⟩
      · exact runOn_keepsTo _ _ hc
  · exact .fault _ c.span

end ListRoutine

namespace Routine

theorem run_keepsTo (r : Routine) (hc : Known n c) : KeepsTo n (r.run c) := by
  cases r with
  | object r => exact r.run_keepsTo hc
  | error r => exact r.run_keepsTo hc
  | lambda r => exact r.run_keepsTo hc
  | number r => exact r.run_keepsTo hc
  | text r => exact r.run_keepsTo hc
  | list r => exact r.run_keepsTo hc
  | type r => exact r.run_keepsTo hc
  | host r => exact r.run_keepsTo hc

end Routine

end Quill
