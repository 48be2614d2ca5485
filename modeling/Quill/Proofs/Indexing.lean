import Mathlib.Algebra.Group.Int.Defs
import Mathlib.Algebra.Group.Nat.Defs
import Quill.Proofs.Answering
import Quill.Proofs.Comparing

/-!
# Elements by index

A negative index counts from the end. What is read is `nil` where there is no element. What is
written may make the list longer, but neither begins before the list nor makes it too large, and
then the list stays as it is. Main statement: `ListRoutine.indexing_lawful`.
-/

namespace Quill

open Eval

namespace Routine

def listGet : Entry := fixed .list .list "[]" [.int] (.list .get)

def listSet : Entry := fixed .list .list "[]=" [.int, .any] (.list .set)

end Routine

def placeOf (n : Nat) (i : Int64) : Int := if i < 0 then n + i.toInt else i.toInt

theorem place?_eq (n : Nat) (i : Int64) :
    Text.place? n i.toInt = if placeOf n i < 0 then none else some (placeOf n i).toNat := by
  unfold Text.place? placeOf
  simp only [Int64.lt_iff_toInt_lt, Int64.toInt_zero]

theorem placeOf_exact {n : Nat} (hn : n < 2 ^ 63) (i : Int64) :
    (if i < 0 then Int64.ofNat n + i else i).toInt = placeOf n i ∧ placeOf n i + 1 ≤ 2 ^ 63 := by
  have hmin := i.le_toInt
  have hmax := i.toInt_lt
  unfold placeOf
  split
  · rename_i hneg
    rw [Int64.lt_iff_toInt_lt, Int64.toInt_zero] at hneg
    rw [Int64.toInt_add, Int64.toInt_ofNat_of_lt hn, Int.bmod_eq_of_le (by omega) (by omega)]
    omega
  · omega

/-- `v` is now the element at `k`. The others are still there, and `nil` is wherever between the old
end and `k` nothing was. -/
structure Assigned (items : Array Value) (k : Nat) (v : Value) (items' : Array Value) : Prop where
  size : items'.size = max items.size (k + 1)
  written : items'[k]? = some v
  padded : ∀ j, items.size ≤ j → j < k → items'[j]? = some .nil
  others : ∀ j, j < items.size → j ≠ k → items'[j]? = items[j]?

namespace ListRoutine

theorem assignAt_assigned (items : Array Value) (k : Nat) (v : Value) :
    Assigned items k v (assignAt items k v) := by
  unfold assignAt
  split
  · rename_i hk
    refine ⟨?_, ?_, fun j hj hjk ↦ by omega, fun j _ hjk ↦ ?_⟩
    · rw [Array.size_setIfInBounds]
      omega
    · rw [Array.getElem?_setIfInBounds_self_of_lt hk]
    · exact Array.getElem?_setIfInBounds_ne (Ne.symm hjk)
  · rename_i hk
    have hsize : (items ++ Array.replicate (k - items.size) Value.nil).size = k := by
      rw [Array.size_append, Array.size_replicate]
      omega
    refine ⟨?_, ?_, fun j hj hjk ↦ ?_, fun j hj hjk ↦ ?_⟩
    · rw [Array.size_push, hsize]
      omega
    · rw [Array.getElem?_push, if_pos hsize.symm]
    · rw [Array.getElem?_push, if_neg (by omega), Array.getElem?_append_right hj,
        Array.getElem?_replicate, if_pos (by omega)]
    · rw [Array.getElem?_push, if_neg (by omega), Array.getElem?_append_left hj]

section

variable {s : State} {l : ListId}

theorem items_modifyList (hl : l.index < s.lists.size) (f : Array Value → Array Value) :
    (s.modifyList l f).items l = f (s.items l) := by
  unfold State.items State.modifyList
  dsimp only
  rw [Array.getElem?_modify, if_pos rfl, Array.getElem?_eq_getElem hl]
  rfl

theorem items_modifyList_of_ne {m : ListId} (hm : m ≠ l) (f : Array Value → Array Value) :
    (s.modifyList l f).items m = s.items m := by
  have hindex : l.index ≠ m.index := fun h ↦ hm (by cases m; cases l; cases h; rfl)
  simp [State.items, State.modifyList, Array.getElem?_modify, hindex]

variable {i : Int64} {v : Value} (span : Span)

theorem get_gives :
    (get.run ⟨.list l, [.int i], none, span⟩).Gives s
      (.ok (((Text.place? (s.items l).size i.toInt).bind ((s.items l)[·]?)).getD .nil)) s := by
  have hread := gives_of_runOn (r := get) (c := ⟨.list l, [.int i], none, span⟩) (s := s)
    (by decide) rfl (fun _ ↦ rfl) rfl (.read _ _)
  exact hread

theorem set_gives {o : Outcome Value} {s' : State}
    (h : (match Text.place? (s.items l).size i.toInt with
      | none => fault (.indexOutOfRange i) span
      | some k =>
        if (s.items l).size ≤ k && maxBuildLength < k + 1 then fault .tooLarge span
        else do
          modify (·.modifyList l fun items ↦ assignAt items k v)
          return v : Eval Value).Gives { s with held := ⟨[.list l, .int i, v], none⟩ :: s.held }
            o s') :
    (set.run ⟨.list l, [.int i, v], none, span⟩).Gives s o { s' with held := s.held } :=
  gives_of_runOn (l := l) (by decide) rfl (fun _ ↦ rfl) rfl (.bind (.read _ _) h)

theorem set_writes {k : Nat} (hk : Text.place? (s.items l).size i.toInt = some k)
    (hfits : k < (s.items l).size ∨ k + 1 ≤ maxBuildLength) :
    (set.run ⟨.list l, [.int i, v], none, span⟩).Gives s (.ok v)
      (s.modifyList l fun items ↦ assignAt items k v) := by
  have hsmall : ((s.items l).size ≤ k && maxBuildLength < k + 1) = false := by
    rw [Bool.and_eq_false_iff, decide_eq_false_iff_not, decide_eq_false_iff_not]
    omega
  have hwrites := set_gives (s := s) (l := l) (i := i) (v := v) (o := .ok v) span (by
    rw [hk]
    dsimp only
    rw [hsmall]
    exact .bind (.change _ _) (.pure v _))
  exact hwrites

theorem fault_gives (f : Fault) (vs : List Value) :
    ∃ o s', (fault f span : Eval Value).Gives { s with held := ⟨vs, none⟩ :: s.held } o s' ∧
      s'.Raises f span o ∧ s'.lists = s.lists :=
  ⟨_, _, .fault f span _, ⟨⟨s.objects.size⟩, s.frames, rfl, Array.getElem?_push_size⟩, rfl⟩

theorem set_before (hi : Text.place? (s.items l).size i.toInt = none) :
    ∃ o s', (set.run ⟨.list l, [.int i, v], none, span⟩).Gives s o s' ∧
      s'.Raises (.indexOutOfRange i) span o ∧ s'.lists = s.lists := by
  obtain ⟨o, s', hgives, hraises, hlists⟩ := fault_gives (s := s) span
    (.indexOutOfRange i) [.list l, .int i, v]
  refine ⟨o, { s' with held := s.held }, set_gives (s := s) span ?_, hraises, hlists⟩
  rw [hi]
  exact hgives

theorem set_tooLarge {k : Nat} (hk : Text.place? (s.items l).size i.toInt = some k)
    (hsize : (s.items l).size ≤ k) (hlarge : maxBuildLength < k + 1) :
    ∃ o s', (set.run ⟨.list l, [.int i, v], none, span⟩).Gives s o s' ∧
      s'.Raises .tooLarge span o ∧ s'.lists = s.lists := by
  obtain ⟨o, s', hgives, hraises, hlists⟩ := fault_gives (s := s) span
    .tooLarge [.list l, .int i, v]
  refine ⟨o, { s' with held := s.held }, set_gives (s := s) span ?_, hraises, hlists⟩
  rw [hk]
  dsimp only
  rw [decide_eq_true hsize, decide_eq_true hlarge]
  exact hgives

end

/-- Reading and writing mean the same place by an index. An element that was written is there, and
no other has changed or moved; where an element cannot be written, the list is as before. -/
theorem indexing_lawful {s : State} {l : ListId} (hl : l.index < s.lists.size) (i : Int64)
    (v : Value) (span : Span) :
    let items := s.items l
    let n := items.size
    let k := placeOf n i
    let reading : Call := ⟨.list l, [.int i], none, span⟩
    let writing : Call := ⟨.list l, [.int i, v], none, span⟩
    (0 ≤ k ∧ k < n → ∃ a, items[k.toNat]? = some a ∧ (get.run reading).Gives s (.ok a) s) ∧
    (¬(0 ≤ k ∧ k < n) → (get.run reading).Gives s (.ok .nil) s) ∧
    ((∃ a s', (set.run writing).Gives s (.ok a) s') ↔ 0 ≤ k ∧ (k < n ∨ k + 1 ≤ 2 ^ 24)) ∧
    (0 ≤ k ∧ (k < n ∨ k + 1 ≤ 2 ^ 24) → ∃ s', (set.run writing).Gives s (.ok v) s' ∧
      Assigned items k.toNat v (s'.items l) ∧ (∀ m, m ≠ l → s'.items m = s.items m) ∧
      s' = { s with lists := s'.lists }) ∧
    (k < 0 → ∃ o s', (set.run writing).Gives s o s' ∧ s'.Raises (.indexOutOfRange i) span o ∧
      s'.lists = s.lists) ∧
    (n ≤ k ∧ 2 ^ 24 < k + 1 → ∃ o s', (set.run writing).Gives s o s' ∧
      s'.Raises .tooLarge span o ∧ s'.lists = s.lists) ∧
    ((Fault.indexOutOfRange i).type = .argumentTypeError ∧ Fault.tooLarge.type = .runtimeError) ∧
    (n < 2 ^ 63 → (if i < 0 then Int64.ofNat n + i else i).toInt = k ∧ k + 1 ≤ 2 ^ 63) ∧
    (s.frames.size < s.config.maxCallDepth →
      (s.types.FindsInstalled "[]" [.list] →
        (Task.send "[]" reading).CallsFor (get.run reading) s) ∧
      (s.types.FindsInstalled "[]=" [.list] →
        (Task.send "[]=" writing).CallsFor (set.run writing) s)) := by
  intro items n k reading writing
  have hlimit : maxBuildLength = 2 ^ 24 := rfl
  have hsize : (s.items l).size = n := rfl
  have hread : (get.run reading).Gives s
      (.ok (((Text.place? n i.toInt).bind (items[·]?)).getD .nil)) s := get_gives span
  have hbefore (hk : k < 0) := set_before (s := s) (l := l) (i := i) (v := v) span
    ((place?_eq n i).trans (if_pos hk))
  have hplace (hk : 0 ≤ k) : Text.place? n i.toInt = some k.toNat :=
    (place?_eq n i).trans (if_neg (Int.not_lt.mpr hk))
  have hlarge (hk : n ≤ k ∧ 2 ^ 24 < k + 1) := set_tooLarge (v := v) span
    (hplace (by omega)) (by omega) (by omega)
  have hwrite (hk : 0 ≤ k ∧ (k < n ∨ k + 1 ≤ 2 ^ 24)) :=
    set_writes (v := v) span (hplace hk.1) (by omega)
  refine ⟨fun hk ↦ ?_, fun hk ↦ ?_, ⟨fun h ↦ ?_, fun hk ↦ ⟨v, _, hwrite hk⟩⟩, fun hk ↦ ?_, hbefore,
    hlarge, ⟨rfl, rfl⟩, fun hn ↦ placeOf_exact hn i, fun hroom ↦ ⟨fun hget ↦ ?_, fun hset ↦ ?_⟩⟩
  · have hlt : k.toNat < items.size := by omega
    rw [hplace hk.1, Option.bind_some, Array.getElem?_eq_getElem hlt] at hread
    exact ⟨items[k.toNat], Array.getElem?_eq_getElem hlt, hread⟩
  · by_cases hneg : k < 0
    · rw [place?_eq, if_pos hneg] at hread
      exact hread
    · have hle : items.size ≤ k.toNat := by omega
      rw [hplace (by omega), Option.bind_some, Array.getElem?_eq_none hle] at hread
      exact hread
  · obtain ⟨a, s', hgives⟩ := h
    by_contra hk
    obtain ⟨o, s₁, hfails, ⟨_, _, rfl, -⟩, -⟩ : ∃ o s₁, (set.run writing).Gives s o s₁ ∧
        s₁.Raises (if k < 0 then .indexOutOfRange i else .tooLarge) span o ∧
        s₁.lists = s.lists := by
      split
      · exact hbefore ‹_›
      · exact hlarge (by omega)
    cases (Gives.unique hgives hfails).1
  · refine ⟨_, hwrite hk, ?_, fun m hm ↦ items_modifyList_of_ne hm _, rfl⟩
    rw [items_modifyList hl]
    exact assignAt_assigned items k.toNat v
  · exact Task.CallsFor.offered (e := Routine.listGet) (c := reading)
      (hget.offers (List.mem_singleton_self _) (by decide +kernel)) rfl rfl rfl hroom
  · exact Task.CallsFor.offered (e := Routine.listSet) (c := writing)
      (hset.offers (List.mem_singleton_self _) (by decide +kernel)) rfl rfl rfl hroom

/-- A list of two elements gets a fifth one, and what is before its start is not written. -/
theorem indexing_of_two :
    let s : State := { State.initial .standard with lists := #[#[.int 7, .int 8]] }
    let writing (i : Int64) : Call := ⟨.list ⟨0⟩, [.int i, .bool true], none, .origin⟩
    (∃ s', (set.run (writing 4)).Gives s (.ok (.bool true)) s' ∧
        Assigned #[.int 7, .int 8] 4 (.bool true) (s'.items ⟨0⟩)) ∧
      (get.run ⟨.list ⟨0⟩, [.int (-2)], none, .origin⟩).Gives s (.ok (.int 7)) s ∧
      (∃ o s', (set.run (writing (-3))).Gives s o s' ∧
        s'.Raises (.indexOutOfRange (-3)) .origin o ∧ s'.lists = s.lists) ∧
      (Task.send "[]=" (writing 4)).CallsFor (set.run (writing 4)) s := by
  intro s writing
  have hlawful (i : Int64) :=
    indexing_lawful (s := s) (l := ⟨0⟩) (by decide) i (.bool true) .origin
  obtain ⟨-, -, -, hwrite, -, -, -, -, hsends⟩ := hlawful 4
  obtain ⟨hread, -⟩ := hlawful (-2)
  obtain ⟨-, -, -, -, hbefore, -⟩ := hlawful (-3)
  obtain ⟨s', hgives, hassigned, -⟩ := hwrite ⟨by decide, .inr (by decide)⟩
  obtain ⟨a, ha, hgot⟩ := hread ⟨by decide, by decide⟩
  obtain rfl : Value.int 7 = a := Option.some.inj ha
  exact ⟨⟨s', hgives, hassigned⟩, hgot, hbefore (by decide),
    (hsends (by decide)).2 fun _ _ ↦ rfl⟩

end ListRoutine

end Quill
