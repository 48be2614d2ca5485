import Mathlib.Data.List.Lex
import Mathlib.Data.String.Basic
import Quill.Proofs.Equality
import Quill.Proofs.Sorting

/-!
# The order of lists

Lists of integers, of texts, or of such lists are ordered by the first items that differ, and a
beginning of a list comes before the list. Main statement: `OrderedType.less_lexicographic`.
-/

namespace Quill

open Eval

/-- A type of elements: integers or texts, or lists of elements of one type. -/
inductive OrderedType where
  | int
  | str
  | list (item : OrderedType)

namespace OrderedType

def levels : OrderedType → Nat
  | int | str => 0
  | list k => k.levels + 1

def Elem : OrderedType → Type
  | int => Int64
  | str => String
  | list k => List k.Elem

/-- Integers are ordered by size, texts by code points, and lists lexicographically. -/
instance order : (k : OrderedType) → LinearOrder k.Elem
  | int => LinearOrder.lift' Int64.toInt fun _ _ h ↦ Int64.toInt_inj.mp h
  | str => inferInstanceAs (LinearOrder String)
  | list k => @List.instLinearOrder k.Elem k.order

def content : (k : OrderedType) → k.Elem → Content
  | int, n => .leaf (.int n)
  | str, text => .leaf (.str text)
  | list k, xs => .list (xs.map k.content)

theorem content_injective : (k : OrderedType) → Function.Injective k.content
  | int => fun _ _ h ↦ by
    injection h with h
    injection h
  | str => fun _ _ h ↦ by
    injection h with h
    injection h
  | list k => fun _ _ h ↦ by
    injection h with h
    exact List.map_injective_iff.mpr k.content_injective h

theorem content_inj (k : OrderedType) {x y : k.Elem} : k.content x = k.content y ↔ x = y :=
  k.content_injective.eq_iff

theorem depth_content_le : (k : OrderedType) → ∀ x, (k.content x).depth ≤ k.levels
  | int, _ => Nat.le_refl _
  | str, _ => Nat.le_refl _
  | list k, xs => by
    have hitems : ∀ xs : List k.Elem, Content.depthOf (xs.map k.content) ≤ k.levels := by
      intro xs
      induction xs with
      | nil => exact Nat.zero_le _
      | cons x xs ih => exact max_le (k.depth_content_le x) ih
    exact Nat.succ_le_succ (hitems xs)

theorem list_nil_lt {k : OrderedType} (y : k.Elem) (ys : List k.Elem) :
    @LT.lt (list k).Elem _ [] (y :: ys) := List.nil_lt_cons y ys

theorem list_not_lt_nil {k : OrderedType} (xs : List k.Elem) : ¬@LT.lt (list k).Elem _ xs [] :=
  List.not_lt_nil xs

theorem list_cons_lt {k : OrderedType} {x y : k.Elem} {xs ys : List k.Elem} :
    @LT.lt (list k).Elem _ (x :: xs) (y :: ys) ↔ x < y ∨ x = y ∧ @LT.lt (list k).Elem _ xs ys :=
  List.cons_lt_cons_iff

end OrderedType

namespace Routine

def listLess : Entry := fixed .list .list "<" [.list] (.list .less)

end Routine

/-- Messages `==` and `<` find what they find from the start. -/
structure Types.OrdersInstalled (ts : Types) : Prop where
  equals : ts.EqualsInstalled
  less : ts.FindsInstalled "<" [.int, .string, .list]

namespace OrderedType

section

variable {k : OrderedType} {s : State} {v w : Value} {vs ws : List Value}

theorem fits {x : k.Elem} (hx : (k.content x).In s.lists v)
    (hroom : s.frames.size + k.levels ≤ s.config.maxCallDepth) : (k.content x).Fits s v := by
  have hdepth := k.depth_content_le x
  exact ⟨hx, by omega⟩

theorem send_equal {x y : k.Elem} (hs : s.types.EqualsInstalled) (hx : (k.content x).In s.lists v)
    (hy : (k.content y).In s.lists w)
    (hroom : s.frames.size + k.levels < s.config.maxCallDepth) (span : Span) :
    (send v "==" [w] none span).Answers s (x = y) := by
  have hequal := Content.send_equal (k.content x) hs (fits hx (Nat.le_of_lt hroom))
    (fits hy (Nat.le_of_lt hroom)) (by omega) span
  rwa [content_inj] at hequal

theorem valuesEqual_tells {x y : k.Elem} (hs : s.types.EqualsInstalled)
    (hx : (k.content x).In s.lists v) (hy : (k.content y).In s.lists w)
    (hroom : s.frames.size + k.levels < s.config.maxCallDepth) :
    (valuesEqual v w).Tells s (x = y) := by
  have hequal := Content.valuesEqual_fits (fits hx (Nat.le_of_lt hroom))
    (fits hy (Nat.le_of_lt hroom)) fun held hframes ↦
      Content.send_equal _ (s := { s with held }) hs (fits hx (Nat.le_of_lt hroom))
        (fits hy (Nat.le_of_lt hroom)) hframes .origin
  rwa [content_inj] at hequal

theorem lessItems_tells (hs : s.types.EqualsInstalled)
    (hroom : s.frames.size + k.levels < s.config.maxCallDepth) (span : Span)
    (hless : ∀ {v w : Value} {x y : k.Elem}, (k.content x).In s.lists v →
      (k.content y).In s.lists w → (send v "<" [w] none span).Answers s (x < y))
    {xs ys : List k.Elem} (hxs : Content.AllIn s.lists vs (xs.map k.content))
    (hys : Content.AllIn s.lists ws (ys.map k.content)) :
    (ListRoutine.lessItems span vs ws).Tells s (@LT.lt (list k).Elem _ xs ys) := by
  induction xs generalizing vs ws ys with
  | nil =>
    obtain rfl := List.eq_nil_of_length_eq_zero hxs.length_eq
    cases ys with
    | nil =>
      obtain rfl := List.eq_nil_of_length_eq_zero hys.length_eq
      exact .pure (by simp [list_not_lt_nil])
    | cons y ys =>
      obtain ⟨w, ws, rfl⟩ := List.exists_cons_of_length_eq_add_one hys.length_eq
      exact .pure (by simp [list_nil_lt])
  | cons x xs ih =>
    obtain ⟨v, vs, rfl⟩ := List.exists_cons_of_length_eq_add_one hxs.length_eq
    cases ys with
    | nil =>
      obtain rfl := List.eq_nil_of_length_eq_zero hys.length_eq
      exact .pure (by simp [list_not_lt_nil])
    | cons y ys =>
      obtain ⟨w, ws, rfl⟩ := List.exists_cons_of_length_eq_add_one hys.length_eq
      have hfirst := valuesEqual_tells hs hxs.1 hys.1 hroom
      have hall := hfirst.ite (fun _ ↦ ih hxs.2 hys.2) fun _ ↦ (hless hxs.1 hys.1).truthy
      refine hall.congr ?_
      rw [list_cons_lt]
      by_cases hxy : x = y
      · simp [hxy]
      · simp [hxy]

end

theorem send_less : (k : OrderedType) → ∀ {s : State} {v w : Value} {x y : k.Elem},
    s.types.OrdersInstalled → (k.content x).In s.lists v → (k.content y).In s.lists w →
    s.frames.size + k.levels < s.config.maxCallDepth →
    ∀ span, (send v "<" [w] none span).Answers s (x < y)
  | int, s, v, w, x, y, hs, hx, hy, hroom, span => by
    obtain rfl : v = .int x := hx
    obtain rfl : w = .int y := hy
    exact send_less_int hs.less hroom (by decide) x y
  | str, s, v, w, x, y, hs, hx, hy, hroom, span => by
    obtain rfl : v = .str x := hx
    obtain rfl : w = .str y := hy
    exact send_less_str hs.less hroom (by decide) x y
  | list k, s, v, w, xs, ys, hs, hx, hy, hroom, span => by
    obtain ⟨l, rfl, hxs⟩ := hx.items
    obtain ⟨m, rfl, hys⟩ := hy.items
    have hoffers : s.types.offers .list Routine.listLess = true :=
      hs.less.offers (by decide) (by decide +kernel)
    rw [levels] at hroom
    refine Answers.offered hoffers rfl rfl rfl (by omega) fun held frame ↦ ?_
    change (ListRoutine.less.run ⟨.list l, [.list m], none, span⟩).Answers _ _
    refine ListRoutine.answers_of_runOn (by decide) rfl (fun _ ↦ rfl) rfl (.reading ?_)
    have hsize : (s.frames.push frame).size + k.levels < s.config.maxCallDepth := by
      rw [Array.size_push]
      omega
    refine (Tells.holding (.holding ?_)).answers
    exact lessItems_tells (s := { s with held := _, frames := s.frames.push frame }) hs.equals hsize
      span (fun hx hy ↦ send_less k (s := { s with held := _, frames := s.frames.push frame }) hs hx
        hy hsize span) hxs hys

section

variable {k : OrderedType} {s : State}

instance inhabited : (k : OrderedType) → Inhabited k.Elem
  | int => ⟨(0 : Int64)⟩
  | str => ⟨""⟩
  | list k => ⟨([] : List k.Elem)⟩

theorem exists_elem {vs : List Value} {xs : List k.Elem}
    (h : Content.AllIn s.lists vs (xs.map k.content)) :
    ∃ elem : Value → k.Elem, vs.map elem = xs ∧ ∀ v ∈ vs, (k.content (elem v)).In s.lists v := by
  classical
  have hunique : ∀ v, ∃ x : k.Elem, ∀ y, (k.content y).In s.lists v → y = x := by
    intro v
    by_cases hv : ∃ x : k.Elem, (k.content x).In s.lists v
    · obtain ⟨x, hx⟩ := hv
      exact ⟨x, fun y hy ↦ k.content_injective (Content.In.unique _ _ hy hx)⟩
    · exact ⟨default, fun y hy ↦ absurd ⟨y, hy⟩ hv⟩
  choose elem helem using hunique
  have hall := List.forall₂_map_right_iff.mp (Content.allIn_iff_forall₂.mp h)
  have helems : vs.map elem = xs := by
    clear h
    induction hall with
    | nil => rfl
    | cons hx _ ih => rw [List.map_cons, ih, helem _ _ hx]
  rw [← helems] at hall
  exact ⟨elem, helems, List.forall₂_same.mp (List.forall₂_map_right_iff.mp hall)⟩

theorem send_sort {l : ListId} {xs : List k.Elem} (hs : s.types.OrdersInstalled)
    (hsort : s.types.FindsInstalled "sort" [.list])
    (hxs : ((list k).content xs).In s.lists (.list l))
    (hroom : s.frames.size + (k.levels + 1) < s.config.maxCallDepth) (span : Span) :
    ∃ (sorted : List Value) (ys : List k.Elem), ys.Perm xs ∧ ys.Pairwise (· ≤ ·) ∧
      (send (.list l) "sort" [] none span).Gives s (.ok (.list ⟨s.lists.size⟩))
        (s.newList sorted.toArray).2 ∧
      ((list k).content ys).In (s.newList sorted.toArray).2.lists (.list ⟨s.lists.size⟩) := by
  obtain ⟨l, hl, hitems⟩ := hxs.items
  cases hl
  obtain ⟨elem, rfl, helem⟩ := exists_elem hitems
  have hoffers : s.types.offers .list Routine.sort = true :=
    hsort.offers (List.mem_singleton_self _) (by decide +kernel)
  obtain ⟨held, frame, hsend⟩ :=
    Task.CallsFor.offered (c := ⟨.list l, [], none, span⟩) hoffers rfl rfl rfl (by omega)
  -- No comparison changes what the elements stand for, so sorting can go by their order.
  have hsteady : Steady (State.AsBefore { s with held, frames := s.frames.push frame })
      (ListRoutine.sortsBefore none span) (s.items l).toList
      fun a b ↦ decide (elem a < elem b) := by
    refine ListRoutine.steady_of_less fun held' a ha b hb ↦ ?_
    refine send_less k (s := { s with held := held', frames := s.frames.push frame }) hs
      (helem a ha) (helem b hb) ?_ span
    have hsize : (s.frames.push frame).size = s.frames.size + 1 := Array.size_push frame
    dsimp only
    omega
  obtain ⟨sorted, s₁, ⟨held₁, rfl⟩, hsorted, hgives⟩ := ListRoutine.sort_settles
    (State.Lax.refl _) hsteady (.of_lt elem _)
  refine ⟨sorted, sorted.map elem, hsorted.perm.map elem, ?_, ?_, ?_⟩
  · exact List.pairwise_map.mpr (hsorted.ordered.imp fun h ↦ not_lt.mp (of_decide_eq_false h))
  · have hsent := Gives.perform (hsend _ _ hgives)
    dsimp only [State.newList] at hsent
    rw [Array.pop_push] at hsent
    exact hsent
  · refine ⟨⟨s.lists.size⟩, sorted.toArray, rfl, Array.getElem?_push_size, ?_⟩
    refine Content.AllIn.lasts (State.Grows.newList s _).toKeeps _ ?_
    rw [Content.allIn_iff_forall₂, List.forall₂_map_right_iff, List.forall₂_map_right_iff,
      List.forall₂_same]
    exact fun v hv ↦ helem v (hsorted.perm.subset hv)

end

theorem lt_of_isPrefix {k : OrderedType} {xs ys : List k.Elem} (h : xs <+: ys) (hne : xs ≠ ys) :
    @LT.lt (list k).Elem _ xs ys := by
  induction xs generalizing ys with
  | nil =>
    cases ys with
    | nil => exact absurd rfl hne
    | cons y ys => exact list_nil_lt y ys
  | cons x xs ih =>
    cases ys with
    | nil => exact absurd (List.prefix_nil.mp h) hne
    | cons y ys =>
      obtain ⟨rfl, hrest⟩ := List.cons_prefix_cons.mp h
      exact list_cons_lt.mpr (.inr ⟨rfl, ih hrest fun heq ↦ hne (congrArg (x :: ·) heq)⟩)

theorem exists_ordering (k : OrderedType) (x y : k.Elem) :
    ∃ o : Ordering, (o = .lt ↔ x < y) ∧ (o = .eq ↔ x = y) ∧ (o = .gt ↔ y < x) :=
  ⟨compare x y, compare_lt_iff_lt, compare_eq_iff_eq, compare_gt_iff_gt⟩

/-- Lists of a type with an order are compared lexicographically, without errors or effects. So no
list is less than itself, the relation is transitive, of two lists one is less than the other or
both are equal, and a proper beginning is less than the whole. A list of such lists is sorted in
ascending order. -/
theorem less_lexicographic {k : OrderedType} {s : State} (hs : s.types.OrdersInstalled)
    (hroom : s.frames.size + (list k).levels < s.config.maxCallDepth) {v w u : Value}
    {xs ys zs : List k.Elem} (hv : ((list k).content xs).In s.lists v)
    (hw : ((list k).content ys).In s.lists w) (hu : ((list k).content zs).In s.lists u)
    (span : Span) :
    (send v "<" [w] none span).Answers s (xs < ys) ∧
    (send v "<" [v] none span).Gives s (.ok (.bool false)) s ∧
    ((send v "<" [w] none span).Gives s (.ok (.bool true)) s →
      (send w "<" [u] none span).Gives s (.ok (.bool true)) s →
      (send v "<" [u] none span).Gives s (.ok (.bool true)) s) ∧
    (∃ o : Ordering, (send v "<" [w] none span).Gives s (.ok (.bool (o == .lt))) s ∧
      (send v "==" [w] none span).Gives s (.ok (.bool (o == .eq))) s ∧
      (send w "<" [v] none span).Gives s (.ok (.bool (o == .gt))) s) ∧
    (xs <+: ys → xs ≠ ys → (send v "<" [w] none span).Gives s (.ok (.bool true)) s) ∧
    (∀ l (all : List (List k.Elem)), ((list (list k)).content all).In s.lists (.list l) →
      s.types.FindsInstalled "sort" [.list] →
      s.frames.size + (list (list k)).levels < s.config.maxCallDepth →
      ∃ (sorted : List Value) (ordered : List (List k.Elem)), ordered.Perm all ∧
        ordered.Pairwise (· ≤ ·) ∧
        (send (.list l) "sort" [] none span).Gives s (.ok (.list ⟨s.lists.size⟩))
          (s.newList sorted.toArray).2 ∧
        ((list (list k)).content ordered).In (s.newList sorted.toArray).2.lists
          (.list ⟨s.lists.size⟩)) := by
  have hless {v w : Value} {xs ys : List k.Elem} (hx : ((list k).content xs).In s.lists v)
      (hy : ((list k).content ys).In s.lists w) :
      (send v "<" [w] none span).Answers s (xs < ys) := send_less (list k) hs hx hy hroom span
  have hequal : (send v "==" [w] none span).Answers s (xs = ys) :=
    send_equal (k := list k) hs.equals hv hw hroom span
  refine ⟨hless hv hw, (hless hv hv).gives_iff.mpr (by simp), fun hvw hwu ↦ ?_, ?_,
    fun hbegins hne ↦ ?_, fun l all hl hsort hdeep ↦ send_sort hs hsort hl hdeep span⟩
  · have hxy := ((hless hv hw).gives_iff.mp hvw).mp rfl
    have hyz := ((hless hw hu).gives_iff.mp hwu).mp rfl
    exact (hless hv hu).gives_iff.mpr (iff_of_true rfl (hxy.trans hyz))
  · obtain ⟨o, hlt, heq, hgt⟩ := exists_ordering (list k) xs ys
    refine ⟨o, (hless hv hw).gives_iff.mpr ?_, hequal.gives_iff.mpr ?_,
      (hless hw hv).gives_iff.mpr ?_⟩
    · exact beq_iff_eq.trans hlt
    · exact beq_iff_eq.trans heq
    · exact beq_iff_eq.trans hgt
  · exact (hless hv hw).gives_iff.mpr (iff_of_true rfl (lt_of_isPrefix hbegins hne))

/-- A list comes before a longer one that begins like it, and a list of both is sorted so. -/
theorem less_of_beginning :
    let s : State := { State.initial .standard with
      lists := #[#[.int 1], #[.int 1, .int 2], #[.list ⟨1⟩, .list ⟨0⟩]] }
    (send (.list ⟨0⟩) "<" [.list ⟨1⟩] none .origin).Gives s (.ok (.bool true)) s ∧
      (send (.list ⟨0⟩) "<" [.list ⟨0⟩] none .origin).Gives s (.ok (.bool false)) s ∧
      ∃ (sorted : List Value) (ordered : List (List int.Elem)),
        ordered.Perm [[(1 : Int64), (2 : Int64)], [(1 : Int64)]] ∧ ordered.Pairwise (· ≤ ·) ∧
        (send (.list ⟨2⟩) "sort" [] none .origin).Gives s (.ok (.list ⟨3⟩))
          (s.newList sorted.toArray).2 := by
  intro s
  have hreached : s.Reached := .host (.initial .standard) rfl
  have hs : s.types.OrdersInstalled := ⟨hreached.findsInstalled (by decide +kernel) _,
    hreached.findsInstalled (by decide +kernel) _⟩
  have hone : ((list int).content [(1 : Int64)]).In s.lists (.list ⟨0⟩) :=
    ⟨⟨0⟩, _, rfl, rfl, rfl, trivial⟩
  have htwo : ((list int).content [(1 : Int64), (2 : Int64)]).In s.lists (.list ⟨1⟩) :=
    ⟨⟨1⟩, _, rfl, rfl, rfl, rfl, trivial⟩
  have hboth : ((list (list int)).content [[(1 : Int64), (2 : Int64)], [(1 : Int64)]]).In s.lists
      (.list ⟨2⟩) := ⟨⟨2⟩, _, rfl, rfl, htwo, hone, trivial⟩
  obtain ⟨-, hirrefl, -, -, hbegins, hsort⟩ :=
    less_lexicographic hs (by decide) hone htwo htwo .origin
  obtain ⟨sorted, ordered, hperm, hascending, hgives, -⟩ := hsort _ _ hboth
    (hreached.findsInstalled (by decide +kernel) _) (by decide)
  have hbegun := hbegins ⟨[(2 : Int64)], rfl⟩ (by decide)
  exact ⟨hbegun, hirrefl, sorted, ordered, hperm, hascending, hgives⟩

end OrderedType

end Quill
