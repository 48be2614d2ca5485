import Mathlib.Data.List.Perm.Basic
import Quill.Proofs.Answering
import Quill.Proofs.Comparing
import Quill.Proofs.Consulting
import Quill.Proofs.Steady

/-!
# Lists without their order

Whether two lists have the same elements, each as often, and whether one has all the elements of the
other. Main statement: `ListRoutine.same_elements_as_multisets`.
-/

namespace Quill

open Eval
open scoped List

namespace Routine

def sameElements : Entry := fixed .list .list "same_elements?" [.list] (.list .sameElements)

def isSubset : Entry := fixed .list .list "subset?" [.list] (.list .isSubset)

end Routine

namespace ListRoutine

theorem swapRemove_append (front : List Value) (last : Value) (i : Nat) :
    (swapRemove (front ++ [last]).toArray i).toList = front.set i last := by
  obtain hi | hi := Nat.lt_or_ge i front.length
  · simp [swapRemove, List.set_append_left _ _ hi]
  · have hone : ([last].set (i - front.length) last).dropLast = [] := by
      cases i - front.length <;> rfl
    simp [swapRemove, List.set_append_right _ _ hi, List.set_eq_of_length_le hi, hone]

theorem swapRemove_perm (items : Array Value) {i : Nat} (hi : i < items.toList.length) :
    (items.toList[i] :: (swapRemove items i).toList).Perm items.toList := by
  obtain ⟨l⟩ := items
  obtain rfl | ⟨front, last, rfl⟩ := List.eq_nil_or_concat' l
  · cases hi
  · rw [swapRemove_append]
    dsimp only at hi ⊢
    have hback : (last :: front).Perm (front ++ [last]) := (List.perm_append_singleton _ _).symm
    obtain hfront | hlast := Nat.lt_or_ge i front.length
    · rw [List.getElem_append_left hfront]
      have hset := List.set_perm_cons_eraseIdx hfront last
      have hitems := List.getElem_cons_eraseIdx_perm hfront
      calc front[i] :: front.set i last
          _ ~ front[i] :: last :: front.eraseIdx i := hset.cons _
          _ ~ last :: front[i] :: front.eraseIdx i := .swap _ _ _
          _ ~ last :: front := hitems.cons last
          _ ~ front ++ [last] := hback
    · rw [List.set_eq_of_length_le hlast, List.getElem_append_right hlast]
      simpa using hback

theorem swapRemove_subset (items : Array Value) (i : Nat) :
    (swapRemove items i).toList ⊆ items.toList := by
  obtain ⟨l⟩ := items
  obtain rfl | ⟨front, last, rfl⟩ := List.eq_nil_or_concat' l
  · exact List.Subset.refl _
  · rw [swapRemove_append]
    intro v hv
    obtain hv | rfl := List.mem_or_eq_of_mem_set hv
    · exact List.mem_append_left _ hv
    · exact List.mem_append_right _ (List.mem_singleton_self v)

section

variable {I : State → Prop} {vs : List Value} {r : Value → Value → Bool} {key : Value → Nat}

theorem containsItem_settles (h : Steady I valuesEqual vs r) {needle : Value}
    (hneedle : needle ∈ vs) {items : List Value} (hitems : items ⊆ vs) :
    (containsItem needle items).Settles I (items.any (r · needle)) := by
  induction items with
  | nil => exact .pure false
  | cons item rest ih =>
    obtain ⟨hitem, hrest⟩ := List.cons_subset.mp hitems
    refine .bind (h.settles item hitem needle hneedle) ?_
    rw [List.any_cons]
    cases r item needle with
    | true => exact .pure true
    | false => exact ih hrest

theorem subsetOf_settles (h : Steady I valuesEqual vs r) {other items : List Value}
    (hother : other ⊆ vs) (hitems : items ⊆ vs) :
    (subsetOf other items).Settles I (items.all fun x ↦ other.any (r · x)) := by
  induction items with
  | nil => exact .pure true
  | cons item rest ih =>
    obtain ⟨hitem, hrest⟩ := List.cons_subset.mp hitems
    refine .bind (containsItem_settles h hitem hother) ?_
    rw [List.all_cons]
    cases other.any (r · item) with
    | true => exact ih hrest
    | false => exact .pure false

theorem matchFor_settles (h : Steady I valuesEqual vs r) {item : Value} (hitem : item ∈ vs)
    (index : Nat) {candidates : List Value} (hcandidates : candidates ⊆ vs) :
    (matchFor item index candidates).Settles I
      ((candidates.findIdx? (r item)).map (index + ·)) := by
  induction candidates generalizing index with
  | nil => exact .pure none
  | cons candidate rest ih =>
    obtain ⟨hcandidate, hrest⟩ := List.cons_subset.mp hcandidates
    refine .bind (h.settles item hitem candidate hcandidate) ?_
    rw [List.findIdx?_cons]
    cases r item candidate with
    | true => exact .pure (some index)
    | false =>
      have hnext := ih (index + 1) hrest
      rw [if_neg Bool.false_ne_true, if_neg Bool.false_ne_true, Option.map_map]
      convert hnext using 3
      simp only [Function.comp_apply]
      omega

/-- Any candidate that is equal to an item is as good as any other. So the items have equal ones of
their own just if they are the candidates in another order, as far as equality goes. -/
theorem pairUp_settles (h : Steady I valuesEqual vs fun a b ↦ decide (key a = key b))
    {items : List Value} {candidates : Array Value} (hitems : items ⊆ vs)
    (hcandidates : candidates.toList ⊆ vs) (hsize : items.length = candidates.toList.length) :
    (pairUp candidates items).Settles I
      (decide (items.map key ~ candidates.toList.map key)) := by
  induction items generalizing candidates with
  | nil =>
    rw [List.eq_nil_of_length_eq_zero hsize.symm]
    exact .pure true
  | cons item rest ih =>
    obtain ⟨hitem, hrest⟩ := List.cons_subset.mp hitems
    refine .bind (h.holding _ (matchFor_settles h hitem 0 hcandidates)) ?_
    cases hfound : candidates.toList.findIdx? (fun b ↦ decide (key item = key b)) with
    | none =>
      have hnone : ¬(item :: rest).map key ~ candidates.toList.map key := by
        intro hperm
        obtain ⟨b, hb, hkey⟩ := List.mem_map.mp (hperm.subset List.mem_cons_self)
        have hdiffers := List.findIdx?_eq_none_iff.mp hfound b hb
        simp [hkey] at hdiffers
      rw [decide_eq_false hnone]
      exact .pure false
    | some i =>
      obtain ⟨hi, hkey, -⟩ := List.findIdx?_eq_some_iff_getElem.mp hfound
      have hkey : key item = key candidates.toList[i] := of_decide_eq_true hkey
      have htaken := (swapRemove_perm candidates hi).map key
      have hleft := (swapRemove_perm candidates hi).length_eq
      have hrec : (pairUp (swapRemove candidates i) rest).Settles I
          (decide (rest.map key ~ (swapRemove candidates i).toList.map key)) := ih hrest
        (List.Subset.trans (swapRemove_subset candidates i) hcandidates)
        (by simp only [List.length_cons] at hsize hleft; omega)
      rw [List.map_cons, ← hkey] at htaken
      -- The item and the candidate that is taken out have the same key, so both can be left out.
      have hsame : (item :: rest).map key ~ candidates.toList.map key ↔
          rest.map key ~ (swapRemove candidates i).toList.map key := by
        rw [List.map_cons]
        exact ⟨fun hp ↦ (hp.trans htaken.symm).cons_inv, fun hp ↦ (hp.cons _).trans htaken⟩
      rw [decide_eq_decide.mpr hsame]
      simpa using hrec

end

end ListRoutine

section

variable {α : Type} {eq : α → α → Bool} {l xs ys : List α} {a b : α} {key : α → Nat}

/-- A relation that is reflexive, symmetric and transitive on the elements. -/
structure Equates (eq : α → α → Bool) (l : List α) : Prop where
  refl : ∀ a ∈ l, eq a a = true
  symm : ∀ a ∈ l, ∀ b ∈ l, eq a b = true → eq b a = true
  trans : ∀ a ∈ l, ∀ b ∈ l, ∀ c ∈ l, eq a b = true → eq b c = true → eq a c = true

/-- The position of the first element that `a` is equal to. -/
def firstLike (eq : α → α → Bool) (l : List α) (a : α) : Nat := l.findIdx (eq a)

namespace Equates

theorem congr (h : Equates eq l) (ha : a ∈ l) (hb : b ∈ l) (hab : eq a b = true) :
    ∀ c ∈ l, eq a c = eq b c := fun c hc ↦
  Bool.eq_iff_iff.mpr ⟨h.trans b hb a ha c hc (h.symm a ha b hb hab), h.trans a ha b hb c hc hab⟩

theorem eq_firstLike (h : Equates eq l) (ha : a ∈ l) (hb : b ∈ l) :
    eq a b = decide (firstLike eq l a = firstLike eq l b) := by
  have hbound : l.findIdx (eq b) < l.length :=
    List.findIdx_lt_length_of_exists ⟨b, hb, h.refl b hb⟩
  have hfirst : eq b l[l.findIdx (eq b)] = true := List.findIdx_getElem
  refine Bool.eq_iff_iff.mpr ⟨fun hab ↦ decide_eq_true ?_, fun hsame ↦ ?_⟩
  · refine (List.findIdx_eq hbound).mpr ⟨?_, fun j hj ↦ ?_⟩
    · rw [h.congr ha hb hab _ (List.getElem_mem hbound)]
      exact hfirst
    · rw [h.congr ha hb hab _ (List.getElem_mem _)]
      exact List.not_of_lt_findIdx hj
  · have hsame : l.findIdx (eq a) = l.findIdx (eq b) := of_decide_eq_true hsame
    have hmem := List.getElem_mem hbound
    exact h.trans a ha _ hmem b hb ((List.findIdx_eq hbound).mp hsame).1 (h.symm b hb _ hmem hfirst)

end Equates

/-- `ys` are `xs` in another order, as far as equality goes. -/
def PermUpTo (eq : α → α → Bool) (xs ys : List α) : Prop :=
  ∃ zs, zs ~ ys ∧ List.Forall₂ (fun a b ↦ eq a b = true) xs zs

theorem forall₂_iff_keys {zs : List α}
    (hkey : ∀ a ∈ xs, ∀ b ∈ zs, eq a b = decide (key a = key b)) :
    List.Forall₂ (fun a b ↦ eq a b = true) xs zs ↔ xs.map key = zs.map key := by
  induction xs generalizing zs with
  | nil => cases zs <;> simp
  | cons a xs ih =>
    cases zs with
    | nil => simp
    | cons b zs =>
      have hfirst := hkey a List.mem_cons_self b List.mem_cons_self
      have hrest := ih fun a' ha' b' hb' ↦
        hkey a' (List.mem_cons_of_mem a ha') b' (List.mem_cons_of_mem b hb')
      rw [List.forall₂_cons, hrest, hfirst, decide_eq_true_iff, List.map_cons, List.map_cons,
        List.cons_eq_cons]

theorem permUpTo_iff (hkey : ∀ a ∈ xs, ∀ b ∈ ys, eq a b = decide (key a = key b)) :
    PermUpTo eq xs ys ↔ xs.map key ~ ys.map key := by
  have hpairs {zs : List α} (hperm : zs ~ ys) :
      List.Forall₂ (fun a b ↦ eq a b = true) xs zs ↔ xs.map key = zs.map key :=
    forall₂_iff_keys fun a ha b hb ↦ hkey a ha b (hperm.subset hb)
  constructor
  · rintro ⟨zs, hperm, hall⟩
    rw [(hpairs hperm).mp hall]
    exact hperm.map key
  · intro hperm
    have hcomp : Relation.Comp (List.Forall₂ fun b k ↦ key b = k) List.Perm ys (xs.map key) :=
      ⟨ys.map key, List.forall₂_map_right_iff.mpr (List.forall₂_same.mpr fun _ _ ↦ rfl), hperm.symm⟩
    rw [List.forall₂_comp_perm_eq_perm_comp_forall₂] at hcomp
    obtain ⟨zs, hzs, hkeys⟩ := hcomp
    refine ⟨zs, hzs.symm, (hpairs hzs.symm).mpr ?_⟩
    exact (List.forall₂_eq_eq_eq ▸ List.forall₂_map_left_iff.mpr hkeys : zs.map key = _).symm

theorem perm_keys_iff_countKeys :
    xs.map key ~ ys.map key ↔
      ∀ v ∈ xs ++ ys, xs.countP (key v = key ·) = ys.countP (key v = key ·) := by
  have hcount (k : Nat) (zs : List α) : (zs.map key).count k = zs.countP (k = key ·) := by
    rw [List.count_eq_countP, List.countP_map]
    exact List.countP_congr fun x _ ↦ by simp [eq_comm (a := k)]
  rw [List.perm_iff_count]
  refine ⟨fun h v _ ↦ by rw [← hcount, h, hcount], fun h k ↦ ?_⟩
  rw [hcount, hcount]
  by_cases hk : ∃ v ∈ xs ++ ys, key v = k
  · obtain ⟨v, hv, rfl⟩ := hk
    exact h v hv
  · have hnone (zs : List α) (hzs : zs ⊆ xs ++ ys) : zs.countP (k = key ·) = 0 :=
      List.countP_eq_zero.mpr fun v hv hkey ↦
        hk ⟨v, hzs hv, (of_decide_eq_true hkey).symm⟩
    rw [hnone xs (List.subset_append_left xs ys), hnone ys (List.subset_append_right xs ys)]

theorem perm_keys_iff_countP
    (hkey : ∀ a ∈ xs ++ ys, ∀ b ∈ xs ++ ys, eq a b = decide (key a = key b)) :
    xs.map key ~ ys.map key ↔ ∀ v ∈ xs ++ ys, xs.countP (eq v) = ys.countP (eq v) := by
  have hcount {zs : List α} (hzs : zs ⊆ xs ++ ys) {v : α} (hv : v ∈ xs ++ ys) :
      zs.countP (eq v) = zs.countP (key v = key ·) :=
    List.countP_congr fun b hb ↦ by rw [hkey v hv b (hzs hb)]
  rw [perm_keys_iff_countKeys]
  refine forall₂_congr fun v hv ↦ ?_
  rw [hcount (List.subset_append_left xs ys) hv, hcount (List.subset_append_right xs ys) hv]

/-- `xs'` and `ys'` are `xs` and `ys`, or `ys` and `xs`, with the elements in any order. -/
def SameTwo (xs' ys' xs ys : List α) : Prop := xs' ~ xs ∧ ys' ~ ys ∨ xs' ~ ys ∧ ys' ~ xs

namespace SameTwo

variable {xs' ys' : List α}

theorem subset (h : SameTwo xs' ys' xs ys) : xs' ⊆ xs ++ ys ∧ ys' ⊆ xs ++ ys := by
  have hxs : xs ⊆ xs ++ ys := List.subset_append_left xs ys
  have hys : ys ⊆ xs ++ ys := List.subset_append_right xs ys
  obtain ⟨hl, hm⟩ | ⟨hl, hm⟩ := h
  · exact ⟨List.Subset.trans hl.subset hxs, List.Subset.trans hm.subset hys⟩
  · exact ⟨List.Subset.trans hl.subset hys, List.Subset.trans hm.subset hxs⟩

theorem perm_keys_iff (h : SameTwo xs' ys' xs ys) :
    xs'.map key ~ ys'.map key ↔ xs.map key ~ ys.map key := by
  obtain ⟨hl, hm⟩ | ⟨hl, hm⟩ := h
  · exact ((hl.map key).congr_left _).trans ((hm.map key).congr_right _)
  · exact ((hl.map key).congr_left _).trans (((hm.map key).congr_right _).trans List.perm_comm)

end SameTwo

end

namespace ListRoutine

/-- The task asks one of the values whether it is equal to another one. -/
def AsksEqual (vs : List Value) (t : Task) : Prop :=
  ∃ a ∈ vs, ∃ b ∈ vs, t = .send "==" ⟨a, [b], none, .origin⟩

section

variable {vs items other : List Value}

theorem valuesEqual_consults {a b : Value} (ha : a ∈ vs) (hb : b ∈ vs) :
    Consults (AsksEqual vs) (fun _ ↦ True) 1 (valuesEqual a b) :=
  .valuesEqual a b ⟨a, ha, b, hb, rfl⟩

theorem containsItem_consults {needle : Value} (hneedle : needle ∈ vs) (hitems : items ⊆ vs) :
    Consults (AsksEqual vs) (fun _ ↦ True) items.length (containsItem needle items) := by
  induction items with
  | nil => exact .pure trivial
  | cons item rest ih =>
    obtain ⟨hitem, hrest⟩ := List.cons_subset.mp hitems
    rw [List.length_cons, Nat.add_comm]
    refine .bind (valuesEqual_consults hitem hneedle) fun found _ ↦ ?_
    split
    · exact .pure trivial
    · exact ih hrest

theorem subsetOf_consults (hother : other ⊆ vs) (hitems : items ⊆ vs) :
    Consults (AsksEqual vs) (fun _ ↦ True) (items.length * other.length)
      (subsetOf other items) := by
  induction items with
  | nil => exact .pure trivial
  | cons item rest ih =>
    obtain ⟨hitem, hrest⟩ := List.cons_subset.mp hitems
    rw [List.length_cons, Nat.succ_mul, Nat.add_comm]
    refine .bind (containsItem_consults hitem hother) fun found _ ↦ ?_
    split
    · exact ih hrest
    · exact .pure trivial

theorem matchFor_consults {item : Value} (hitem : item ∈ vs) (index : Nat) (hother : other ⊆ vs) :
    Consults (AsksEqual vs) (fun _ ↦ True) other.length (matchFor item index other) := by
  induction other generalizing index with
  | nil => exact .pure trivial
  | cons candidate rest ih =>
    obtain ⟨hcandidate, hrest⟩ := List.cons_subset.mp hother
    rw [List.length_cons, Nat.add_comm]
    refine .bind (valuesEqual_consults hitem hcandidate) fun found _ ↦ ?_
    split
    · exact .pure trivial
    · exact ih (index + 1) hrest

theorem pairUp_consults {candidates : Array Value} (hitems : items ⊆ vs)
    (hcandidates : candidates.toList ⊆ vs) {n : Nat} (hn : candidates.toList.length ≤ n) :
    Consults (AsksEqual vs) (fun _ ↦ True) (items.length * n) (pairUp candidates items) := by
  induction items generalizing candidates with
  | nil => exact .pure trivial
  | cons item rest ih =>
    obtain ⟨hitem, hrest⟩ := List.cons_subset.mp hitems
    rw [List.length_cons, Nat.succ_mul, Nat.add_comm]
    refine .bind (.holding _ ((matchFor_consults hitem 0 hcandidates).mono (fun _ h ↦ h) hn))
      fun found _ ↦ ?_
    cases found with
    | none => exact .pure trivial
    | some i =>
      have hsize : (swapRemove candidates i).toList.length = candidates.toList.length - 1 := by
        simp [swapRemove]
      exact ih hrest (List.Subset.trans (swapRemove_subset candidates i) hcandidates) (by omega)

end

section

variable {r : ListRoutine} {c : Call} {x : Eval Bool} {s s' : State} {held : List Value}

theorem sameElements_run (s : State) (l m : ListId) (span : Span) :
    sameElements.run ⟨.list l, [.list m], none, span⟩ s = holding [.list l, .list m]
      ((if (s.items l).toList.length = (s.items m).toList.length then
        holding (s.items l).toList (pairUp (s.items m).toList.toArray (s.items l).toList)
      else pure false) >>= fun b ↦ pure (.bool b)) s := by
  rw [run_list (by decide) rfl (fun _ ↦ rfl) rfl]
  have hrun : sameElements.runOn l ⟨.list l, [.list m], none, span⟩ = itemsOf l m >>= fun p ↦
      (if p.1.length = p.2.length then holding p.1 (pairUp p.2.toArray p.1) else pure false) >>=
        fun b ↦ pure (.bool b) := by
    unfold runOn
    refine congrArg (itemsOf l m >>= ·) (funext fun p ↦ ?_)
    dsimp only
    split <;> rfl
  rw [hrun]
  rfl

theorem isSubset_run (s : State) (l m : ListId) (span : Span) :
    isSubset.run ⟨.list l, [.list m], none, span⟩ s = holding [.list l, .list m]
      (holding (s.items l).toList (holding (s.items m).toList
        (subsetOf (s.items m).toList (s.items l).toList)) >>= fun b ↦ pure (.bool b)) s := by
  rw [run_list (by decide) rfl (fun _ ↦ rfl) rfl]
  rfl

theorem gives_of_settles {I : State → Prop} (hI : ∀ s held, I s → I { s with held })
    (hrun : r.run c s = holding held (x >>= fun b ↦ pure (.bool b)) s) {b : Bool}
    (hx : x.Settles I b) (hs : I s) : ∃ s₁, I s₁ ∧ (r.run c).Gives s (.ok (.bool b)) s₁ := by
  obtain ⟨s₁, hgives, hs₁⟩ := hx _ (hI s _ hs)
  refine ⟨{ s₁ with held := s.held }, hI s₁ _ hs₁, ?_⟩
  unfold Gives
  rw [hrun]
  exact (hgives.bind (.pure (Value.bool b) s₁)).keeping

theorem course_of_consults {A : Task → Prop} {n : Nat} {es : List Episode} {o : Outcome Value}
    (hrun : r.run c s = holding held (x >>= fun b ↦ pure (.bool b)) s)
    (hx : Consults A (fun _ ↦ True) n x) (h : (r.run c s).Course es o s') :
    es.length ≤ n ∧ (∀ e ∈ es, A e.task) ∧ LetsPass es o ∧ Along State.AsBefore s es s' := by
  rw [hrun] at h
  have hall : Consults A (fun _ : Value ↦ True) n
      (holding held (x >>= fun b ↦ pure (.bool b))) :=
    .holding held (.bind (k := 0) hx fun _ _ ↦ .pure trivial)
  obtain ⟨hlength, htasks, hpass, halong, -⟩ := (hall s).course h
  exact ⟨hlength, htasks, hpass, halong⟩

end

section

variable {I : State → Prop} {vs : List Value} {eq : Value → Value → Bool} {s : State} {l m : ListId}

theorem sameElements_settles {key : Value → Nat}
    (h : Steady I valuesEqual vs fun a b ↦ decide (key a = key b)) (hs : I s)
    (hl : (s.items l).toList ⊆ vs) (hm : (s.items m).toList ⊆ vs) (span : Span) :
    ∃ s₁, I s₁ ∧ (sameElements.run ⟨.list l, [.list m], none, span⟩).Gives s
      (.ok (.bool (decide ((s.items l).toList.map key ~ (s.items m).toList.map key)))) s₁ := by
  refine gives_of_settles h.held (sameElements_run s l m span) ?_ hs
  split
  · rename_i hlength
    exact h.holding _ (pairUp_settles h hl hm hlength)
  · rename_i hlength
    rw [decide_eq_false fun hperm ↦ hlength (by simpa using hperm.length_eq)]
    exact .pure false

theorem isSubset_settles (h : Steady I valuesEqual vs eq) (hs : I s)
    (hl : (s.items l).toList ⊆ vs) (hm : (s.items m).toList ⊆ vs) (span : Span) :
    ∃ s₁, I s₁ ∧ (isSubset.run ⟨.list l, [.list m], none, span⟩).Gives s
      (.ok (.bool ((s.items l).toList.all fun x ↦ (s.items m).toList.any (eq · x)))) s₁ :=
  gives_of_settles h.held (isSubset_run s l m span)
    (h.holding _ (h.holding _ (subsetOf_settles h hm hl))) hs

theorem course_of_two_lists {r : ListRoutine} (hr : r = sameElements ∨ r = isSubset)
    {es : List Episode} {o : Outcome Value} {s' : State} {span : Span}
    (h : (r.run ⟨.list l, [.list m], none, span⟩ s).Course es o s') :
    es.length ≤ (s.items l).toList.length * (s.items m).toList.length ∧
      (∀ e ∈ es, AsksEqual ((s.items l).toList ++ (s.items m).toList) e.task) ∧ LetsPass es o ∧
      Along State.AsBefore s es s' := by
  have hl := List.subset_append_left (s.items l).toList (s.items m).toList
  have hm := List.subset_append_right (s.items l).toList (s.items m).toList
  obtain rfl | rfl := hr
  · refine course_of_consults (sameElements_run s l m span) ?_ h
    split
    · exact .holding _ (pairUp_consults hl hm (Nat.le_refl _))
    · exact .pure trivial
  · exact course_of_consults (isSubset_run s l m span)
      (.holding _ (.holding _ (subsetOf_consults hm hl))) h

end

/-- If elements are compared without an effect that matters, and in an equivalence relation, two
lists have the same elements just if one is the other in another order, as far as equality goes;
that is, if every element has the same number of equal ones in both. So it does not matter which
list is asked, nor in which order the elements are. One list is a subset of another just if all its
elements are equal to some in the other.

Whatever `==` does, between the comparisons nothing changes. The messages do what the methods do. -/
theorem same_elements_as_multisets {I : State → Prop} {s : State} {l m : ListId}
    {eq : Value → Value → Bool} (hs : I s)
    (hsteady : Steady I valuesEqual ((s.items l).toList ++ (s.items m).toList) eq)
    (heq : Equates eq ((s.items l).toList ++ (s.items m).toList)) (span : Span) :
    let xs := (s.items l).toList
    let ys := (s.items m).toList
    let c : Call := ⟨.list l, [.list m], none, span⟩
    (∃ b, (b = true ↔ PermUpTo eq xs ys) ∧
      (b = true ↔ ∀ v ∈ xs ++ ys, xs.countP (eq v) = ys.countP (eq v)) ∧
      ∀ s' l' m', I s' → ((s'.items l').toList ~ xs ∧ (s'.items m').toList ~ ys ∨
          (s'.items l').toList ~ ys ∧ (s'.items m').toList ~ xs) →
        ∃ s₁, I s₁ ∧ (sameElements.run ⟨.list l', [.list m'], none, span⟩).Gives s'
          (.ok (.bool b)) s₁) ∧
    (∃ b s₁, I s₁ ∧ (isSubset.run c).Gives s (.ok (.bool b)) s₁ ∧
      (b = true ↔ ∀ x ∈ xs, ∃ y ∈ ys, eq x y = true)) ∧
    (∀ r, r = sameElements ∨ r = isSubset → ∀ es o s', (r.run c s).Course es o s' →
      es.length ≤ xs.length * ys.length ∧ (∀ e ∈ es, AsksEqual (xs ++ ys) e.task) ∧
        LetsPass es o ∧ Along State.AsBefore s es s') ∧
    (s.frames.size < s.config.maxCallDepth →
      (s.types.FindsInstalled "same_elements?" [.list] →
        (Task.send "same_elements?" c).CallsFor (sameElements.run c) s) ∧
      (s.types.FindsInstalled "subset?" [.list] →
        (Task.send "subset?" c).CallsFor (isSubset.run c) s)) := by
  intro xs ys c
  have hxs : xs ⊆ xs ++ ys := List.subset_append_left xs ys
  have hys : ys ⊆ xs ++ ys := List.subset_append_right xs ys
  let key := firstLike eq (xs ++ ys)
  have hkey : ∀ a ∈ xs ++ ys, ∀ b ∈ xs ++ ys, eq a b = decide (key a = key b) :=
    fun a ha b hb ↦ heq.eq_firstLike ha hb
  have hkeyed := hsteady.congr hkey
  refine ⟨⟨decide (xs.map key ~ ys.map key), ?_, ?_, fun s' l' m' hs' hitems ↦ ?_⟩, ?_,
    fun r hr es o s' ↦ course_of_two_lists hr, fun hroom ↦ ⟨fun hsame ↦ ?_, fun hsubset ↦ ?_⟩⟩
  · rw [decide_eq_true_iff, permUpTo_iff fun a ha b hb ↦ hkey a (hxs ha) b (hys hb)]
  · rw [decide_eq_true_iff, perm_keys_iff_countP hkey]
  · have hsame : SameTwo (s'.items l').toList (s'.items m').toList xs ys := hitems
    have hgives := sameElements_settles hkeyed hs' hsame.subset.1 hsame.subset.2 span
    rwa [decide_eq_decide.mpr hsame.perm_keys_iff] at hgives
  · obtain ⟨s₁, hs₁, hgives⟩ := isSubset_settles hsteady hs hxs hys span
    refine ⟨_, s₁, hs₁, hgives, ?_⟩
    simp only [List.all_eq_true, List.any_eq_true]
    refine forall₂_congr fun x hx ↦ exists_congr fun y ↦ and_congr_right fun hy ↦ ?_
    exact ⟨heq.symm y (hys hy) x (hxs hx), heq.symm x (hxs hx) y (hys hy)⟩
  · exact Task.CallsFor.offered (e := Routine.sameElements) (c := c)
      (hsame.offers (List.mem_singleton_self _) (by decide +kernel)) rfl rfl rfl hroom
  · exact Task.CallsFor.offered (e := Routine.isSubset) (c := c)
      (hsubset.offers (List.mem_singleton_self _) (by decide +kernel)) rfl rfl rfl hroom

/-- What is there twice must be there twice, but to be a subset once is enough. -/
theorem same_elements_of_integers :
    let s : State := { State.initial .standard with
      lists := #[#[.int 1, .int 1, .int 2], #[.int 2, .int 1, .int 1], #[.int 2, .int 2, .int 1]] }
    (∃ s', (Task.send "same_elements?" ⟨.list ⟨0⟩, [.list ⟨1⟩], none, .origin⟩).Gives s
        (.ok (.bool true)) s' ∧ s'.lists = s.lists) ∧
      (∃ s', (Task.send "same_elements?" ⟨.list ⟨0⟩, [.list ⟨2⟩], none, .origin⟩).Gives s
        (.ok (.bool false)) s' ∧ s'.lists = s.lists) ∧
      ∃ s', (Task.send "subset?" ⟨.list ⟨0⟩, [.list ⟨2⟩], none, .origin⟩).Gives s
        (.ok (.bool true)) s' ∧ s'.lists = s.lists := by
  intro s
  let I (s' : State) : Prop := s'.lists = s.lists
  have hsteady {vs : List Value} (hvs : ∀ v ∈ vs, ∃ n, v = .int n) :
      Steady I valuesEqual vs Value.plainlyEqual := by
    refine ⟨fun _ _ h ↦ h, fun a ha b hb ↦ ?_⟩
    obtain ⟨n, rfl⟩ := hvs a ha
    obtain ⟨k, rfl⟩ := hvs b hb
    exact .pure _
  have hequates {vs : List Value} (hvs : ∀ v ∈ vs, ∃ n, v = .int n) :
      Equates Value.plainlyEqual vs := by
    have hequal (n k : Int64) : (Value.int n).plainlyEqual (.int k) = true ↔ n = k := beq_iff_eq
    refine ⟨fun a ha ↦ ?_, fun a ha b hb ↦ ?_, fun a ha b hb c hc ↦ ?_⟩
    · obtain ⟨n, rfl⟩ := hvs a ha
      exact (hequal n n).mpr rfl
    · obtain ⟨n, rfl⟩ := hvs a ha
      obtain ⟨k, rfl⟩ := hvs b hb
      rw [hequal, hequal]
      exact Eq.symm
    · obtain ⟨n, rfl⟩ := hvs a ha
      obtain ⟨k, rfl⟩ := hvs b hb
      obtain ⟨j, rfl⟩ := hvs c hc
      rw [hequal, hequal, hequal]
      exact Eq.trans
  have hone : ∀ v ∈ (s.items ⟨0⟩).toList ++ (s.items ⟨1⟩).toList, ∃ n, v = .int n := by
    simp [s, State.items]
  have htwo : ∀ v ∈ (s.items ⟨0⟩).toList ++ (s.items ⟨2⟩).toList, ∃ n, v = .int n := by
    simp [s, State.items]
  obtain ⟨⟨b, -, hb, hanswer⟩, -, -, hsends⟩ :=
    same_elements_as_multisets (I := I) rfl (hsteady hone) (hequates hone) .origin
  obtain ⟨⟨b', -, hb', hanswer'⟩, -, -, hsends'⟩ :=
    same_elements_as_multisets (I := I) rfl (hsteady htwo) (hequates htwo) .origin
  obtain rfl : b = true := hb.mpr (by decide +kernel)
  obtain rfl : b' = false := Bool.eq_false_iff.mpr fun h ↦ absurd (hb'.mp h) (by decide +kernel)
  refine ⟨?_, ?_, ?_⟩
  · obtain ⟨held, frame, hsend⟩ := (hsends (by decide)).1 fun _ _ ↦ rfl
    obtain ⟨s₁, hs₁, hgives⟩ := hanswer { s with held, frames := s.frames.push frame } ⟨0⟩ ⟨1⟩ rfl
      (.inl ⟨.refl _, .refl _⟩)
    exact ⟨_, hsend _ _ hgives, hs₁⟩
  · obtain ⟨held, frame, hsend⟩ := (hsends' (by decide)).1 fun _ _ ↦ rfl
    obtain ⟨s₁, hs₁, hgives⟩ := hanswer' { s with held, frames := s.frames.push frame } ⟨0⟩ ⟨2⟩ rfl
      (.inl ⟨.refl _, .refl _⟩)
    exact ⟨_, hsend _ _ hgives, hs₁⟩
  · obtain ⟨held, frame, hsend⟩ := (hsends' (by decide)).2 fun _ _ ↦ rfl
    obtain ⟨-, ⟨answer, s₁, hs₁, hgives, hb₁⟩, -, -⟩ := same_elements_as_multisets (I := I)
      (s := { s with held, frames := s.frames.push frame }) rfl (hsteady htwo) (hequates htwo)
      .origin
    have hsubset : ∀ x ∈ (s.items ⟨0⟩).toList, ∃ y ∈ (s.items ⟨2⟩).toList,
        x.plainlyEqual y = true := by decide +kernel
    obtain rfl : answer = true := hb₁.mpr hsubset
    exact ⟨_, hsend _ _ hgives, hs₁⟩

end ListRoutine

end Quill
