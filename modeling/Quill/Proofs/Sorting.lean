import Mathlib.Data.Nat.Log
import Mathlib.Data.List.Basic
import Mathlib.Tactic.Ring
import Quill.Proofs.Consulting
import Quill.Proofs.Answering
import Quill.Proofs.Steady

/-!
# Sorting

Sorting by merging does nothing but compare. If the comparison is an order that does not depend on
when it is asked for, the result is the list in that order, and elements that are alike stay as they
were. If it is anything else, no element is lost all the same. Main statement:
`ListRoutine.sort_stable_safe`.
-/

namespace Quill

open Eval

section

variable {α : Type}

/-- A strict order on the elements in which those that are not ordered either way are alike. -/
structure WeaklyOrders (lt : α → α → Bool) (l : List α) : Prop where
  irrefl : ∀ a ∈ l, lt a a = false
  trans : ∀ a ∈ l, ∀ b ∈ l, ∀ c ∈ l, lt a b = true → lt b c = true → lt a c = true
  alike_trans : ∀ a ∈ l, ∀ b ∈ l, ∀ c ∈ l, (lt a b = false ∧ lt b a = false) →
    (lt b c = false ∧ lt c b = false) → (lt a c = false ∧ lt c a = false)

/-- How many of the elements come before `a`. -/
def rankIn (lt : α → α → Bool) (l : List α) (a : α) : Nat := l.countP (lt · a)

namespace WeaklyOrders

variable {lt : α → α → Bool} {l : List α} {a b c : α}

theorem lt_of_lt_of_not (h : WeaklyOrders lt l) (ha : a ∈ l) (hb : b ∈ l) (hc : c ∈ l)
    (hab : lt a b = true) (hcb : lt c b = false) : lt a c = true := by
  by_contra hac
  rw [Bool.not_eq_true] at hac
  cases hbc : lt b c with
  | true => rw [h.trans a ha b hb c hc hab hbc] at hac; cases hac
  | false =>
    cases hca : lt c a with
    | true => rw [h.trans c hc a ha b hb hca hab] at hcb; cases hcb
    | false =>
      have halike := (h.alike_trans a ha c hc b hb ⟨hac, hca⟩ ⟨hcb, hbc⟩).1
      rw [hab] at halike
      cases halike

theorem of_lt {β : Type} [LinearOrder β] (f : α → β) (l : List α) :
    WeaklyOrders (fun a b ↦ decide (f a < f b)) l := by
  refine ⟨fun a _ ↦ ?_, fun a _ b _ c _ hab hbc ↦ ?_, fun a _ b _ c _ hab hbc ↦ ?_⟩
  · exact decide_eq_false (lt_irrefl (f a))
  · exact decide_eq_true ((of_decide_eq_true hab).trans (of_decide_eq_true hbc))
  · simp only [decide_eq_false_iff_not, not_lt] at hab hbc ⊢
    exact ⟨hbc.1.trans hab.1, hab.2.trans hbc.2⟩

theorem lt_iff_rankIn (h : WeaklyOrders lt l) (ha : a ∈ l) (hb : b ∈ l) :
    lt a b = decide (rankIn lt l a < rankIn lt l b) := by
  cases hab : lt a b with
  | false =>
    have hle : rankIn lt l b ≤ rankIn lt l a :=
      List.countP_mono_left fun x hx hxb ↦ h.lt_of_lt_of_not hx hb ha hxb hab
    exact (decide_eq_false (Nat.not_lt.mpr hle)).symm
  | true =>
    -- `a` itself comes before `b`, but not before `a`.
    have hbelow : (l.filter (lt · a)).countP (lt · b) = rankIn lt l a := by
      rw [rankIn, List.countP_filter]
      refine List.countP_congr fun x hx ↦ ?_
      simp only [Bool.and_eq_true]
      exact ⟨fun hx' ↦ hx'.2, fun hxa ↦ ⟨h.trans x hx a ha b hb hxa hab, hxa⟩⟩
    have hitself : 0 < (l.filter fun x ↦ !lt x a).countP (lt · b) := by
      refine List.countP_pos_iff.mpr ⟨a, List.mem_filter.mpr ⟨ha, ?_⟩, hab⟩
      rw [h.irrefl a ha]
      rfl
    have hsplit := List.countP_eq_countP_filter_add l (lt · b) (lt · a)
    refine (decide_eq_true ?_).symm
    change _ < List.countP (lt · b) l
    omega

end WeaklyOrders

/-- `r` has the elements of `l` in ascending order, and those with the same key as `l` has them. -/
structure SortedBy (key : α → Nat) (l r : List α) : Prop where
  perm : r.Perm l
  ordered : r.Pairwise (key · ≤ key ·)
  stable : ∀ k, r.filter (key · = k) = l.filter (key · = k)

/-- Merges, and takes what is on the left first unless what is on the right is less. -/
def mergeBy (key : α → Nat) (left right : List α) : List α :=
  left.merge right fun a b ↦ decide (key a ≤ key b)

namespace SortedBy

variable {key : α → Nat} {l l' left right : List α}

theorem of_length_le_one (h : l.length ≤ 1) : SortedBy key l l := by
  refine ⟨.refl l, ?_, fun _ ↦ rfl⟩
  match l, h with
  | [], _ => exact .nil
  | [a], _ => exact List.pairwise_singleton _ a

theorem filter_mergeBy (k : Nat) (hleft : left.Pairwise (key · ≤ key ·)) :
    (mergeBy key left right).filter (key · = k) =
      left.filter (key · = k) ++ right.filter (key · = k) := by
  unfold mergeBy
  induction left generalizing right with
  | nil => simp
  | cons a left ih =>
    induction right with
    | nil => simp
    | cons b right ihr =>
      rw [List.cons_merge_cons]
      split
      · rw [List.filter_cons, ih hleft.tail, List.filter_cons (x := a)]
        split <;> rfl
      · rename_i hab
        rw [decide_eq_true_eq, Nat.not_le] at hab
        rw [List.filter_cons, ihr, List.filter_cons (x := b)]
        split
        · -- All on the left is greater, so nothing there has the key of `b`.
          rename_i hb
          rw [decide_eq_true_eq] at hb
          have hnone : (a :: left).filter (key · = k) = [] := by
            refine List.filter_eq_nil_iff.mpr fun x hx ↦ ?_
            have hax : key a ≤ key x := by
              obtain rfl | hx := List.mem_cons.mp hx
              · exact Nat.le_refl _
              · exact List.rel_of_pairwise_cons hleft hx
            rw [decide_eq_true_eq]
            omega
          rw [hnone]
          rfl
        · rfl

theorem merge (hl : SortedBy key l left) (hr : SortedBy key l' right) :
    SortedBy key (l ++ l') (mergeBy key left right) := by
  refine ⟨(List.merge_perm_append _).trans (hl.perm.append hr.perm), ?_, fun k ↦ ?_⟩
  · have hmerged : (mergeBy key left right).Pairwise fun a b ↦ decide (key a ≤ key b) = true :=
      List.pairwise_merge (fun a b c hab hbc ↦ by simp only [decide_eq_true_eq] at *; omega)
        (fun a b ↦ by simpa using Nat.le_total (key a) (key b)) left right
        (hl.ordered.imp fun h ↦ decide_eq_true h) (hr.ordered.imp fun h ↦ decide_eq_true h)
    exact hmerged.imp of_decide_eq_true
  · rw [filter_mergeBy k hl.ordered, hl.stable, hr.stable, List.filter_append]

end SortedBy

end

section

variable {I : State → Prop} {before : Value → Value → Eval Bool} {vs : List Value}
  {key : Value → Nat}

theorem mergeOnto_of_nil {m : Type → Type} [Monad m] {α : Type} (before : α → α → m Bool) (n : Nat)
    (done : List α) {left right : List α} (h : left = [] ∨ right = []) :
    mergeOnto before n done left right = pure (done.reverse ++ left ++ right) := by
  obtain rfl | rfl := h
  · cases n <;> rfl
  · cases n <;> cases left <;> rfl

theorem mergeOnto_settles (h : Steady I before vs fun a b ↦ decide (key a < key b)) {n : Nat}
    (done : List Value) {left right : List Value} (hleft : left ⊆ vs) (hright : right ⊆ vs)
    (hn : left.length + right.length ≤ n) :
    (mergeOnto before n done left right).Settles I (done.reverse ++ mergeBy key left right) := by
  induction n generalizing done left right with
  | zero =>
    obtain rfl := List.eq_nil_of_length_eq_zero (l := left) (by omega)
    obtain rfl := List.eq_nil_of_length_eq_zero (l := right) (by omega)
    rw [mergeOnto_of_nil before 0 done (.inl rfl), List.append_assoc, mergeBy, List.nil_merge]
    exact .pure _
  | succ n ih =>
    cases left with
    | nil =>
      rw [mergeOnto_of_nil before _ done (.inl rfl), List.append_assoc, mergeBy, List.nil_merge]
      exact .pure _
    | cons a left =>
      cases right with
      | nil =>
        rw [mergeOnto_of_nil before _ done (.inr rfl), List.append_assoc, mergeBy, List.merge_right,
          List.append_nil]
        exact .pure _
      | cons b right =>
        obtain ⟨ha, hleft'⟩ := List.cons_subset.mp hleft
        obtain ⟨hb, hright'⟩ := List.cons_subset.mp hright
        simp only [List.length_cons] at hn
        refine .bind (h.settles b hb a ha) ?_
        rw [mergeBy, List.cons_merge_cons]
        -- What is on the right is asked for, so what is on the left goes first if they are alike.
        by_cases hlt : key b < key a
        · have hnot : ¬ key a ≤ key b := Nat.not_le.mpr hlt
          have hrest := ih (b :: done) hleft hright' (by simp only [List.length_cons]; omega)
          simpa [hlt, hnot, mergeBy] using hrest
        · have hle : key a ≤ key b := Nat.not_lt.mp hlt
          have hrest := ih (a :: done) hleft' hright (by simp only [List.length_cons]; omega)
          simpa [hlt, hle, mergeBy] using hrest

theorem mergeSortWithin_settles (h : Steady I before vs fun a b ↦ decide (key a < key b))
    {n : Nat} {l : List Value} (hl : l ⊆ vs) (hn : l.length ≤ 2 ^ n) :
    ∃ r, (mergeSortWithin before n l).Settles I r ∧ SortedBy key l r := by
  induction n generalizing l with
  | zero => exact ⟨l, .pure l, .of_length_le_one hn⟩
  | succ n ih =>
    unfold mergeSortWithin
    split
    · rename_i hlength
      exact ⟨l, .pure l, .of_length_le_one hlength⟩
    · simp only [List.splitAt_eq]
      rw [Nat.pow_succ] at hn
      have hhalves := List.take_append_drop (l.length / 2) l
      obtain ⟨left, hleft, hsorted⟩ := ih (l := l.take (l.length / 2))
        (fun v hv ↦ hl (List.mem_of_mem_take hv)) (by rw [List.length_take]; omega)
      obtain ⟨right, hright, hsorted'⟩ := ih (l := l.drop (l.length / 2))
        (fun v hv ↦ hl (List.mem_of_mem_drop hv)) (by rw [List.length_drop]; omega)
      have hmerged := hsorted.merge hsorted'
      rw [hhalves] at hmerged
      have hlength : left.length + right.length ≤ l.length := by
        rw [hsorted.perm.length_eq, hsorted'.perm.length_eq, ← List.length_append, hhalves]
      refine ⟨_, .bind hleft (.bind hright (mergeOnto_settles h [] ?_ ?_ hlength)), hmerged⟩
      · exact fun v hv ↦ hl (List.mem_of_mem_take (hsorted.perm.subset hv))
      · exact fun v hv ↦ hl (List.mem_of_mem_drop (hsorted'.perm.subset hv))

section

variable {A : Task → Prop}

/-- Whatever the comparison says, merging asks for it once for each element at most, and loses
none. -/
theorem mergeOnto_consults
    (hA : ∀ a ∈ vs, ∀ b ∈ vs, Consults A (fun _ ↦ True) 1 (before a b)) (n : Nat)
    (done : List Value) {left right : List Value} (hleft : left ⊆ vs) (hright : right ⊆ vs) :
    Consults A (fun r : List Value ↦ r.Perm (done ++ (left ++ right)))
      (left.length + right.length) (mergeOnto before n done left right) := by
  have hall (done left right : List Value) :
      (done.reverse ++ left ++ right).Perm (done ++ (left ++ right)) := by
    rw [List.append_assoc]
    exact (List.reverse_perm done).append_right _
  induction n generalizing done left right with
  | zero => exact .pure (hall done left right)
  | succ n ih =>
    cases left with
    | nil =>
      rw [mergeOnto_of_nil before _ done (.inl rfl)]
      exact .pure (hall done [] right)
    | cons a left =>
      cases right with
      | nil =>
        rw [mergeOnto_of_nil before _ done (.inr rfl)]
        exact .pure (hall done (a :: left) [])
      | cons b right =>
        obtain ⟨ha, hleft'⟩ := List.cons_subset.mp hleft
        obtain ⟨hb, hright'⟩ := List.cons_subset.mp hright
        have hcount : (a :: left).length + (b :: right).length =
            1 + (left.length + right.length + 1) := by
          simp only [List.length_cons]
          omega
        rw [hcount]
        -- Whichever element is taken, one is left less, and this comparison is counted for it.
        refine .bind (hA b hb a ha) fun first _ ↦ ?_
        split
        · refine (ih (b :: done) hleft hright').mono (fun r hr ↦ hr.trans ?_) ?_
          · exact List.perm_middle.symm.trans (List.Perm.append_left done List.perm_middle.symm)
          · simp only [List.length_cons]
            omega
        · refine (ih (a :: done) hleft' hright).mono (fun r hr ↦ hr.trans ?_) ?_
          · exact List.perm_middle.symm
          · simp only [List.length_cons]
            omega

theorem mul_clog_halves {n : Nat} (hn : 2 ≤ n) :
    n / 2 * Nat.clog 2 (n / 2) + ((n - n / 2) * Nat.clog 2 (n - n / 2) + n) ≤
      n * Nat.clog 2 n := by
  have hclog : Nat.clog 2 n = Nat.clog 2 (n - n / 2) + 1 := by
    rw [Nat.clog_of_two_le (by decide) hn]
    congr 2
    omega
  have hless : Nat.clog 2 (n / 2) ≤ Nat.clog 2 (n - n / 2) := Nat.clog_mono_right 2 (by omega)
  have hhalf := Nat.mul_le_mul_left (n / 2) hless
  have hsum : n / 2 * Nat.clog 2 (n - n / 2) + (n - n / 2) * Nat.clog 2 (n - n / 2) =
      n * Nat.clog 2 (n - n / 2) := by
    rw [← Nat.add_mul]
    congr 1
    omega
  rw [hclog, Nat.mul_add, Nat.mul_one]
  omega

theorem mergeSortWithin_consults
    (hA : ∀ a ∈ vs, ∀ b ∈ vs, Consults A (fun _ ↦ True) 1 (before a b)) (n : Nat)
    {l : List Value} (hl : l ⊆ vs) :
    Consults A (fun r : List Value ↦ r.Perm l) (l.length * Nat.clog 2 l.length)
      (mergeSortWithin before n l) := by
  induction n generalizing l with
  | zero => exact .pure (.refl l)
  | succ n ih =>
    unfold mergeSortWithin
    split
    · exact .pure (.refl l)
    · rename_i hlength
      simp only [List.splitAt_eq]
      have hhalves := List.take_append_drop (l.length / 2) l
      have hleft : l.take (l.length / 2) ⊆ vs := fun v hv ↦ hl (List.mem_of_mem_take hv)
      have hright : l.drop (l.length / 2) ⊆ vs := fun v hv ↦ hl (List.mem_of_mem_drop hv)
      have hcost := mul_clog_halves (n := l.length) (by omega)
      have hsize : (l.take (l.length / 2)).length = l.length / 2 := by
        rw [List.length_take]
        omega
      refine Consults.mono (.bind (ih hleft) fun left hpl ↦ .bind (ih hright) fun right hpr ↦
        (mergeOnto_consults hA l.length [] ?_ ?_).mono (k := l.length) (fun r hr ↦ ?_) ?_)
        (fun _ h ↦ h) ?_
      · exact fun v hv ↦ hleft (hpl.subset hv)
      · exact fun v hv ↦ hright (hpr.subset hv)
      · exact hr.trans ((hpl.append hpr).trans (by rw [hhalves]))
      · rw [hpl.length_eq, hpr.length_eq, ← List.length_append, hhalves]
      · rw [hsize, List.length_drop]
        exact hcost

end

end

/-- The elements of `items` in an order that `lt` has none against, and those that are alike as they
were in `items`. -/
structure SortedStably {α : Type} (lt : α → α → Bool) (items sorted : List α) : Prop where
  perm : sorted.Perm items
  ordered : sorted.Pairwise fun a b ↦ lt b a = false
  stable : ∀ a ∈ items, sorted.filter (fun b ↦ !lt a b && !lt b a) =
    items.filter (fun b ↦ !lt a b && !lt b a)

theorem SortedBy.stably {α : Type} {lt : α → α → Bool} {key : α → Nat} {items sorted : List α}
    (h : SortedBy key items sorted)
    (hlt : ∀ a ∈ items, ∀ b ∈ items, lt a b = decide (key a < key b)) :
    SortedStably lt items sorted := by
  have hmem : ∀ a ∈ sorted, a ∈ items := fun a ha ↦ h.perm.subset ha
  refine ⟨h.perm, h.ordered.imp_of_mem fun {a b} ha hb hab ↦ ?_, fun a ha ↦ ?_⟩
  · rw [hlt b (hmem b hb) a (hmem a ha)]
    exact decide_eq_false (Nat.not_lt.mpr hab)
  · have halike : ∀ b ∈ items, (!lt a b && !lt b a) = decide (key b = key a) := fun b hb ↦ by
      rw [hlt a ha b hb, hlt b hb a ha, Bool.eq_iff_iff]
      simp only [Bool.and_eq_true, Bool.not_eq_true', decide_eq_false_iff_not, decide_eq_true_eq]
      omega
    rw [List.filter_congr fun b hb ↦ halike b (hmem b hb), h.stable, List.filter_congr halike]

namespace Routine

def sort : Entry := withBlock (fixed .list .list "sort" [] (.list .sort)) .optional

end Routine

namespace ListRoutine

variable {l : ListId} {block : Option Value} {span : Span} {s s' : State}

/-- What is done to tell whether `a` belongs before `b`: a call of the block, or a message. -/
def comparison (block : Option Value) (span : Span) (a b : Value) : Task :=
  match block with
  | some (.lambda f) => .callLambda f [a, b] none span
  | some v => .send "call" ⟨v, [a, b], none, span⟩
  | none => .send "<" ⟨a, [b], none, span⟩

theorem sortsBefore_eq (block : Option Value) (span : Span) (a b : Value) :
    sortsBefore block span a b =
      perform (comparison block span a b) >>= fun v ↦ pure v.isTruthy := by
  match block with
  | none => rfl
  | some v => cases v <;> rfl

def Compares (items : List Value) (block : Option Value) (span : Span) (t : Task) : Prop :=
  ∃ a ∈ items, ∃ b ∈ items, t = comparison block span a b

theorem sort_consults (items : List Value) (block : Option Value) (span : Span) :
    Consults (Compares items block span) (fun sorted : List Value ↦ sorted.Perm items)
      (items.length * Nat.clog 2 items.length) (mergeSort (sortsBefore block span) items) := by
  refine mergeSortWithin_consults (fun a ha b hb ↦ ?_) _ (List.Subset.refl items)
  rw [sortsBefore_eq]
  exact .bind (k := 0) (.perform ⟨a, ha, b, hb, rfl⟩) fun v _ ↦ .pure trivial

/-- The state in which the elements are compared. -/
def sortingState (s : State) (l : ListId) (block : Option Value) : State :=
  { s with held := ⟨(s.items l).toList, none⟩ :: ⟨.list l :: (block.toList ++ []), none⟩ :: s.held }

theorem sort_apply (s : State) (l : ListId) (block : Option Value) (span : Span) :
    sort.run ⟨.list l, [], block, span⟩ s =
      (((mergeSort (sortsBefore block span) (s.items l).toList (sortingState s l block)).restoring
        (⟨.list l :: (block.toList ++ []), none⟩ :: s.held)).bind newList).restoring s.held := by
  rw [run_list (by decide) rfl (fun _ ↦ rfl) rfl]
  refine congrArg (Step.restoring s.held) ?_
  exact bind_apply (holding (s.items l).toList (mergeSort (sortsBefore block span) _)) newList _

theorem sort_gives {o : Outcome (List Value)} {s₁ : State}
    (h : (mergeSort (sortsBefore block span) (s.items l).toList).Gives (sortingState s l block)
      o s₁) :
    match o with
    | .ok sorted => (sort.run ⟨.list l, [], block, span⟩).Gives s (.ok (.list ⟨s₁.lists.size⟩))
        { (s₁.newList sorted.toArray).2 with held := s.held }
    | .error u => (sort.run ⟨.list l, [], block, span⟩).Gives s (.error u)
        { s₁ with held := s.held } := by
  obtain ⟨es, hes⟩ := h
  unfold Gives
  rw [sort_apply]
  cases o with
  | ok sorted =>
    have hnew : (newList sorted { s₁ with
        held := ⟨.list l :: (block.toList ++ []), none⟩ :: s.held }).Course []
        (.ok (.list ⟨s₁.lists.size⟩)) (State.newList { s₁ with
          held := ⟨.list l :: (block.toList ++ []), none⟩ :: s.held } sorted.toArray).2 := .done
    exact ⟨_, ((hes.restore _).bind_ok hnew).restore _⟩
  | error u => exact ⟨_, ((hes.restore _).bind_error).restore _⟩

/-- When a sort is over, nothing has changed between its comparisons. If none of them unwound, the
value is a new list of the elements. -/
def SortEnds (s : State) (items : List Value) (es : List Episode) (o : Outcome Value)
    (s' : State) : Prop :=
  ∃ s₁, Along State.AsBefore s es s₁ ∧
    match o with
    | .ok v => ∃ sorted : List Value, sorted.Perm items ∧ v = .list ⟨s₁.lists.size⟩ ∧
        s' = { (s₁.newList sorted.toArray).2 with held := s.held }
    | .error _ => s' = { s₁ with held := s.held }

theorem sort_course {es : List Episode} {o : Outcome Value}
    (h : (sort.run ⟨.list l, [], block, span⟩ s).Course es o s') :
    es.length ≤ (s.items l).toList.length * Nat.clog 2 (s.items l).toList.length ∧
      (∀ e ∈ es, Compares (s.items l).toList block span e.task) ∧ LetsPass es o ∧
      SortEnds s (s.items l).toList es o s' := by
  rw [sort_apply] at h
  obtain ⟨s₂, hrest, rfl⟩ := Step.Course.restoring h
  have hasks := sort_consults (s.items l).toList block span (sortingState s l block)
  have hconsults := hasks.of_earlier (State.Lax.held s _)
  obtain ⟨u, rfl, hall⟩ | ⟨sorted, es₁, es₂, s₃, rfl, hall, hnew⟩ := hrest.bind
  · obtain ⟨s₁, hsort, rfl⟩ := Step.Course.restoring hall
    obtain ⟨hlength, htasks, hpass, halong, -⟩ := hconsults.course hsort
    exact ⟨hlength, htasks, hpass, s₁, halong, rfl⟩
  · obtain ⟨s₁, hsort, rfl⟩ := Step.Course.restoring hall
    obtain ⟨hlength, htasks, hpass, halong, hperm⟩ := hconsults.course hsort
    obtain ⟨rfl, rfl, rfl⟩ := Step.Course.of_done hnew
    rw [List.append_nil]
    exact ⟨hlength, htasks, hpass, s₁, halong, sorted, hperm sorted rfl, rfl, rfl⟩

theorem exists_sort_gives
    (h : ∀ a ∈ (s.items l).toList, ∀ b ∈ (s.items l).toList, ∀ es s₁ resume,
      (sort.run ⟨.list l, [], block, span⟩ s).Comes es
        (.wait (comparison block span a b) s₁ resume) →
      ∃ o s', (comparison block span a b).Gives s₁ o s') :
    ∃ o s', (sort.run ⟨.list l, [], block, span⟩).Gives s o s' := by
  have hends := Step.exists_course_of_comes
    (mergeSort (sortsBefore block span) (s.items l).toList (sortingState s l block))
    fun es t s₁ resume hcomes ↦ by
      obtain ⟨a, ha, b, hb, rfl⟩ :=
        (sort_consults (s.items l).toList block span (sortingState s l block)).asks hcomes
      have houter := ((hcomes.restoring (⟨.list l :: (block.toList ++ []), none⟩ :: s.held)).bind
        newList).restoring s.held
      rw [← sort_apply] at houter
      exact h a ha b hb es s₁ _ houter
  obtain ⟨es, o, s₁, hes⟩ := hends
  have hgives := sort_gives ⟨es, hes⟩
  cases o with
  | ok sorted => exact ⟨_, _, hgives⟩
  | error u => exact ⟨_, _, hgives⟩

theorem sort_settles {I : State → Prop} {lt : Value → Value → Bool} (hI : I s)
    (h : Steady I (sortsBefore block span) (s.items l).toList lt)
    (hlt : WeaklyOrders lt (s.items l).toList) :
    ∃ sorted s₁, I s₁ ∧ SortedStably lt (s.items l).toList sorted ∧
      (sort.run ⟨.list l, [], block, span⟩).Gives s (.ok (.list ⟨s₁.lists.size⟩))
        { (s₁.newList sorted.toArray).2 with held := s.held } := by
  have hkey := fun a ha b hb ↦ hlt.lt_iff_rankIn (a := a) (b := b) ha hb
  obtain ⟨sorted, hsettles, hsorted⟩ := mergeSortWithin_settles (h.congr hkey)
    (List.Subset.refl _) Nat.lt_two_pow_self.le
  obtain ⟨s₁, hgives, hI₁⟩ := hsettles (sortingState s l block) (h.held s _ hI)
  exact ⟨sorted, s₁, hI₁, hsorted.stably hkey, sort_gives (o := .ok sorted) hgives⟩

/-- Sorting by a comparison that has no effect that matters and is a strict weak order gives a new
list with the elements in that order, and those that are alike as they were.

Whatever the comparison does, sorting compares elements of the list a limited number of times, lets
pass what unwinds from a comparison, gives a new list of the elements otherwise, and changes nothing
itself. It ends if the comparisons that it comes to do. The message does what the method does. -/
theorem sort_stable_safe (l : ListId) (block : Option Value) (span : Span) (s : State) :
    let items := (s.items l).toList
    let c : Call := ⟨.list l, [], block, span⟩
    (∀ I lt, I s → Steady I (sortsBefore block span) items lt → WeaklyOrders lt items →
      ∃ sorted s₁, I s₁ ∧ SortedStably lt items sorted ∧
        (sort.run c).Gives s (.ok (.list ⟨s₁.lists.size⟩))
          { (s₁.newList sorted.toArray).2 with held := s.held }) ∧
    (∀ es o s', (sort.run c s).Course es o s' →
      es.length ≤ items.length * Nat.clog 2 items.length ∧
        (∀ e ∈ es, Compares items block span e.task) ∧ LetsPass es o ∧
        SortEnds s items es o s') ∧
    ((∀ a ∈ items, ∀ b ∈ items, ∀ es s₁ resume,
        (sort.run c s).Comes es (.wait (comparison block span a b) s₁ resume) →
          ∃ o s', (comparison block span a b).Gives s₁ o s') →
      ∃ o s', (sort.run c).Gives s o s') ∧
    (s.types.FindsInstalled "sort" [.list] → s.frames.size < s.config.maxCallDepth →
      (Task.send "sort" c).CallsFor (sort.run c) s) := by
  refine ⟨fun I lt ↦ sort_settles, fun es o s' ↦ sort_course, exists_sort_gives, fun hsort hs ↦ ?_⟩
  have hoffers : s.types.offers .list Routine.sort = true :=
    hsort.offers (List.mem_singleton_self _) (by decide +kernel)
  exact Task.CallsFor.offered (c := ⟨.list l, [], block, span⟩) hoffers rfl rfl rfl hs

theorem steady_of_less {vs : List Value} {r : Value → Value → Prop} [DecidableRel r]
    (h : ∀ held, ∀ a ∈ vs, ∀ b ∈ vs,
      (send a "<" [b] none span).Answers { s with held } (r a b)) :
    Steady s.AsBefore (sortsBefore none span) vs fun a b ↦ decide (r a b) := by
  refine ⟨fun s' held hs ↦ hs.held held, fun a ha b hb s' hs ↦ ⟨s', ?_, hs⟩⟩
  obtain ⟨held, rfl⟩ := hs
  obtain ⟨answer, hgives, hanswer⟩ := (h held a ha b hb).truthy
  have heq : answer = decide (r a b) :=
    Bool.eq_iff_iff.mpr (hanswer.trans (decide_eq_true_iff).symm)
  exact heq ▸ hgives

/-- Two integers are sorted with two comparisons at most. -/
theorem sort_two_integers :
    let s : State := { State.initial .standard with lists := #[#[.int 2, .int 1]] }
    let c : Call := ⟨.list ⟨0⟩, [], none, .origin⟩
    ∃ sorted s', SortedStably (fun a b ↦ decide ((a.int?.getD 0).toInt < (b.int?.getD 0).toInt))
        [.int 2, .int 1] sorted ∧
      (Task.send "sort" c).Gives s (.ok (.list ⟨1⟩)) s' ∧ s'.lists.toList = [#[.int 2, .int 1],
        sorted.toArray] ∧
      (∃ es o s₁, (sort.run c s).Course es o s₁ ∧ es.length ≤ 2) ∧
      ∃ o s₁, (sort.run c).Gives s o s₁ := by
  intro s c
  have hless (t : State) (ht : t.types = .standard)
      (hframes : t.frames.size < t.config.maxCallDepth) (held : List Held) :
      ∀ a ∈ [Value.int 2, .int 1], ∀ b ∈ [Value.int 2, .int 1],
      (send a "<" [b] none .origin).Answers { t with held }
        ((a.int?.getD 0).toInt < (b.int?.getD 0).toInt) := by
    have hfinds : t.types.FindsInstalled "<" [.int] := fun _ _ ↦ by rw [ht]
    simp only [List.mem_cons, List.not_mem_nil, or_false]
    rintro _ (rfl | rfl) _ (rfl | rfl) <;>
      exact send_less_int (s := { t with held }) hfinds hframes (List.mem_singleton_self _) _ _
  have horders := WeaklyOrders.of_lt (fun v : Value ↦ (v.int?.getD 0).toInt) [.int 2, .int 1]
  obtain ⟨held, frame, hsend⟩ := (sort_stable_safe ⟨0⟩ none .origin s).2.2.2 (fun _ _ ↦ rfl)
    (by decide)
  obtain ⟨sorted, s₁, ⟨held₁, rfl⟩, hsorted, hgives⟩ :=
    (sort_stable_safe ⟨0⟩ none .origin { s with held, frames := s.frames.push frame }).1 _ _
      (State.Lax.refl _)
      (steady_of_less (hless _ rfl (show 1 < Config.standard.maxCallDepth by decide))) horders
  obtain ⟨sorted', s₂, -, -, hgives'⟩ := (sort_stable_safe ⟨0⟩ none .origin s).1 _ _
    (State.Lax.refl _) (steady_of_less (hless s rfl (by decide))) horders
  refine ⟨sorted, _, hsorted, hsend _ _ hgives, rfl, ?_, ?_⟩
  · obtain ⟨es, hes⟩ := hgives'
    exact ⟨es, _, _, hes, ((sort_stable_safe ⟨0⟩ none .origin s).2.1 es _ _ hes).1⟩
  · refine (sort_stable_safe ⟨0⟩ none .origin s).2.2.1 fun a ha b hb es s₁ resume hcomes ↦ ?_
    obtain ⟨es', hes'⟩ := hgives'
    exact hcomes.gives hes'

end ListRoutine

end Quill
