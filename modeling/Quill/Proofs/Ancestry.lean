import Mathlib.Data.List.Basic
import Mathlib.Data.Finset.Card
import Mathlib.Data.Finset.Range
import Mathlib.Logic.Relation
import Quill.Types

/-!
# The order in which methods are looked up

`Types.Walk` goes from a type to its modules and its supertype without a bound on the way, and
`Types.ancestors` is where it ends. Main statement: `ancestors_resolve`.
-/

namespace Quill

/-- `out` with those of the things at its end that it does not have yet. -/
def addNew {α : Type} [DecidableEq α] (out xs : List α) : List α :=
  xs.foldl (fun out x ↦ if x ∈ out then out else out ++ [x]) out

section

variable {α : Type} [DecidableEq α]

theorem addNew_cons (out : List α) (x : α) (xs : List α) :
    addNew out (x :: xs) = addNew (if x ∈ out then out else out ++ [x]) xs := rfl

theorem addNew_append (out xs ys : List α) :
    addNew out (xs ++ ys) = addNew (addNew out xs) ys := List.foldl_append

theorem mem_addNew {out xs : List α} {y : α} : y ∈ addNew out xs ↔ y ∈ out ∨ y ∈ xs := by
  induction xs generalizing out with
  | nil => simp [addNew]
  | cons x xs ih =>
    rw [addNew_cons, ih]
    split <;> grind

theorem addNew_of_subset {out xs : List α} (h : xs ⊆ out) : addNew out xs = out := by
  induction xs with
  | nil => rfl
  | cons x xs ih =>
    obtain ⟨hx, hxs⟩ := List.cons_subset.mp h
    rw [addNew_cons, if_pos hx]
    exact ih hxs

theorem addNew_nodup {out xs : List α} (h : out.Nodup) : (addNew out xs).Nodup := by
  induction xs generalizing out with
  | nil => exact h
  | cons x xs ih =>
    rw [addNew_cons]
    split
    · exact ih h
    · rename_i hx
      exact ih (h.append (List.nodup_singleton x) (List.disjoint_singleton.mpr hx))

theorem addNew_addNew (out acc xs : List α) :
    addNew out (addNew acc xs) = addNew (addNew out acc) xs := by
  induction xs generalizing acc with
  | nil => rfl
  | cons x xs ih =>
    rw [addNew_cons, addNew_cons, ih]
    by_cases hx : x ∈ acc
    · rw [if_pos hx, if_pos (mem_addNew.mpr (.inr hx))]
    · rw [if_neg hx, addNew_append]
      rfl

theorem addNew_nil (xs : List α) : addNew [] xs = xs.eraseDups := by
  have loop (xs acc : List α) :
      addNew acc.reverse xs = List.eraseDupsBy.loop (· == ·) xs acc := by
    induction xs generalizing acc with
    | nil => rfl
    | cons x xs ih =>
      rw [addNew_cons, List.eraseDupsBy.loop]
      by_cases hx : x ∈ acc
      · have hany : acc.any (x == ·) = true := List.any_eq_true.mpr ⟨x, hx, beq_self_eq_true x⟩
        rw [if_pos (List.mem_reverse.mpr hx), hany]
        exact ih acc
      · have hany : acc.any (x == ·) = false := by
          refine List.any_eq_false.mpr fun y hy heq ↦ hx ?_
          rwa [beq_iff_eq.mp heq]
        rw [if_neg (by simpa using hx), hany, ← List.reverse_cons]
        exact ih (x :: acc)
  exact loop xs []

end

namespace Types

variable (ts : Types)

/-- Includes the module or has the supertype. -/
def Inherits (t u : TypeId) : Prop := u ∈ ts.includes t ∨ ts.superclass t = some u

/-- The modules of a type, the latest first, and its supertype. -/
def bases (t : TypeId) : List TypeId := (ts.includes t).reverse ++ (ts.superclass t).toList

/-- The walk through `todo` and all that it inherits from, after `out` was met: what was met before
is passed over, and anything else is followed by what its own bases lead to. -/
inductive Walk : List TypeId → List TypeId → List TypeId → Prop
  | done {out : List TypeId} : Walk out [] out
  | seen {out todo out' : List TypeId} {t : TypeId} : t ∈ out → Walk out todo out' →
      Walk out (t :: todo) out'
  | new {out todo out₁ out' : List TypeId} {t : TypeId} : t ∉ out →
      Walk (out ++ [t]) (ts.bases t) out₁ → Walk out₁ todo out' → Walk out (t :: todo) out'

variable {ts}

theorem mem_bases {t u : TypeId} : u ∈ ts.bases t ↔ ts.Inherits t u := by
  simp [bases, Inherits, eq_comm]

namespace Walk

variable {out todo todo' out' out'' : List TypeId} {t u : TypeId}

theorem isPrefix (h : ts.Walk out todo out') : out <+: out' := by
  induction h with
  | done => exact List.prefix_rfl
  | seen _ _ ih => exact ih
  | new _ _ _ ih₁ ih₂ => exact ((List.prefix_append _ _).trans ih₁).trans ih₂

theorem unique (h : ts.Walk out todo out') (h' : ts.Walk out todo out'') : out' = out'' := by
  induction h generalizing out'' with
  | done =>
    cases h'
    rfl
  | seen ht _ ih =>
    cases h' with
    | seen _ h' => exact ih h'
    | new hn _ _ => exact absurd ht hn
  | new hn _ _ ih₁ ih₂ =>
    cases h' with
    | seen ht _ => exact absurd ht hn
    | new _ h₁ h₂ =>
      cases ih₁ h₁
      exact ih₂ h₂

theorem append (h : ts.Walk out (todo ++ todo') out') :
    ∃ mid, ts.Walk out todo mid ∧ ts.Walk mid todo' out' := by
  induction todo generalizing out with
  | nil => exact ⟨out, .done, h⟩
  | cons t todo ih =>
    cases h with
    | seen ht h =>
      obtain ⟨mid, h₁, h₂⟩ := ih h
      exact ⟨mid, .seen ht h₁, h₂⟩
    | new hn hb h =>
      obtain ⟨mid, h₁, h₂⟩ := ih h
      exact ⟨mid, .new hn hb h₁, h₂⟩

theorem nodup (h : ts.Walk out todo out') (ho : out.Nodup) : out'.Nodup := by
  induction h with
  | done => exact ho
  | seen _ _ ih => exact ih ho
  | new hn _ _ ih₁ ih₂ =>
    exact ih₂ (ih₁ (ho.append (List.nodup_singleton _) (List.disjoint_singleton.mpr hn)))

theorem sound (h : ts.Walk out todo out') (hu : u ∈ out') :
    u ∈ out ∨ ∃ t ∈ todo, Relation.ReflTransGen ts.Inherits t u := by
  induction h with
  | done => exact .inl hu
  | seen _ _ ih =>
    obtain hout | ⟨t, ht, hr⟩ := ih hu
    · exact .inl hout
    · exact .inr ⟨t, List.mem_cons_of_mem _ ht, hr⟩
  | @new out todo out₁ out' t _ _ _ ih₁ ih₂ =>
    obtain hout | ⟨t', ht', hr⟩ := ih₂ hu
    · obtain hout | ⟨b, hb, hr⟩ := ih₁ hout
      · obtain hout | rfl := (List.mem_append.mp hout).imp_right List.mem_singleton.mp
        · exact .inl hout
        · exact .inr ⟨u, List.mem_cons_self, .refl⟩
      · exact .inr ⟨t, List.mem_cons_self, hr.head (mem_bases.mp hb)⟩
    · exact .inr ⟨t', List.mem_cons_of_mem _ ht', hr⟩

theorem covers (h : ts.Walk out todo out') : todo ⊆ out' := by
  induction h with
  | done => exact List.nil_subset _
  | seen ht hw ih => exact List.cons_subset.mpr ⟨hw.isPrefix.subset ht, ih⟩
  | new _ h₁ h₂ _ ih₂ =>
    have hmet := (h₁.isPrefix.trans h₂.isPrefix).subset
    exact List.cons_subset.mpr ⟨hmet (List.mem_append_right _ List.mem_cons_self), ih₂⟩

theorem closed (h : ts.Walk out todo out') (hu : u ∈ out') :
    u ∈ out ∨ ∀ v, ts.Inherits u v → v ∈ out' := by
  induction h with
  | done => exact .inl hu
  | seen _ _ ih => exact ih hu
  | @new out todo out₁ out' t _ h₁ h₂ ih₁ ih₂ =>
    obtain hmid | hnew := ih₂ hu
    · obtain hout | hnew := ih₁ hmid
      · obtain hout | rfl := (List.mem_append.mp hout).imp_right List.mem_singleton.mp
        · exact .inl hout
        · exact .inr fun v hv ↦ h₂.isPrefix.subset (h₁.covers (mem_bases.mpr hv))
      · exact .inr fun v hv ↦ h₂.isPrefix.subset (hnew v hv)
    · exact .inr hnew

theorem complete (h : ts.Walk [] [t] out') (hr : Relation.ReflTransGen ts.Inherits t u) :
    u ∈ out' := by
  induction hr with
  | refl => exact h.covers List.mem_cons_self
  | tail _ hi ih => exact (h.closed ih).resolve_left List.not_mem_nil _ hi

end Walk

variable (ts)

/-- The types that were not met yet. -/
def unmet (out : Array TypeId) : Finset Nat :=
  (Finset.range ts.all.size).filter fun i ↦ (⟨i⟩ : TypeId) ∉ out

theorem linearize_succ (n : Nat) (out : Array TypeId) (t : TypeId) :
    ts.linearize (n + 1) out t =
      if out.contains t then out else (ts.bases t).foldl (ts.linearize n) (out.push t) := by
  rw [linearize, bases, List.foldl_append]
  cases ts.superclass t <;> rfl

theorem bases_eq_nil {t : TypeId} (h : ts.all.size ≤ t.index) : ts.bases t = [] := by
  have hnone : ts.get? t = none := Array.getElem?_eq_none h
  simp [bases, includes, superclass, hnone]

variable {ts}

theorem unmet_push_lt {out : Array TypeId} {t : TypeId} (ht : t ∉ out)
    (h : t.index < ts.all.size) : (ts.unmet (out.push t)).card < (ts.unmet out).card := by
  refine Finset.card_lt_card (Finset.ssubset_iff_of_subset ?_ |>.mpr ⟨t.index, ?_, ?_⟩)
  · intro i hi
    simp only [unmet, Finset.mem_filter, Array.mem_push, not_or] at hi ⊢
    exact ⟨hi.1, hi.2.1⟩
  · simpa [unmet, h] using ht
  · simp [unmet]

variable (ts) in
theorem unmet_le_of_isPrefix {out out' : Array TypeId} (h : out.toList <+: out'.toList) :
    (ts.unmet out').card ≤ (ts.unmet out).card := by
  refine Finset.card_le_card fun i hi ↦ ?_
  simp only [unmet, Finset.mem_filter] at hi ⊢
  exact ⟨hi.1, fun hmem ↦ hi.2 (Array.mem_def.mpr (h.subset (Array.mem_def.mp hmem)))⟩

/-- As every type on a path is met on it for the first time, the bound on paths is never hit. -/
theorem foldl_linearize_walks {n : Nat} {todo : List TypeId} {out : Array TypeId}
    (h : (ts.unmet out).card < n) :
    ts.Walk out.toList todo (todo.foldl (ts.linearize n) out).toList := by
  induction n generalizing out todo with
  | zero => omega
  | succ n ihn =>
    induction todo generalizing out with
    | nil => exact .done
    | cons t todo ih =>
      rw [List.foldl_cons, linearize_succ]
      by_cases ht : t ∈ out
      · rw [if_pos (Array.contains_iff_mem.mpr ht)]
        exact .seen (Array.mem_def.mp ht) (ih h)
      · rw [if_neg (by simpa using ht)]
        have hbases : ts.Walk (out.toList ++ [t]) (ts.bases t)
            ((ts.bases t).foldl (ts.linearize n) (out.push t)).toList := by
          rw [← Array.toList_push]
          by_cases hin : t.index < ts.all.size
          · exact ihn (by have := unmet_push_lt ht hin; omega)
          · rw [bases_eq_nil ts (Nat.le_of_not_lt hin)]
            exact .done
        have hmore := unmet_le_of_isPrefix ts ((List.prefix_append _ _).trans hbases.isPrefix)
        exact .new (fun hmem ↦ ht (Array.mem_def.mpr hmem)) hbases (ih (by omega))

variable (ts) in
theorem ancestors_walk (t : TypeId) : ts.Walk [] [t] (ts.ancestors t) := by
  have hwalk := @foldl_linearize_walks ts (ts.all.size + 1) [t] #[]
  refine hwalk ?_
  have hle := Finset.card_filter_le (Finset.range ts.all.size)
    fun i ↦ (⟨i⟩ : TypeId) ∉ (#[] : Array TypeId)
  rw [Finset.card_range] at hle
  exact Nat.lt_succ_of_le hle

theorem mem_ancestors {t u : TypeId} :
    u ∈ ts.ancestors t ↔ Relation.ReflTransGen ts.Inherits t u := by
  refine ⟨fun h ↦ ?_, (ts.ancestors_walk t).complete⟩
  obtain hnil | ⟨t', ht', hr⟩ := (ts.ancestors_walk t).sound h
  · cases hnil
  · rwa [List.mem_singleton.mp ht'] at hr

theorem ancestors_nodup (t : TypeId) : (ts.ancestors t).Nodup :=
  (ts.ancestors_walk t).nodup List.nodup_nil

variable (ts) in
theorem ancestors_new (t : TypeId) : ts.Walk [t] (ts.bases t) (ts.ancestors t) := by
  have h := ts.ancestors_walk t
  cases h with
  | seen h _ => cases h
  | new _ hb hd =>
    cases hd
    exact hb

theorem ancestors_head (t : TypeId) : (ts.ancestors t).head? = some t := by
  obtain ⟨rest, h⟩ := (ts.ancestors_new t).isPrefix
  rw [← h]
  rfl

theorem descendsFrom_iff {t u : TypeId} :
    ts.descendsFrom t u = true ↔ Relation.ReflTransGen ts.Inherits t u := by
  rw [descendsFrom, List.contains_iff_mem, mem_ancestors]

variable (ts) in
/-- Only modules are included, a supertype is a type, modules have none, and the supertypes of a
type form a chain that does not come back to it. Programs make no other types:
`State.Reached.isHierarchy`. -/
structure IsHierarchy : Prop where
  includes {t m : TypeId} : m ∈ ts.includes t → ts.sort m = .module
  module {m : TypeId} : ts.sort m = .module → ts.superclass m = none
  superclass {t s : TypeId} : ts.superclass t = some s → ts.sort s = .type
  chain (t : TypeId) : ¬ Relation.TransGen (ts.superclass · = some ·) t t

namespace IsHierarchy

variable (h : ts.IsHierarchy)

include h

theorem module_of_inherits {m u : TypeId} (hm : ts.sort m = .module) (hi : ts.Inherits m u) :
    u ∈ ts.includes m ∧ ts.sort u = .module := by
  obtain hu | hs := hi
  · exact ⟨hu, h.includes hu⟩
  · rw [h.module hm] at hs
    cases hs

theorem module_of_reaches {m u : TypeId} (hm : ts.sort m = .module)
    (hr : Relation.ReflTransGen ts.Inherits m u) : ts.sort u = .module := by
  induction hr with
  | refl => exact hm
  | tail _ hi ih => exact (h.module_of_inherits ih hi).2

theorem supers_sublist {t : TypeId} {supers out out' : List TypeId}
    (ht : ts.sort t = .type) (hc : (t :: supers).IsChain (ts.superclass · = some ·))
    (hout : ∀ u ∈ out, ts.sort u = .type → Relation.TransGen (ts.superclass · = some ·) u t)
    (hw : ts.Walk out [t] out') : ∃ new, out' = out ++ new ∧ (t :: supers).Sublist new := by
  induction supers generalizing t out with
  | nil =>
    cases hw with
    | seen hmem _ => exact absurd (hout t hmem ht) (h.chain t)
    | new _ hb hd =>
      cases hd
      obtain ⟨new, rfl⟩ := hb.isPrefix
      exact ⟨t :: new, by simp, by simp⟩
  | cons s supers ih =>
    obtain ⟨hs, hc⟩ := List.isChain_cons_cons.mp hc
    cases hw with
    | seen hmem _ => exact absurd (hout t hmem ht) (h.chain t)
    | new _ hb hd =>
      cases hd
      rw [bases, hs] at hb
      obtain ⟨mid, hmodules, hsuper⟩ := hb.append
      -- Between the type and its supertype there are modules only.
      have hmid (u : TypeId) (hu : u ∈ mid) (hut : ts.sort u = .type) :
          Relation.TransGen (ts.superclass · = some ·) u s := by
        obtain hmet | ⟨m, hm, hr⟩ := hmodules.sound hu
        · obtain hu | rfl := (List.mem_append.mp hmet).imp_right List.mem_singleton.mp
          · exact (hout u hu hut).tail hs
          · exact .single hs
        · have hmodule := h.module_of_reaches (h.includes (List.mem_reverse.mp hm)) hr
          rw [hut] at hmodule
          cases hmodule
      obtain ⟨new, rfl, hnew⟩ := ih (h.superclass hs) hc hmid hsuper
      obtain ⟨modules, rfl⟩ := hmodules.isPrefix
      have hsub := hnew.trans (List.sublist_append_right modules new)
      exact ⟨t :: (modules ++ new), by simp, hsub.cons_cons t⟩

theorem supers_sublist_ancestors {t : TypeId} {supers : List TypeId}
    (hc : (t :: supers).IsChain (ts.superclass · = some ·)) :
    (t :: supers).Sublist (ts.ancestors t) := by
  cases hsort : ts.sort t with
  | type =>
    obtain ⟨new, hnew, hsub⟩ := h.supers_sublist hsort hc
      (fun _ hu ↦ absurd hu List.not_mem_nil) (ts.ancestors_walk t)
    rwa [hnew]
  | module =>
    cases supers with
    | nil => exact List.singleton_sublist.mpr (mem_ancestors.mpr .refl)
    | cons s supers =>
      have hs := (List.isChain_cons_cons.mp hc).1
      rw [h.module hsort] at hs
      cases hs

theorem acyclic (hm : ∀ m, ¬ Relation.TransGen (fun t u ↦ u ∈ ts.includes t) m m) (t : TypeId) :
    ¬ Relation.TransGen ts.Inherits t t := by
  -- From a module only inclusion leads on, and from a type to a type only supertypes do.
  have modules {m u : TypeId} (hsort : ts.sort m = .module)
      (hr : Relation.TransGen ts.Inherits m u) :
      Relation.TransGen (fun t u ↦ u ∈ ts.includes t) m u ∧ ts.sort u = .module := by
    induction hr with
    | single hi =>
      obtain ⟨hu, hsort⟩ := h.module_of_inherits hsort hi
      exact ⟨.single hu, hsort⟩
    | tail _ hi ih =>
      obtain ⟨hu, hsort⟩ := h.module_of_inherits ih.2 hi
      exact ⟨ih.1.tail hu, hsort⟩
  have types {u : TypeId} (hr : Relation.TransGen ts.Inherits t u) :
      ts.sort u = .module ∨ Relation.TransGen (ts.superclass · = some ·) t u := by
    induction hr with
    | single hi => exact hi.imp h.includes .single
    | tail _ hi ih =>
      obtain hu | hr := ih
      · exact .inl (h.module_of_inherits hu hi).2
      · exact hi.imp h.includes hr.tail
  intro hr
  obtain hsort | hchain := types hr
  · exact hm t (modules hsort hr).1
  · exact h.chain t hchain

end IsHierarchy

section

variable (ha : ∀ t, ¬ Relation.TransGen ts.Inherits t t)

include ha

theorem length_ancestors_lt {t u : TypeId} (hi : ts.Inherits t u) :
    (ts.ancestors u).length < (ts.ancestors t).length := by
  have hsub : t :: ts.ancestors u ⊆ ts.ancestors t := List.cons_subset.mpr
    ⟨mem_ancestors.mpr .refl, fun v hv ↦ mem_ancestors.mpr ((mem_ancestors.mp hv).head hi)⟩
  have hnew : t ∉ ts.ancestors u := fun hmem ↦
    ha t (Relation.TransGen.head' hi (mem_ancestors.mp hmem))
  exact (List.subperm_of_subset (List.nodup_cons.mpr ⟨hnew, ancestors_nodup u⟩) hsub).length_le

/-- What was met before the walk is met with all that it inherits from, if the walk can come to it;
so the walk adds the ancestors of everything on its way. -/
theorem Walk.eq_addNew {out todo out' : List TypeId} (h : ts.Walk out todo out')
    (hrule : ∀ t ∈ todo, ∀ u, Relation.ReflTransGen ts.Inherits t u →
      ts.ancestors u = (u :: (ts.bases u).flatMap ts.ancestors).eraseDups)
    (hclosed : ∀ t ∈ todo, ∀ u ∈ out, Relation.ReflTransGen ts.Inherits t u →
      ts.ancestors u ⊆ out) : out' = addNew out (todo.flatMap ts.ancestors) := by
  induction h with
  | done => rfl
  | @seen out todo out' t ht _ ih =>
    rw [List.flatMap_cons, addNew_append,
      addNew_of_subset (hclosed t List.mem_cons_self t ht .refl)]
    exact ih (fun t' ht' ↦ hrule t' (List.mem_cons_of_mem _ ht'))
      fun t' ht' ↦ hclosed t' (List.mem_cons_of_mem _ ht')
  | @new out todo out₁ out' t ht _ _ ih₁ ih₂ =>
    have hbases : out₁ = addNew (out ++ [t]) ((ts.bases t).flatMap ts.ancestors) := by
      refine ih₁ (fun b hb u hu ↦ hrule t List.mem_cons_self u (hu.head (mem_bases.mp hb)))
        fun b hb u hu hr ↦ ?_
      have htu := Relation.TransGen.head' (mem_bases.mp hb) hr
      obtain hu | rfl := (List.mem_append.mp hu).imp_right List.mem_singleton.mp
      · exact List.Subset.trans (hclosed t List.mem_cons_self u hu htu.to_reflTransGen)
          (List.subset_append_left _ _)
      · exact absurd htu (ha u)
    -- By the rule, `t` and what its bases have added are the ancestors of `t`.
    have hself : out₁ = addNew out (ts.ancestors t) := by
      rw [hbases, hrule t List.mem_cons_self t .refl, ← addNew_nil, addNew_addNew]
      change _ = addNew out _
      rw [addNew_cons, if_neg ht]
    rw [List.flatMap_cons, addNew_append, ← hself]
    refine ih₂ (fun t' ht' ↦ hrule t' (List.mem_cons_of_mem _ ht')) fun t' ht' u hu hr ↦ ?_
    rw [hself] at hu ⊢
    intro v hv
    obtain hu | hu := mem_addNew.mp hu
    · exact mem_addNew.mpr (.inl (hclosed t' (List.mem_cons_of_mem _ ht') u hu hr hv))
    · refine mem_addNew.mpr (.inr ?_)
      exact mem_ancestors.mpr ((mem_ancestors.mp hu).trans (mem_ancestors.mp hv))

theorem ancestors_rule (t : TypeId) :
    ts.ancestors t = (t :: (ts.bases t).flatMap ts.ancestors).eraseDups := by
  induction hn : (ts.ancestors t).length using Nat.strong_induction_on generalizing t with
  | _ n ih =>
    subst hn
    have hlt {u : TypeId} (hr : Relation.TransGen ts.Inherits t u) :
        (ts.ancestors u).length < (ts.ancestors t).length := by
      induction hr with
      | single hi => exact length_ancestors_lt ha hi
      | tail _ hi ih => exact (length_ancestors_lt ha hi).trans ih
    rw [← addNew_nil, addNew_cons, if_neg List.not_mem_nil]
    refine (ts.ancestors_new t).eq_addNew ha (fun b hb u hr ↦ ?_) fun b hb u hu hr ↦ ?_
    · exact ih _ (hlt (Relation.TransGen.head' (mem_bases.mp hb) hr)) u rfl
    · obtain rfl := List.mem_singleton.mp hu
      exact absurd (Relation.TransGen.head' (mem_bases.mp hb) hr) (ha u)

theorem eq_ancestors_of_rule {order : TypeId → List TypeId}
    (hrule : ∀ t, order t = (t :: (ts.bases t).flatMap order).eraseDups) :
    order = ts.ancestors := by
  funext t
  induction hn : (ts.ancestors t).length using Nat.strong_induction_on generalizing t with
  | _ n ih =>
    subst hn
    rw [hrule t, ancestors_rule ha t]
    have heq : (ts.bases t).flatMap order = (ts.bases t).flatMap ts.ancestors :=
      List.flatMap_congr fun u hu ↦ ih _ (length_ancestors_lt ha (mem_bases.mp hu)) u rfl
    rw [heq]

end

/-- The walk from a type ends at its ancestors, whatever includes what: the type itself, then each
thing it inherits from, once, its supertypes in their order. Where no module leads back to itself,
this is the one solution of the rule that puts the ancestors of the modules, the latest first, and
those of the supertype behind the type and keeps what comes first. -/
theorem ancestors_resolve (h : ts.IsHierarchy) (t : TypeId) :
    (∀ out, ts.Walk [] [t] out ↔ out = ts.ancestors t) ∧
    (ts.ancestors t).head? = some t ∧ (ts.ancestors t).Nodup ∧
    (∀ u, u ∈ ts.ancestors t ↔ Relation.ReflTransGen ts.Inherits t u) ∧
    (ts.descendsFrom t t = true ∧ ∀ u v, ts.descendsFrom t u = true →
      ts.descendsFrom u v = true → ts.descendsFrom t v = true) ∧
    (∀ supers : List TypeId, (t :: supers).IsChain (ts.superclass · = some ·) →
      (t :: supers).Sublist (ts.ancestors t)) ∧
    ((∀ m, ¬ Relation.TransGen (fun m u ↦ u ∈ ts.includes m) m m) →
      ∀ order : TypeId → List TypeId,
        (∀ u, order u = (u :: ((ts.includes u).reverse.flatMap order ++
          (ts.superclass u).toList.flatMap order)).eraseDups) ↔ order = ts.ancestors) := by
  refine ⟨fun out ↦ ⟨fun hw ↦ hw.unique (ts.ancestors_walk t), ?_⟩, ancestors_head t,
    ancestors_nodup t, fun u ↦ mem_ancestors, ⟨?_, fun u v hu hv ↦ ?_⟩,
    fun supers ↦ h.supers_sublist_ancestors, fun hm order ↦ ?_⟩
  · rintro rfl
    exact ts.ancestors_walk t
  · exact descendsFrom_iff.mpr .refl
  · exact descendsFrom_iff.mpr ((descendsFrom_iff.mp hu).trans (descendsFrom_iff.mp hv))
  · simp only [← List.flatMap_append]
    change (∀ u, order u = (u :: (ts.bases u).flatMap order).eraseDups) ↔ _
    refine ⟨eq_ancestors_of_rule (h.acyclic hm), ?_⟩
    rintro rfl
    exact ancestors_rule (h.acyclic hm)

/-- A module that a type, another module and the supertype include. -/
def layered : Types :=
  ⟨#[{ TypeInfo.new "Base" .type none none with includes := [⟨1⟩] },
    TypeInfo.new "A" .module none none,
    { TypeInfo.new "B" .module none none with includes := [⟨1⟩] },
    { TypeInfo.new "D" .type (some ⟨0⟩) none with includes := [⟨1⟩, ⟨2⟩] }]⟩

theorem layered_includes (t : TypeId) (m : TypeId) (hm : m ∈ layered.includes t) :
    m.index = 1 ∧ t.index ≠ 1 ∨ m.index = 2 ∧ t.index = 3 := by
  obtain ⟨i⟩ := t
  match i with
  | 0 | 1 | 2 | 3 => simp [layered, includes, get?, TypeInfo.new] at hm <;> grind
  | n + 4 => simp [layered, includes, get?] at hm

theorem layered_superclass (t s : TypeId) (hs : layered.superclass t = some s) :
    s = ⟨0⟩ ∧ t = ⟨3⟩ := by
  obtain ⟨i⟩ := t
  match i with
  | 0 | 1 | 2 | 3 => simp [layered, superclass, get?, TypeInfo.new] at hs <;> grind
  | n + 4 => simp [layered, superclass, get?] at hs

theorem layered_isHierarchy : layered.IsHierarchy where
  includes {_ m} hm := by
    obtain ⟨i⟩ := m
    obtain ⟨rfl, -⟩ | ⟨rfl, -⟩ := layered_includes _ _ hm <;> rfl
  module hsort := Option.eq_none_iff_forall_ne_some.mpr fun s hs ↦ by
    rw [(layered_superclass _ s hs).2] at hsort
    cases hsort
  superclass hs := by
    rw [(layered_superclass _ _ hs).1]
    rfl
  chain t hr := by
    obtain ⟨u, -, hs⟩ := Relation.TransGen.tail'_iff.mp hr
    obtain ⟨v, hs', -⟩ := Relation.TransGen.head'_iff.mp hr
    cases (layered_superclass u t hs).1.symm.trans (layered_superclass t v hs').2

theorem ancestors_resolve_layered :
    layered.ancestors ⟨3⟩ = [⟨3⟩, ⟨2⟩, ⟨1⟩, ⟨0⟩] ∧ [⟨3⟩, ⟨0⟩].Sublist (layered.ancestors ⟨3⟩) ∧
    ∀ u, layered.ancestors u = (u :: ((layered.includes u).reverse.flatMap layered.ancestors ++
      (layered.superclass u).toList.flatMap layered.ancestors)).eraseDups := by
  obtain ⟨hwalk, -, -, -, -, hsupers, hrule⟩ := ancestors_resolve layered_isHierarchy ⟨3⟩
  refine ⟨by decide +kernel, hsupers [⟨0⟩] ?_, (hrule ?_ _).mpr rfl⟩
  · exact List.isChain_cons_cons.mpr ⟨rfl, .singleton _⟩
  · intro m hr
    have hlt {m u : TypeId} (hr : Relation.TransGen (fun m u ↦ u ∈ layered.includes m) m u) :
        u.index = 1 ∧ m.index ≠ 1 ∨ u.index = 2 ∧ m.index = 3 := by
      induction hr with
      | single hm => exact layered_includes _ _ hm
      | tail _ hm ih =>
        have := layered_includes _ _ hm
        omega
    have := hlt hr
    omega

end Types

end Quill
