import Mathlib.Data.Finset.Card
import Mathlib.Data.List.Chain
import Mathlib.Logic.Relation

/-!
# The way up

Scopes have scopes around them and types have supertypes. Main statements: `Climb.unique`, and
`exists_climb` for the ways up that have an end.
-/

namespace Quill

variable {α : Type} {up up' : α → Option α} {a b : α} {chain chain' : List α}

/-- All that is met on the way up, from the first to the last. -/
inductive Climb (up : α → Option α) : α → List α → Prop
  | last {a : α} : up a = none → Climb up a [a]
  | above {a b : α} {chain : List α} : up a = some b → Climb up b chain → Climb up a (a :: chain)

namespace Climb

theorem unique (h : Climb up a chain) (h' : Climb up a chain') : chain = chain' := by
  induction h generalizing chain' with
  | last hu =>
    cases h' with
    | last => rfl
    | above hu' => simp [hu] at hu'
  | above hu _ ih =>
    cases h' with
    | last hu' => simp [hu] at hu'
    | above hu' hc =>
      obtain rfl := Option.some.inj (hu.symm.trans hu')
      rw [ih hc]

theorem congr (h : Climb up a chain) (hup : ∀ x ∈ chain, up' x = up x) : Climb up' a chain := by
  induction h with
  | last hu => exact .last ((hup _ List.mem_cons_self).trans hu)
  | above hu _ ih =>
    have hrest := ih fun x hx ↦ hup x (List.mem_cons_of_mem _ hx)
    exact .above ((hup _ List.mem_cons_self).trans hu) hrest

theorem head (h : Climb up a chain) : ∃ rest, chain = a :: rest := by
  cases h with
  | last => exact ⟨[], rfl⟩
  | above => exact ⟨_, rfl⟩

theorem after {before rest : List α} (h : Climb up a (before ++ b :: rest)) :
    up b = none ∧ rest = [] ∨ ∃ c, up b = some c ∧ Climb up c rest := by
  induction before generalizing a with
  | nil =>
    cases h with
    | last hu => exact .inl ⟨hu, rfl⟩
    | above hu hc => exact .inr ⟨_, hu, hc⟩
  | cons x before ih =>
    rw [List.cons_append] at h
    generalize hrest : before ++ b :: rest = chain at h ih
    cases h with
    | last => simp at hrest
    | above _ hc => exact ih hc

theorem nodup (h : Climb up a chain) : chain.Nodup := by
  induction h with
  | last => exact List.nodup_singleton _
  | above hu hc ih =>
    refine List.nodup_cons.mpr ⟨fun hm ↦ ?_, ih⟩
    -- From the second time on, the way would be as long as from the first time on.
    obtain ⟨before, later, rfl⟩ := List.append_of_mem hm
    obtain ⟨hnone, -⟩ | ⟨c, hc', hlater⟩ := hc.after
    · simp [hu] at hnone
    · obtain rfl := Option.some.inj (hu.symm.trans hc')
      have hlen := congrArg List.length (hc.unique hlater)
      simp at hlen
      omega

theorem length_le {all : List α} (h : Climb up a chain) (hall : ∀ x, (up x).isSome → x ∈ all) :
    chain.length ≤ all.length + 1 := by
  have hsub : chain.dropLast ⊆ all := by
    induction h with
    | last => simp
    | @above a b chain hu hc ih =>
      obtain ⟨rest, rfl⟩ := hc.head
      rw [List.dropLast_cons_cons]
      exact List.cons_subset.mpr ⟨hall a (by simp [hu]), ih⟩
  have hnd := h.nodup.sublist (List.dropLast_sublist chain)
  have hlen := (List.subperm_of_subset hnd hsub).length_le
  rw [List.length_dropLast] at hlen
  omega

end Climb

theorem exists_climb_of_lt (size : α → Nat) (h : ∀ a b, up a = some b → size b < size a) (a : α) :
    ∃ chain, Climb up a chain := by
  induction hn : size a using Nat.strong_induction_on generalizing a with
  | _ n ih =>
    subst hn
    cases hu : up a with
    | none => exact ⟨[a], .last hu⟩
    | some b =>
      obtain ⟨chain, hc⟩ := ih (size b) (h a b hu) b rfl
      exact ⟨a :: chain, .above hu hc⟩

open Classical in
/-- A way up has an end if it does not come back and only finitely many things have something
above them. -/
theorem exists_climb {all : List α} (ha : ∀ x, ¬ Relation.TransGen (up · = some ·) x x)
    (hall : ∀ x, (up x).isSome → x ∈ all) (a : α) : ∃ chain, Climb up a chain := by
  let above (x : α) : Finset α :=
    all.toFinset.filter fun y ↦ Relation.ReflTransGen (up · = some ·) x y
  refine exists_climb_of_lt (fun x ↦ (above x).card) (fun a b hu ↦ Finset.card_lt_card ?_) a
  have hsub : above b ⊆ above a := by
    intro y hy
    rw [Finset.mem_filter] at hy ⊢
    exact ⟨hy.1, .head hu hy.2⟩
  refine Finset.ssubset_iff_subset_ne.mpr ⟨hsub, fun heq ↦ ha a ?_⟩
  have hmem : a ∈ above b := by
    rw [heq, Finset.mem_filter, List.mem_toFinset]
    exact ⟨hall a (by simp [hu]), .refl⟩
  exact .head' hu (Finset.mem_filter.mp hmem).2

end Quill
