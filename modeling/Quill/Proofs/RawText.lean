import Mathlib.Data.List.Chain
import Mathlib.Data.List.Nodup
import Mathlib.Data.List.Perm.Subperm
import Mathlib.Logic.Relation
import Quill.Proofs.Composition.Task

/-!
# Raw texts

The raw text of a value calls no method, and goes into lists as deep as it has to
(`State.rawText?_list`). So only what does not contain itself has one: `State.isSome_rawText?_iff`.
-/

namespace Quill

namespace State

variable {s : State} {v : Value} {l l' : ListId} {n k : Nat}

/-- The second list is an item of the first one. -/
def HasItem (s : State) (l l' : ListId) : Prop := .list l' ∈ (s.items l).toList

/-- There is a list in the value, or the value itself, that is in itself. -/
def ContainsItself (s : State) (v : Value) : Prop :=
  ∃ l l', v = .list l ∧ Relation.ReflTransGen s.HasItem l l' ∧ Relation.TransGen s.HasItem l' l'

theorem HasItem.index_lt (h : s.HasItem l l') : l.index < s.lists.size := by
  by_contra hle
  have hnone : s.lists[l.index]? = none := Array.getElem?_eq_none (by omega)
  simp [HasItem, items, hnone] at h

theorem isSome_mapM {α β : Type} {f : α → Option β} {xs : List α} :
    (xs.mapM f).isSome = xs.all fun x ↦ (f x).isSome := by
  induction xs with
  | nil => rfl
  | cons x xs ih =>
    rw [List.mapM_cons, List.all_cons, ← ih]
    cases f x with
    | none => rfl
    | some y => cases xs.mapM f <;> rfl

theorem mapM_eq_of_forall {α β : Type} {f g : α → Option β} {xs : List α}
    (h : ∀ x ∈ xs, f x = g x) : xs.mapM f = xs.mapM g := by
  induction xs with
  | nil => rfl
  | cons x xs ih =>
    obtain ⟨hx, hxs⟩ := List.forall_mem_cons.mp h
    rw [List.mapM_cons, List.mapM_cons, hx, ih hxs]

theorem isSome_rawTextWithin_succ : (s.rawTextWithin (n + 1) (.list l)).isSome =
    (s.items l).toList.all fun v ↦ (s.rawTextWithin n v).isSome := by
  rw [rawTextWithin, Option.isSome_map, isSome_mapM]

theorem exists_chain_of_none (h : s.rawTextWithin n v = none) :
    ∃ l ls, v = .list l ∧ ls.length = n ∧ (l :: ls).IsChain s.HasItem := by
  induction n generalizing v with
  | zero =>
    cases v with
    | list l => exact ⟨l, [], rfl, rfl, .singleton l⟩
    | _ => cases h
  | succ n ih =>
    cases v with
    | list l =>
      rw [← Option.not_isSome_iff_eq_none, isSome_rawTextWithin_succ, List.all_eq_true] at h
      push Not at h
      obtain ⟨item, hitem, hnone⟩ := h
      obtain ⟨l', ls, rfl, hlength, hchain⟩ := ih (Option.not_isSome_iff_eq_none.mp hnone)
      exact ⟨l, l' :: ls, rfl, by simp [hlength], .cons_cons hitem hchain⟩
    | _ => cases h

theorem exists_item_of_mem {ls : List ListId} (h : (l :: ls).IsChain s.HasItem)
    (hl : l' ∈ (l :: ls).dropLast) : ∃ l'', s.HasItem l' l'' := by
  induction ls generalizing l with
  | nil => simp at hl
  | cons l₁ ls ih =>
    obtain ⟨hfirst, hrest⟩ := List.isChain_cons_cons.mp h
    rw [List.dropLast_cons_cons] at hl
    rcases List.mem_cons.mp hl with rfl | hl
    · exact ⟨l₁, hfirst⟩
    · exact ih hrest hl

theorem nodup_of_chain {R : ListId → ListId → Prop} {ls : List ListId} (h : (l :: ls).IsChain R)
    (hloop : ∀ l', Relation.ReflTransGen R l l' → ¬ Relation.TransGen R l' l') :
    (l :: ls).Nodup := by
  have hpairs : (l :: ls).Pairwise (Relation.TransGen R) :=
    (h.imp fun _ _ ↦ Relation.TransGen.single).pairwise
  have hwithin (l' : ListId) (hl' : l' ∈ l :: ls) : Relation.ReflTransGen R l l' := by
    rcases List.mem_cons.mp hl' with rfl | hl'
    · exact .refl
    · exact ((List.pairwise_cons.mp hpairs).1 l' hl').to_reflTransGen
  refine hpairs.imp_of_mem fun {a b} ha _ hab heq ↦ hloop a (hwithin a ha) ?_
  rwa [← heq] at hab

theorem length_le_of_nodup {ls : List ListId} (h : (l :: ls).IsChain s.HasItem)
    (hnodup : (l :: ls).Nodup) : ls.length ≤ s.lists.size := by
  have hinjective : Function.Injective ListId.index := fun ⟨_⟩ ⟨_⟩ h ↦ congrArg _ h
  have hindices : ((l :: ls).dropLast.map ListId.index).Nodup :=
    List.Nodup.map hinjective (hnodup.sublist (List.dropLast_sublist _))
  have hsubset : (l :: ls).dropLast.map ListId.index ⊆ List.range s.lists.size := by
    intro i hi
    obtain ⟨l', hl', rfl⟩ := List.mem_map.mp hi
    obtain ⟨l'', hitem⟩ := exists_item_of_mem h hl'
    exact List.mem_range.mpr hitem.index_lt
  have hle := (List.subperm_of_subset hindices hsubset).length_le
  simpa using hle

theorem length_chain_le {ls : List ListId} (h : (l :: ls).IsChain s.HasItem)
    (hv : ¬ s.ContainsItself (.list l)) : ls.length ≤ s.lists.size :=
  length_le_of_nodup h (nodup_of_chain h fun l' hwithin hloop ↦ hv ⟨l, l', rfl, hwithin, hloop⟩)

theorem isSome_rawTextWithin (hv : ¬ s.ContainsItself v) (hn : s.lists.size < n) :
    (s.rawTextWithin n v).isSome := by
  by_contra hnone
  obtain ⟨l, ls, rfl, hlength, hchain⟩ :=
    exists_chain_of_none (Option.not_isSome_iff_eq_none.mp hnone)
  have hle := length_chain_le hchain hv
  omega

theorem ContainsItself.next (h : s.ContainsItself (.list l)) :
    ∃ l', s.HasItem l l' ∧ s.ContainsItself (.list l') := by
  obtain ⟨_, l', ⟨⟩, hwithin, hloop⟩ := h
  obtain rfl | ⟨l₁, hfirst, hrest⟩ := hwithin.cases_head
  · obtain ⟨l₁, hfirst, hback⟩ := Relation.TransGen.head'_iff.mp hloop
    exact ⟨l₁, hfirst, l₁, l, rfl, hback, hloop⟩
  · exact ⟨l₁, hfirst, l₁, l', rfl, hrest, hloop⟩

theorem ContainsItself.rawTextWithin (h : s.ContainsItself (.list l)) :
    s.rawTextWithin n (.list l) = none := by
  induction n generalizing l with
  | zero => rfl
  | succ n ih =>
    obtain ⟨l', hitem, hagain⟩ := h.next
    rw [← Option.not_isSome_iff_eq_none, isSome_rawTextWithin_succ, List.all_eq_true]
    intro hall
    have hsome := hall _ hitem
    rw [ih hagain] at hsome
    cases hsome

/-- A value has a raw text exactly if it does not contain itself. -/
theorem isSome_rawText?_iff : (s.rawText? v).isSome ↔ ¬ s.ContainsItself v := by
  constructor
  · rintro hsome ⟨l, l', rfl, hloop⟩
    have hnone : s.rawText? (.list l) = none := ContainsItself.rawTextWithin ⟨l, l', rfl, hloop⟩
    rw [hnone] at hsome
    cases hsome
  · exact fun hv ↦ isSome_rawTextWithin hv (Nat.lt_succ_self _)

theorem rawText?_eq_none_iff : s.rawText? v = none ↔ s.ContainsItself v := by
  rw [← Option.not_isSome_iff_eq_none, isSome_rawText?_iff, not_not]

theorem rawTextWithin_mono {text : String} (h : s.rawTextWithin n v = some text) (hk : n ≤ k) :
    s.rawTextWithin k v = some text := by
  induction n generalizing v k text with
  | zero =>
    cases v with
    | list l => cases h
    | _ => simpa [State.rawTextWithin] using h
  | succ n ih =>
    obtain ⟨k, rfl⟩ : ∃ j, k = j + 1 := ⟨k - 1, by omega⟩
    cases v with
    | list l =>
      have hall : (s.rawTextWithin (n + 1) (.list l)).isSome := by simp [h]
      rw [isSome_rawTextWithin_succ, List.all_eq_true] at hall
      have hsame : (s.items l).toList.mapM (s.rawTextWithin n) =
          (s.items l).toList.mapM (s.rawTextWithin k) := by
        refine mapM_eq_of_forall fun item hitem ↦ ?_
        obtain ⟨text', htext'⟩ := Option.isSome_iff_exists.mp (hall item hitem)
        rw [htext', ih htext' (by omega)]
      rwa [State.rawTextWithin, hsame] at h
    | _ => simpa [State.rawTextWithin] using h

/-- The raw text of a list is made of those of its items, whatever bound they are looked for
with. -/
theorem rawText?_list : s.rawText? (.list l) =
    ((s.items l).toList.mapM s.rawText?).map fun texts ↦ "[" ++ ", ".intercalate texts ++ "]" := by
  cases htext : s.rawText? (.list l) with
  | some text =>
    have hmore := rawTextWithin_mono htext (Nat.le_succ _)
    exact hmore.symm
  | none =>
    obtain ⟨l', hitem, hagain⟩ := ContainsItself.next (rawText?_eq_none_iff.mp htext)
    have hnone : (s.items l).toList.mapM s.rawText? = none := by
      rw [← Option.not_isSome_iff_eq_none, isSome_mapM, List.all_eq_true]
      intro hall
      have hsome := hall _ hitem
      rw [rawText?_eq_none_iff.mpr hagain] at hsome
      cases hsome
    rw [hnone]
    rfl

end State

namespace Machine

variable {t : Task} {s : State} {m m' : Machine}

/-- The machine looks for the raw text of a value that contains itself. -/
def Circles (m : Machine) : Prop := ∃ v, m.task = .rawText v ∧ m.work.state.ContainsItself v

theorem rawText_kept : Kept (fun _ ↦ ()) fun m ↦
    ∀ v, m.task = .rawText v → ∃ s, m.work = (Task.rawText v).work s where
  starts := by
    rintro t t' s resume ps - v rfl
    exact ⟨s, rfl⟩
  resumes h _ _ v hv := by
    obtain ⟨s, hs⟩ := h v hv
    rw [Task.work_rawText] at hs
    cases hs
  givesWay {t t' s ps} _ := by
    refine ⟨?_, rfl⟩
    rintro v rfl
    exact ⟨s, rfl⟩

theorem Reaches.circles_next (h : (start t s).Reaches m) (hm : m.Circles) : m.next = .inl m := by
  obtain ⟨v, htask, hself⟩ := hm
  obtain ⟨s', hwork⟩ := rawText_kept.reaches (by
    rintro v rfl
    exact ⟨s, rfl⟩) h v htask
  obtain ⟨t', x, ps⟩ := m
  dsimp only at htask hwork hself
  subst htask hwork
  rw [Task.work_rawText] at hself
  have hnone : s'.rawText? v = none := State.rawText?_eq_none_iff.mpr hself
  rw [Task.work_rawText, hnone]
  simp only [next, Task.work_rawText, hnone]

theorem run_none_of_reaches (h : m.Reaches m') (hm : ∀ n, m'.run n = none) (n : Nat) :
    m.run n = none := by
  induction h using Relation.ReflTransGen.head_induction_on generalizing n with
  | refl => exact hm n
  | head hn _ ih =>
    cases n with
    | zero => rfl
    | succ n =>
      rw [run, hn]
      exact ih n

theorem Reaches.run_none (h : (start t s).Reaches m) (hm : m.Circles) (n : Nat) :
    (start t s).run n = none := by
  refine run_none_of_reaches h (fun n ↦ ?_) n
  induction n with
  | zero => rfl
  | succ n ih => rwa [run, h.circles_next hm]

theorem Reaches.not_circles {n : Nat} {r : Outcome Value × State} (h : (start t s).Reaches m)
    (hrun : (start t s).run n = some r) : ¬ m.Circles := by
  intro hm
  cases (h.run_none hm n).symm.trans hrun

end Machine

theorem Interpreter.run_none_of_circles {i : Interpreter} {p : Program} {m : Machine}
    (h : (i.machine p).Reaches m) (hm : m.Circles) (fuel : Nat) : i.run p fuel = none := by
  cases hrun : i.run p fuel with
  | none => rfl
  | some r =>
    obtain ⟨o, s, j, hend, -⟩ := run_eq_some.mp hrun
    cases (Machine.Reaches.run_none h hm fuel).symm.trans hend

end Quill
