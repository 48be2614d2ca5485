import Quill.Proofs.Binding
import Quill.Proofs.Regime.Run
import Quill.Proofs.ScopeForest

/-!
# Scopes around code

Code that runs in new scopes gives new values to what the older ones bind, but none of them gets a
name. If it runs in an older scope, too, that one gets no name but those that were not seen from
there. Main statements: `Regime.inside` and `State.Encloses.owner`.
-/

namespace Quill

namespace Scopes

variable {α : Type} {s s' : Scopes α} {id there outer : ScopeId} {name : String} {n : Nat}

theorem made_of_binds (h : s.binds name id = true) : s.Made id := by
  by_contra hm
  have hnone : s.all[id.index]? = none := Array.getElem?_eq_none (Nat.le_of_not_lt hm)
  rw [binds, bindings, hnone] at h
  cases h

theorem made_of_parent (h : s.parent id = some outer) : s.Made id := by
  by_contra hm
  rw [parent, Array.getElem?_eq_none (Nat.le_of_not_lt hm)] at h
  cases h

theorem binds_iff : s.binds name id = true ↔ name ∈ s.names id := Bindings.get?_isSome _ name

theorem define_of_not_made (h : ¬ s.Made id) (name : String) (v : α) : s.define id name v = s := by
  have hsame : s.all.modify id.index
      (fun scope ↦ { scope with bindings := scope.bindings.set name v }) = s.all := by
    refine Array.ext_getElem? fun i ↦ ?_
    rw [Array.getElem?_modify]
    split
    · rename_i hi
      rw [← hi, Array.getElem?_eq_none (Nat.le_of_not_lt h)]
      rfl
    · rfl
  rw [define, hsame]

theorem names_define (hm : s.Made there) (name : String) (v : α) (id : ScopeId) :
    (s.define there name v).names id =
      if id = there then addNew (s.names there) [name] else s.names id := by
  rw [names, bindings_define hm]
  split
  · exact Bindings.names_set _ name v
  · rfl

theorem names_define_of_binds (h : s.binds name there = true) (v : α) (id : ScopeId) :
    (s.define there name v).names id = s.names id := by
  rw [names_define (made_of_binds h)]
  split
  · rename_i heq
    rw [heq, addNew_of_subset (List.cons_subset.mpr ⟨binds_iff.mp h, List.nil_subset _⟩)]
  · rfl

theorem binds_define_of_ne {other : String} (hne : other ≠ name) (v : α) (id : ScopeId) :
    (s.define there name v).binds other id = s.binds other id := by
  by_cases hm : s.Made there
  · rw [binds, binds, bindings_define hm]
    split
    · rename_i heq
      rw [Bindings.get?_set, if_neg (Ne.symm hne), heq]
    · rfl
  · rw [define_of_not_made hm]

theorem ownerWithin_succ (s : Scopes α) (name : String) (n : Nat) (id : ScopeId) :
    s.ownerWithin name (n + 1) id =
      if s.binds name id then some id else (s.parent id).bind (s.ownerWithin name n) := by
  rw [ownerWithin, binds]
  cases (s.bindings id).get? name with
  | some v => rfl
  | none => cases s.parent id <;> rfl

theorem ownerWithin_mono (h : s.ownerWithin name n id = some there) {k : Nat} (hk : n ≤ k) :
    s.ownerWithin name k id = some there := by
  induction n generalizing id k with
  | zero => cases h
  | succ n ih =>
    obtain ⟨k, rfl⟩ := Nat.exists_eq_succ_of_ne_zero (by omega : k ≠ 0)
    rw [ownerWithin_succ] at h ⊢
    split
    · rwa [if_pos ‹_›] at h
    · rw [if_neg ‹_›] at h
      obtain ⟨outer, ho, h⟩ := Option.bind_eq_some_iff.mp h
      exact Option.bind_eq_some_iff.mpr ⟨outer, ho, ih h (by omega)⟩

theorem binds_of_owner (h : s.owner id name = some there) : s.binds name there = true := by
  unfold owner at h
  generalize id.index + 1 = n at h
  induction n generalizing id with
  | zero => cases h
  | succ n ih =>
    rw [ownerWithin_succ] at h
    split at h
    · cases h
      assumption
    · obtain ⟨outer, -, h⟩ := Option.bind_eq_some_iff.mp h
      exact ih h

theorem owner_of_parent (hb : s.binds name id = false) (hp : s.parent id = some outer)
    (hlt : outer.index < id.index) (h : s.owner outer name = some there) :
    s.owner id name = some there := by
  rw [owner, ownerWithin_succ, hb, hp]
  exact ownerWithin_mono h hlt

theorem owner_isSome_mono (hp : ∀ id, s.Made id → s'.parent id = s.parent id)
    (hb : ∀ id name, s.binds name id = true → s'.binds name id = true)
    (h : (s.owner id name).isSome) : (s'.owner id name).isSome := by
  unfold owner at h ⊢
  generalize id.index + 1 = n at h ⊢
  induction n generalizing id with
  | zero => cases h
  | succ n ih =>
    rw [ownerWithin_succ] at h ⊢
    split
    · rfl
    · rename_i hnot
      rw [if_neg (mt (hb id name) hnot)] at h
      obtain ⟨there, h⟩ := Option.isSome_iff_exists.mp h
      obtain ⟨outer, ho, h⟩ := Option.bind_eq_some_iff.mp h
      rw [hp id (made_of_parent ho), ho]
      exact ih (Option.isSome_iff_exists.mpr ⟨there, h⟩)

theorem owner_same (hp : ∀ id, s.Made id → s'.parent id = s.parent id)
    (hb : ∀ id, s.Made id → s'.names id = s.names id)
    (h : s.owner id name = some there) : s'.owner id name = some there := by
  have hbinds (id : ScopeId) (hm : s.Made id) : s'.binds name id = s.binds name id := by
    rw [Bool.eq_iff_iff, binds_iff, binds_iff, hb id hm]
  unfold owner at h ⊢
  generalize id.index + 1 = n at h ⊢
  induction n generalizing id with
  | zero => cases h
  | succ n ih =>
    rw [ownerWithin_succ] at h ⊢
    split at h
    · rename_i hbind
      rwa [if_pos ((hbinds id (made_of_binds hbind)).trans hbind)]
    · rename_i hnot
      obtain ⟨outer, ho, h⟩ := Option.bind_eq_some_iff.mp h
      have hm := made_of_parent ho
      rw [hbinds id hm, if_neg hnot, hp id hm, ho]
      exact ih h

theorem owner_eq (hp : ∀ id, s.Made id → s'.parent id = s.parent id)
    (hb : ∀ id, s.Made id → s'.names id = s.names id)
    (hin : ∀ id outer, s.parent id = some outer → s.Made outer) (hm : s.Made id) :
    s'.owner id name = s.owner id name := by
  unfold owner
  generalize id.index + 1 = n
  induction n generalizing id with
  | zero => rfl
  | succ n ih =>
    have hbinds : s'.binds name id = s.binds name id := by
      rw [Bool.eq_iff_iff, binds_iff, binds_iff, hb id hm]
    rw [ownerWithin_succ, ownerWithin_succ, hbinds, hp id hm]
    cases ho : s.parent id with
    | none => rfl
    | some outer =>
      change (if _ then _ else s'.ownerWithin name n outer) =
        if _ then _ else s.ownerWithin name n outer
      rw [ih (hin id outer ho)]

/-- A name that is given a value from one place has it for all that find the name in the same
scope. -/
theorem get?_set_of_owner {other : ScopeId} (ho : s.owner id name = some there)
    (ho' : s.owner other name = some there) (v : α) :
    (s.set id name v).get? other name = some v := by
  have hb := binds_of_owner ho
  have hfound : (s.define there name v).owner other name = some there :=
    owner_same (fun _ _ ↦ parent_define ..) (fun k _ ↦ names_define_of_binds hb v k) ho'
  rw [set, ho, Option.getD_some, get?, hfound]
  simp only [bindings_define (made_of_binds hb), if_true, Bindings.get?_set_self]

end Scopes

namespace State

variable {n : Nat} {c : Option ScopeId} {s s' s'' : State} {id : ScopeId} {name : String}

/-- From the first `n` scopes nothing is taken away and none but `c` gets a name. That one gets only
names that were not seen from there. -/
structure Encloses (n : Nat) (c : Option ScopeId) (s s' : State) : Prop where
  made : n ≤ s.scopes.all.size
  size : s.scopes.all.size ≤ s'.scopes.all.size
  parent : ∀ id, s.scopes.Made id → s'.scopes.parent id = s.scopes.parent id
  binds : ∀ id name, s.scopes.binds name id = true → s'.scopes.binds name id = true
  names : ∀ id : ScopeId, id.index < n → c ≠ some id → s'.scopes.names id = s.scopes.names id
  own : ∀ id name, c = some id → s'.scopes.binds name id = true →
    s.scopes.binds name id = true ∨ s.scopes.owner id name = none

namespace Encloses

theorem of_same (hn : n ≤ s.scopes.all.size) (h : s'.scopes = s.scopes) : s.Encloses n c s' where
  made := hn
  size := h ▸ Nat.le_refl _
  parent _ _ := by rw [h]
  binds _ _ hb := by rwa [h]
  names _ _ _ := by rw [h]
  own _ _ _ hb := .inl (by rwa [h] at hb)

theorem trans (h : s.Encloses n c s') (h' : s'.Encloses n c s'') : s.Encloses n c s'' where
  made := h.made
  size := Nat.le_trans h.size h'.size
  parent id hm := (h'.parent id (Nat.lt_of_lt_of_le hm h.size)).trans (h.parent id hm)
  binds id name hb := h'.binds id name (h.binds id name hb)
  names id hid hne := (h'.names id hid hne).trans (h.names id hid hne)
  own id name hc hb := by
    obtain hb | hnone := h'.own id name hc hb
    · exact h.own id name hc hb
    · -- what was seen before would still be seen
      refine .inr (Option.not_isSome_iff_eq_none.mp fun hsome ↦ ?_)
      have hsome' := Scopes.owner_isSome_mono h.parent h.binds hsome
      rw [hnone] at hsome'
      cases hsome'

theorem define (hn : n ≤ s.scopes.all.size) (v : Value)
    (h : n ≤ id.index ∧ c ≠ some id ∨ c = some id ∧ s.scopes.owner id name = none ∨
      s.scopes.binds name id = true) : s.Encloses n c (s.define id name v) := by
  by_cases hm : s.scopes.Made id
  · have hnames := Scopes.names_define hm name v
    have hsize : (s.define id name v).scopes.all.size = s.scopes.all.size := Array.size_modify
    have hkept (other : ScopeId) (name' : String) (hb : s.scopes.binds name' other = true) :
        (s.define id name v).scopes.binds name' other = true := by
      rw [Scopes.binds_iff] at hb ⊢
      rw [State.define, hnames]
      split
      · rename_i heq
        exact mem_addNew.mpr (.inl (heq ▸ hb))
      · exact hb
    refine ⟨hn, hsize ▸ Nat.le_refl _, fun other _ ↦ Scopes.parent_define .., hkept, ?_, ?_⟩
    · intro other hother hne
      -- The scope is a new one, or `c`, or has the name already, and no other scope changes.
      obtain ⟨hid, -⟩ | ⟨rfl, -⟩ | hb := h
      · rw [State.define, hnames, if_neg (by rintro rfl; omega)]
      · rw [State.define, hnames, if_neg (by rintro rfl; exact hne rfl)]
      · exact Scopes.names_define_of_binds hb v other
    · intro other name' hc hb
      rw [Scopes.binds_iff] at hb ⊢
      rw [State.define, hnames] at hb
      split at hb
      · rename_i heq
        subst heq
        obtain hb | hb := mem_addNew.mp hb
        · exact .inl hb
        · obtain rfl := List.mem_singleton.mp hb
          obtain ⟨-, hne⟩ | ⟨-, hnone⟩ | hb := h
          · exact absurd hc hne
          · exact .inr hnone
          · exact .inl (Scopes.binds_iff.mp hb)
      · exact .inl hb
  · have hsame := Scopes.define_of_not_made hm name v
    exact .of_same hn hsame

theorem assign (hn : n ≤ s.scopes.all.size) (v : Value)
    (h : n ≤ id.index ∧ c ≠ some id ∨ c = some id) : s.Encloses n c (s.assign id name v) := by
  cases ho : s.scopes.owner id name with
  | some there =>
    have hb := Scopes.binds_of_owner ho
    have hset : s.assign id name v = s.define there name v := by
      rw [State.assign, Scopes.set, ho]
      rfl
    rw [hset]
    exact .define hn v (.inr (.inr hb))
  | none =>
    have hset : s.assign id name v = s.define id name v := by
      rw [State.assign, Scopes.set, ho]
      rfl
    rw [hset]
    exact .define hn v (h.imp_right fun hc ↦ .inl ⟨hc, ho⟩)

theorem newScope (hn : n ≤ s.scopes.all.size) (outer : ScopeId) :
    s.Encloses n c (s.newScope outer).2 := by
  have hbindings (id : ScopeId) :
      (s.newScope outer).2.scopes.bindings id = s.scopes.bindings id := Scopes.bindings_push id
  have hbinds (id : ScopeId) (name : String) :
      (s.newScope outer).2.scopes.binds name id = s.scopes.binds name id := by
    rw [Scopes.binds, hbindings, Scopes.binds]
  refine ⟨hn, ?_, fun id hm ↦ Scopes.parent_push_of_made hm, fun id name hb ↦ ?_, fun id _ _ ↦ ?_,
    fun id name _ hb ↦ ?_⟩
  · simp [State.newScope, Scopes.child]
  · rwa [hbinds]
  · rw [Scopes.names, hbindings, Scopes.names]
  · exact .inl (by rwa [hbinds] at hb)

theorem defined (hn : n ≤ s.scopes.all.size) (hid : n ≤ id.index ∧ c ≠ some id)
    (found : Matched) : s.Encloses n c (State.defined id found s) := by
  induction found with
  | nil => exact .of_same hn rfl
  | cons b found ih => exact ih.trans (.define (Nat.le_trans hn ih.size) b.2 (.inl hid))

end Encloses

end State

/-- Code runs in new scopes, or else in `c`, and binds names in new ones only. -/
def Regime.inside (n : Nat) (c : Option ScopeId) (hc : ∀ id, c = some id → id.index < n) :
    Regime where
  Fit s := n ≤ s.scopes.all.size
  Becomes s s' := s.Encloses n c s'
  Allows _ := True
  Around _ _ := True
  Open _ id := n ≤ id.index ∨ c = some id
  Own _ id := n ≤ id.index
  Near _ _ := True
  refl h := .of_same h rfl
  trans := .trans
  fit h := Nat.le_trans h.made h.size
  child _ _ := trivial
  around_mono _ _ := trivial
  open_mono _ := id
  own_mono _ := id
  near_mono _ := id
  open_of_own := .inl
  near_of_open _ := trivial
  same h _ hs _ := .of_same h hs
  define _ v h hid := .define h v (.inl ⟨hid, fun he ↦ Nat.not_lt.mpr hid (hc _ he)⟩)
  assign _ v h hid := by
    refine .assign h v (hid.imp_left fun hle ↦ ⟨hle, fun he ↦ ?_⟩)
    exact Nat.not_lt.mpr hle (hc _ he)
  newScope h _ := .newScope h _
  fresh h := h
  root _ := trivial
  newLambda h _ _ _ := .of_same h rfl
  lambda _ _ := ⟨⟨trivial, trivial⟩, trivial⟩
  retype h _ := .of_same h rfl
  declared _ _ _ _ _ := trivial
  opened _ _ := trivial
  method _ _ := ⟨trivial, fun _ _ ↦ trivial⟩

/-- Any code may run, and inside of any type or module. -/
structure Regime.IsLenient (R : Regime) : Prop where
  allows : ∀ n, R.Allows n
  around : ∀ s t, R.Around s t

theorem Regime.inside_isLenient (n : Nat) (c : Option ScopeId)
    (hc : ∀ id, c = some id → id.index < n) : (inside n c hc).IsLenient :=
  ⟨fun _ ↦ trivial, fun _ _ ↦ trivial⟩

end Quill
