import Quill.Scope
import Quill.Proofs.Ancestry
import Quill.Proofs.Climbing

/-!
# The forest of scopes

Scopes are written through handles, several of which may be for one scope. Main statement:
`scopes_lawful` says after any operations which scope the next one writes and from where what it
wrote is seen.
-/

namespace Quill

variable {α : Type}

namespace Bindings

theorem keys_update (name : String) (value : α) (l : List (String × α)) :
    (update name value l).map (·.1) =
      if name ∈ l.map (·.1) then l.map (·.1) else l.map (·.1) ++ [name] := by
  induction l with
  | nil => simp [update]
  | cons p rest ih =>
    obtain ⟨k, v⟩ := p
    rw [update, List.map_cons]
    by_cases hk : k = name
    · simp [hk]
    · rw [if_neg hk, List.map_cons, ih]
      by_cases hm : name ∈ rest.map (·.1)
      · rw [if_pos hm, if_pos (List.mem_cons_of_mem _ hm)]
      · rw [if_neg hm, if_neg (by simp [Ne.symm hk, hm]), List.cons_append]

theorem names_set (b : Bindings α) (name : String) (value : α) :
    (b.set name value).names = addNew b.names [name] :=
  keys_update name value b.entries

theorem lookup_isSome (name : String) (l : List (String × α)) :
    (lookup name l).isSome ↔ name ∈ l.map (·.1) := by
  induction l with
  | nil => simp [lookup]
  | cons p rest ih =>
    rw [lookup, List.map_cons, List.mem_cons, ← ih]
    by_cases hk : p.1 = name
    · simp [hk]
    · simp [hk, Ne.symm hk]

theorem get?_isSome (b : Bindings α) (name : String) :
    (b.get? name).isSome ↔ name ∈ b.names :=
  lookup_isSome name b.entries

end Bindings

namespace Scopes

variable {s s' : Scopes α} {id there outer : ScopeId} {chain : List ScopeId} {name : String}

def empty : Scopes α := ⟨#[]⟩

/-- Makes a scope with none around it; its number is `s.fresh`. -/
def addRoot (s : Scopes α) : Scopes α := ⟨s.all.push ⟨.empty, none⟩⟩

def Made (s : Scopes α) (id : ScopeId) : Prop := id.index < s.all.size

def IsForest (s : Scopes α) : Prop :=
  ∀ id outer, s.parent id = some outer → outer.index < id.index

/-- The scopes from one outward, to the one that has none around it. -/
abbrev Outward (s : Scopes α) : ScopeId → List ScopeId → Prop := Climb s.parent

def binds (s : Scopes α) (name : String) (id : ScopeId) : Bool :=
  ((s.bindings id).get? name).isSome

theorem IsForest.outward (hs : s.IsForest) (id : ScopeId) : ∃ chain, s.Outward id chain :=
  exists_climb_of_lt ScopeId.index hs id

theorem ownerWithin_eq_find? (hs : s.IsForest) (hc : s.Outward id chain) {n : Nat}
    (hn : id.index < n) : s.ownerWithin name n id = chain.find? (s.binds name) := by
  induction hc generalizing n with
  | @last id hp =>
    obtain ⟨n, rfl⟩ := Nat.exists_eq_succ_of_ne_zero (Nat.ne_zero_of_lt hn)
    rw [ownerWithin, List.find?_cons, binds, hp]
    cases (s.bindings id).get? name <;> rfl
  | @above id outer chain hp _ ih =>
    obtain ⟨n, rfl⟩ := Nat.exists_eq_succ_of_ne_zero (Nat.ne_zero_of_lt hn)
    have hlt := hs id outer hp
    rw [ownerWithin, List.find?_cons, binds, hp]
    cases (s.bindings id).get? name with
    | some v => rfl
    | none => exact ih (by omega)

theorem owner_eq_find? (hs : s.IsForest) (hc : s.Outward id chain) (name : String) :
    s.owner id name = chain.find? (s.binds name) :=
  ownerWithin_eq_find? hs hc (Nat.lt_succ_self _)

theorem findSome?_eq_bind_find? (s : Scopes α) (name : String) (chain : List ScopeId) :
    chain.findSome? (fun k ↦ (s.bindings k).get? name) =
      (chain.find? (s.binds name)).bind fun k ↦ (s.bindings k).get? name := by
  induction chain with
  | nil => rfl
  | cons k chain ih =>
    rw [List.findSome?_cons, List.find?_cons, binds]
    cases hk : (s.bindings k).get? name with
    | some v => exact hk.symm
    | none => exact ih

theorem get?_eq_findSome? (hs : s.IsForest) (hc : s.Outward id chain) (name : String) :
    s.get? id name = chain.findSome? fun k ↦ (s.bindings k).get? name := by
  rw [get?, owner_eq_find? hs hc, findSome?_eq_bind_find?]
  cases chain.find? (s.binds name) <;> rfl

@[simp] theorem parent_define (s : Scopes α) (there : ScopeId) (name : String) (value : α)
    (id : ScopeId) : (s.define there name value).parent id = s.parent id := by
  rw [define, parent, parent, Array.getElem?_modify]
  by_cases h : there.index = id.index
  · cases hid : s.all[id.index]? with
    | none => simp
    | some scope => simp [h]
  · simp [h]

theorem bindings_define (hm : s.Made there) (name : String) (value : α) (id : ScopeId) :
    (s.define there name value).bindings id =
      if id = there then (s.bindings there).set name value else s.bindings id := by
  rw [define, bindings, bindings, bindings, Array.getElem?_modify]
  by_cases h : id = there
  · subst h
    have hid : s.all[id.index]? = some s.all[id.index] := Array.getElem?_eq_getElem hm
    simp [hid]
  · have hne : there.index ≠ id.index := fun he ↦ h (by cases id; cases there; simp_all)
    simp [h, hne]

theorem made_define {value : α} : (s.define there name value).Made id ↔ s.Made id := by
  simp [Made, define]

theorem outward_define {value : α} :
    (s.define there name value).Outward id chain ↔ s.Outward id chain :=
  ⟨fun h ↦ h.congr fun _ _ ↦ (parent_define ..).symm, fun h ↦ h.congr fun _ _ ↦ parent_define ..⟩

theorem IsForest.define (hs : s.IsForest) (there : ScopeId) (name : String) (value : α) :
    (s.define there name value).IsForest :=
  fun id outer hp ↦ hs id outer (by simpa using hp)

/-- The scope `there` was written: `name` has a new value wherever the binding in `there` is the
first on the way outward, and nothing else is different. -/
structure Written (s s' : Scopes α) (there : ScopeId) (name : String) (value : α) : Prop where
  made : ∀ id, s'.Made id ↔ s.Made id
  outward : ∀ id chain, s'.Outward id chain ↔ s.Outward id chain
  self : s'.bindings there = (s.bindings there).set name value
  others : ∀ id, id ≠ there → s'.bindings id = s.bindings id
  seen : ∀ id chain, s'.Outward id chain → ∀ other, s'.get? id other =
    if other = name ∧ chain.find? (s'.binds name) = some there then some value
    else s.get? id other

theorem define_written (hs : s.IsForest) (hm : s.Made there) (name : String) (value : α) :
    s.Written (s.define there name value) there name value where
  made _ := made_define
  outward _ _ := outward_define
  self := by rw [bindings_define hm, if_pos rfl]
  others id hid := by rw [bindings_define hm, if_neg hid]
  seen id chain hc other := by
    rw [get?_eq_findSome? (hs.define there name value) hc,
      get?_eq_findSome? hs (outward_define.mp hc)]
    clear hc
    induction chain with
    | nil => simp
    | cons k chain ih =>
      have hself : (s.define there name value).binds name there = true := by
        rw [binds, bindings_define hm, if_pos rfl, Bindings.get?_set_self, Option.isSome_some]
      rw [List.findSome?_cons, List.findSome?_cons, List.find?_cons]
      by_cases hk : k = there
      · -- the chain comes to the scope that was written
        subst hk
        rw [hself, bindings_define hm, if_pos rfl, Bindings.get?_set]
        by_cases ho : other = name
        · simp [ho]
        · simp only [ho, Ne.symm ho, if_false, false_and] at ih ⊢
          rw [ih]
      · rw [ih, binds, bindings_define hm, if_neg hk]
        by_cases ho : other = name
        · subst ho
          cases (s.bindings k).get? other with
          | none => rfl
          | some v => simp [hk]
        · simp [ho]

theorem IsForest.made_outward (hs : s.IsForest) (hm : s.Made id) (hc : s.Outward id chain) :
    ∀ k ∈ chain, s.Made k := by
  induction hc with
  | last => simpa using hm
  | above hp _ ih =>
    have hlt := hs _ _ hp
    exact List.forall_mem_cons.mpr ⟨hm, ih (Nat.lt_trans hlt hm)⟩

theorem IsForest.made_owner (hs : s.IsForest) (hm : s.Made id) (name : String) :
    s.Made ((s.owner id name).getD id) := by
  obtain ⟨chain, hc⟩ := hs.outward id
  rw [owner_eq_find? hs hc]
  cases hf : chain.find? (s.binds name) with
  | none => exact hm
  | some k => exact hs.made_outward hm hc k (List.mem_of_find?_eq_some hf)

theorem set_written (hs : s.IsForest) (hm : s.Made id) (hc : s.Outward id chain)
    (name : String) (value : α) :
    s.Written (s.set id name value) ((chain.find? (s.binds name)).getD id) name value := by
  rw [← owner_eq_find? hs hc]
  exact define_written hs (hs.made_owner hm name) name value

/-- A scope was made that binds nothing, inside those `around` it. -/
structure Added (s s' : Scopes α) (around : List ScopeId) : Prop where
  unused : ¬ s.Made s.fresh
  made : ∀ id, s'.Made id ↔ s.Made id ∨ id = s.fresh
  outward : s'.Outward s.fresh (s.fresh :: around)
  bindings : ∀ id, s'.bindings id = if id = s.fresh then .empty else s.bindings id
  others : ∀ id, s.Made id → ∀ chain, s'.Outward id chain ↔ s.Outward id chain
  seen : ∀ id, s.Made id → ∀ name, s'.get? id name = s.get? id name

section

variable {s : Scopes α} {parent : Option ScopeId}

theorem not_made_fresh (s : Scopes α) : ¬ s.Made s.fresh := Nat.lt_irrefl _

theorem made_push : Made ⟨s.all.push ⟨.empty, parent⟩⟩ id ↔ s.Made id ∨ id = s.fresh := by
  obtain ⟨i⟩ := id
  simp only [Made, Array.size_push, fresh, ScopeId.mk.injEq]
  omega

theorem bindings_push (id : ScopeId) :
    bindings ⟨s.all.push ⟨.empty, parent⟩⟩ id = s.bindings id := by
  rw [bindings, bindings, Array.getElem?_push]
  by_cases h : id.index = s.all.size
  · rw [if_pos h, h, Array.getElem?_eq_none (Nat.le_refl _)]
  · rw [if_neg h]

theorem bindings_fresh (s : Scopes α) : s.bindings s.fresh = .empty := by
  rw [bindings, fresh, Array.getElem?_eq_none (Nat.le_refl _)]

theorem parent_push_fresh : Scopes.parent ⟨s.all.push ⟨.empty, parent⟩⟩ s.fresh = parent := by
  rw [Scopes.parent, fresh, Array.getElem?_push, if_pos rfl]

theorem parent_push_of_made (hm : s.Made id) :
    Scopes.parent ⟨s.all.push ⟨.empty, parent⟩⟩ id = s.parent id := by
  rw [Scopes.parent, Scopes.parent, Array.getElem?_push, if_neg (Nat.ne_of_lt hm)]

theorem IsForest.push (hs : s.IsForest) (hp : ∀ outer ∈ parent, s.Made outer) :
    IsForest ⟨s.all.push ⟨.empty, parent⟩⟩ := by
  intro id outer ho
  by_cases hm : s.Made id
  · exact hs id outer (by rwa [parent_push_of_made hm] at ho)
  · by_cases hf : id = s.fresh
    · subst hf
      rw [parent_push_fresh] at ho
      exact hp outer ho
    · have hnot : ¬ Made ⟨s.all.push ⟨.empty, parent⟩⟩ id := fun h ↦ (made_push.mp h).elim hm hf
      rw [Scopes.parent, Array.getElem?_eq_none (Nat.le_of_not_lt hnot)] at ho
      nomatch ho

theorem outward_push (hs : s.IsForest) (hm : s.Made id) :
    Outward ⟨s.all.push ⟨.empty, parent⟩⟩ id chain ↔ s.Outward id chain := by
  have hup {chain : List ScopeId} (hc : s.Outward id chain) :
      Outward ⟨s.all.push ⟨.empty, parent⟩⟩ id chain :=
    hc.congr fun k hk ↦ parent_push_of_made (hs.made_outward hm hc k hk)
  refine ⟨fun hc ↦ ?_, hup⟩
  obtain ⟨chain', hc'⟩ := hs.outward id
  rwa [hc.unique (hup hc')]

theorem push_added (hs : s.IsForest) (hp : ∀ outer ∈ parent, s.Made outer)
    (hc : Outward ⟨s.all.push ⟨.empty, parent⟩⟩ s.fresh (s.fresh :: chain)) :
    s.Added ⟨s.all.push ⟨.empty, parent⟩⟩ chain where
  unused := s.not_made_fresh
  made _ := made_push
  outward := hc
  bindings id := by
    rw [bindings_push]
    split
    · rename_i h
      rw [h, bindings_fresh]
    · rfl
  others _ hm _ := outward_push hs hm
  seen id hm name := by
    obtain ⟨chain, hc⟩ := hs.outward id
    rw [get?_eq_findSome? (hs.push hp) ((outward_push hs hm).mpr hc), get?_eq_findSome? hs hc]
    simp only [bindings_push]

theorem addRoot_added (hs : s.IsForest) : s.Added s.addRoot [] :=
  push_added hs nofun (.last parent_push_fresh)

theorem child_added (hs : s.IsForest) (hm : s.Made outer) (hc : s.Outward outer chain) :
    s.Added (s.child outer) chain :=
  push_added hs (by simpa using hm) (.above parent_push_fresh ((outward_push hs hm).mpr hc))

end

end Scopes

/-- An operation on scopes through handles, which are numbered in the order they were got. -/
inductive ScopeOp (α : Type)
  | new
  | child (handle : Nat)
  | clone (handle : Nat)
  | define (handle : Nat) (name : String) (value : α)
  | set (handle : Nat) (name : String) (value : α)

def ScopeOp.rename (f : Nat → Nat) : ScopeOp α → ScopeOp α
  | .new => .new
  | .child h => .child (f h)
  | .clone h => .clone (f h)
  | .define h name value => .define (f h) name value
  | .set h name value => .set (f h) name value

structure ScopeWrite (α : Type) where
  scope : ScopeId
  name : String
  value : α

structure Handles (α : Type) where
  scopes : Scopes α
  table : List ScopeId

namespace Handles

open Scopes

def start : Handles α := ⟨.empty, []⟩

/-- An operation is done; there is none through a handle that was not got. -/
def after (w : Handles α) : ScopeOp α → Handles α
  | .new => ⟨w.scopes.addRoot, w.table ++ [w.scopes.fresh]⟩
  | .child h =>
    match w.table[h]? with
    | some id => ⟨w.scopes.child id, w.table ++ [w.scopes.fresh]⟩
    | none => w
  | .clone h =>
    match w.table[h]? with
    | some id => { w with table := w.table ++ [id] }
    | none => w
  | .define h name value =>
    match w.table[h]? with
    | some id => { w with scopes := w.scopes.define id name value }
    | none => w
  | .set h name value =>
    match w.table[h]? with
    | some id => { w with scopes := w.scopes.set id name value }
    | none => w

def run (ops : List (ScopeOp α)) : Handles α := ops.foldl after start

/-- What an operation binds, and in which scope. -/
def writes (w : Handles α) : ScopeOp α → List (ScopeWrite α)
  | .define h name value => w.table[h]?.toList.map (⟨·, name, value⟩)
  | .set h name value =>
    w.table[h]?.toList.map fun id ↦ ⟨(w.scopes.owner id name).getD id, name, value⟩
  | .new | .child _ | .clone _ => []

/-- What was bound, oldest first. -/
def log (ops : List (ScopeOp α)) : List (ScopeWrite α) :=
  (ops.foldl (fun (w, es) op ↦ (w.after op, es ++ w.writes op)) (start, [])).2

/-- Scopes are inside one another, and handles are for scopes that were made. -/
structure Sound (w : Handles α) : Prop where
  forest : w.scopes.IsForest
  made : ∀ id ∈ w.table, w.scopes.Made id

theorem run_snoc (ops : List (ScopeOp α)) (op : ScopeOp α) :
    run (ops ++ [op]) = (run ops).after op := by
  simp [run]

theorem log_snoc (ops : List (ScopeOp α)) (op : ScopeOp α) :
    log (ops ++ [op]) = log ops ++ (run ops).writes op := by
  have hfst (ops : List (ScopeOp α)) (p : Handles α × List (ScopeWrite α)) :
      (ops.foldl (fun (w, es) op ↦ (w.after op, es ++ w.writes op)) p).1 =
        ops.foldl after p.1 := by
    induction ops generalizing p with
    | nil => rfl
    | cons op ops ih => exact ih _
  simp only [log, List.foldl_append, List.foldl_cons, List.foldl_nil, hfst]
  rfl

variable {w : Handles α} {es : List (ScopeWrite α)}

theorem Sound.made_of_handle (hw : w.Sound) {h : Nat} {id : ScopeId} (hid : w.table[h]? = some id) :
    w.scopes.Made id :=
  hw.made id (List.mem_of_getElem? hid)

theorem Sound.push (hw : w.Sound) {parent : Option ScopeId}
    (hp : ∀ outer ∈ parent, w.scopes.Made outer) :
    Sound ⟨⟨w.scopes.all.push ⟨.empty, parent⟩⟩, w.table ++ [w.scopes.fresh]⟩ where
  forest := hw.forest.push hp
  made := List.forall_mem_append.mpr ⟨fun id hid ↦ made_push.mpr (.inl (hw.made id hid)),
    List.forall_mem_singleton.mpr (made_push.mpr (.inr rfl))⟩

theorem Sound.define (hw : w.Sound) (there : ScopeId) (name : String) (value : α) :
    Sound { w with scopes := w.scopes.define there name value } where
  forest := hw.forest.define there name value
  made id hid := made_define.mpr (hw.made id hid)

theorem Sound.after (hw : w.Sound) (op : ScopeOp α) : (w.after op).Sound := by
  cases op with
  | new => exact hw.push nofun
  | child h =>
    rw [Handles.after]
    cases hid : w.table[h]? with
    | none => exact hw
    | some outer => exact hw.push (by simpa using hw.made_of_handle hid)
  | clone h =>
    rw [Handles.after]
    cases hid : w.table[h]? with
    | none => exact hw
    | some id =>
      exact ⟨hw.forest, List.forall_mem_append.mpr
        ⟨hw.made, List.forall_mem_singleton.mpr (hw.made_of_handle hid)⟩⟩
  | define h name value =>
    rw [Handles.after]
    cases hid : w.table[h]? with
    | none => exact hw
    | some id => exact hw.define id name value
  | set h name value =>
    rw [Handles.after]
    cases hid : w.table[h]? with
    | none => exact hw
    | some id => exact hw.define _ name value

theorem sound_run (ops : List (ScopeOp α)) : (run ops).Sound := by
  induction ops using List.reverseRecOn with
  | nil => exact ⟨fun id outer hp ↦ by simp [run, start, Scopes.empty, parent] at hp, nofun⟩
  | append_singleton ops op ih =>
    rw [run_snoc]
    exact ih.after op

/-- Each scope binds what was written in it: the names in the order they came, with their last
values. -/
def Holds (s : Scopes α) (es : List (ScopeWrite α)) : Prop :=
  ∀ id, (s.names id = ((es.filter (·.scope = id)).map (·.name)).eraseDups) ∧
    ∀ name, (s.bindings id).get? name =
      (es.reverse.find? fun e ↦ e.scope = id ∧ e.name = name).map (·.value)

theorem Holds.define {s : Scopes α} {there : ScopeId} (h : Holds s es) (hm : s.Made there)
    (name : String) (value : α) :
    Holds (s.define there name value) (es ++ [⟨there, name, value⟩]) := by
  intro id
  obtain ⟨hnames, hget⟩ := h id
  rw [Scopes.names, bindings_define hm]
  by_cases hid : id = there
  · subst hid
    constructor
    · rw [if_pos rfl, Bindings.names_set, List.filter_append, List.map_append, ← addNew_nil,
        addNew_append, addNew_nil, ← hnames, List.filter_cons_of_pos (by simp)]
      rfl
    · intro other
      rw [if_pos rfl, Bindings.get?_set, List.reverse_append, List.reverse_singleton,
        List.singleton_append, List.find?_cons, hget]
      by_cases ho : name = other <;> simp [ho]
  · constructor
    · rw [if_neg hid, List.filter_append, List.filter_cons_of_neg (by simpa using Ne.symm hid),
        List.filter_nil, List.append_nil]
      exact hnames
    · intro other
      rw [if_neg hid, List.reverse_append, List.reverse_singleton, List.singleton_append,
        List.find?_cons_of_neg (by simp [Ne.symm hid]), hget]

theorem Holds.after (hw : w.Sound) (h : Holds w.scopes es) (op : ScopeOp α) :
    Holds (w.after op).scopes (es ++ w.writes op) := by
  have hpush {parent : Option ScopeId} : Holds ⟨w.scopes.all.push ⟨.empty, parent⟩⟩ es := by
    intro id
    rw [Scopes.names, bindings_push]
    exact h id
  cases op with
  | new => exact (List.append_nil es).symm ▸ hpush
  | child k =>
    rw [writes, List.append_nil, Handles.after]
    cases w.table[k]? with
    | none => exact h
    | some outer => exact hpush
  | clone k =>
    rw [writes, List.append_nil, Handles.after]
    cases w.table[k]? with
    | none => exact h
    | some id => exact h
  | define k name value =>
    rw [writes, Handles.after]
    cases hid : w.table[k]? with
    | none => simpa using h
    | some id => exact h.define (hw.made_of_handle hid) name value
  | set k name value =>
    rw [writes, Handles.after]
    cases hid : w.table[k]? with
    | none => simpa using h
    | some id =>
      exact h.define (hw.forest.made_owner (hw.made_of_handle hid) name) name value

theorem holds_log (ops : List (ScopeOp α)) : Holds (run ops).scopes (log ops) := by
  induction ops using List.reverseRecOn with
  | nil =>
    intro id
    simp [run, start, log, Scopes.empty, Scopes.names, bindings, Bindings.names, Bindings.empty,
      Bindings.get?, Bindings.lookup]
  | append_singleton ops op ih =>
    rw [run_snoc, log_snoc]
    exact ih.after (sound_run ops) op

theorem table_prefix (w : Handles α) (op : ScopeOp α) : w.table <+: (w.after op).table := by
  cases op <;> rw [Handles.after] <;> first | exact List.prefix_append .. | skip
  all_goals split <;> first | exact List.prefix_append .. | exact List.prefix_rfl

theorem foldl_rename {c h : Nat} {id : ScopeId} (hc : w.table[c]? = some id)
    (hh : w.table[h]? = some id) (ops : List (ScopeOp α)) :
    (ops.map (ScopeOp.rename fun k ↦ if k = c then h else k)).foldl after w =
      ops.foldl after w := by
  induction ops generalizing w with
  | nil => rfl
  | cons op ops ih =>
    have hlookup (k : Nat) : w.table[if k = c then h else k]? = w.table[k]? := by
      split
      · rename_i hk
        rw [hk, hc, hh]
      · rfl
    have hsame : w.after (op.rename fun k ↦ if k = c then h else k) = w.after op := by
      cases op <;> simp only [ScopeOp.rename, Handles.after, hlookup]
    rw [List.map_cons, List.foldl_cons, List.foldl_cons, hsame]
    -- Handles are never taken back, so both still stand for the scope after the operation.
    have hkeep {k : Nat} (hk : w.table[k]? = some id) : (w.after op).table[k]? = some id := by
      obtain ⟨new, hnew⟩ := table_prefix w op
      rw [← hnew, List.getElem?_append_left (List.getElem?_eq_some_iff.mp hk).1, hk]
    exact ih (hkeep hc) (hkeep hh)

theorem run_append (ops later : List (ScopeOp α)) :
    run (ops ++ later) = later.foldl after (run ops) := List.foldl_append

theorem run_clone {ops : List (ScopeOp α)} {h : Nat} {id : ScopeId}
    (hid : (run ops).table[h]? = some id) (later : List (ScopeOp α)) :
    run (ops ++ .clone h ::
        later.map (.rename fun k ↦ if k = (run ops).table.length then h else k)) =
      run (ops ++ .clone h :: later) := by
  rw [run_append, run_append, List.foldl_cons, List.foldl_cons]
  simp only [after, hid]
  have hold : ((run ops).table ++ [id])[h]? = some id := by
    rwa [List.getElem?_append_left (List.getElem?_eq_some_iff.mp hid).1]
  exact foldl_rename (by simp) hold later

/-- What holds of scopes after the operations `ops`, and what the next one does to them. -/
structure Lawful (ops : List (ScopeOp α)) : Prop where
  outward : ∀ id, ∃! chain, (run ops).scopes.Outward id chain
  owner : ∀ id chain, (run ops).scopes.Outward id chain → ∀ name,
    (run ops).scopes.owner id name = chain.find? ((run ops).scopes.binds name)
  value : ∀ id chain, (run ops).scopes.Outward id chain → ∀ name,
    (run ops).scopes.get? id name =
      chain.findSome? fun k ↦ ((run ops).scopes.bindings k).get? name
  new : (run ops).scopes.Added (run (ops ++ [.new])).scopes [] ∧
    (run (ops ++ [.new])).table = (run ops).table ++ [(run ops).scopes.fresh]
  child : ∀ h id chain, (run ops).table[h]? = some id → (run ops).scopes.Outward id chain →
    (run ops).scopes.Added (run (ops ++ [.child h])).scopes chain ∧
      (run (ops ++ [.child h])).table = (run ops).table ++ [(run ops).scopes.fresh]
  define : ∀ h id name value, (run ops).table[h]? = some id →
    (run ops).scopes.Written (run (ops ++ [.define h name value])).scopes id name value ∧
      (run (ops ++ [.define h name value])).table = (run ops).table
  set : ∀ h id chain name value, (run ops).table[h]? = some id →
    (run ops).scopes.Outward id chain →
    (run ops).scopes.Written (run (ops ++ [.set h name value])).scopes
        ((chain.find? ((run ops).scopes.binds name)).getD id) name value ∧
      (run (ops ++ [.set h name value])).table = (run ops).table
  /-- the handle that was got is as good as the old one in whatever comes later -/
  clone : ∀ h id, (run ops).table[h]? = some id →
    run (ops ++ [.clone h]) = ⟨(run ops).scopes, (run ops).table ++ [id]⟩ ∧
    ∀ later, run (ops ++ .clone h :: later.map
        (.rename fun k ↦ if k = (run ops).table.length then h else k)) =
      run (ops ++ .clone h :: later)
  names : ∀ id, (run ops).scopes.names id =
      (((log ops).filter (·.scope = id)).map (·.name)).eraseDups ∧
    ((run ops).scopes.names id).Nodup ∧
    ∀ name, name ∈ (run ops).scopes.names id ↔ (run ops).scopes.binds name id
  bound : ∀ id name, ((run ops).scopes.bindings id).get? name =
    ((log ops).reverse.find? fun e ↦ e.scope = id ∧ e.name = name).map (·.value)

/-- However scopes were made and written, each has one way outward; a lookup ends there at the first
scope that binds the name, that is where a variable is set, and just those scopes whose lookup ends
there see the new value. -/
theorem scopes_lawful (ops : List (ScopeOp α)) : Lawful ops := by
  have hw := sound_run ops
  have hholds := holds_log ops
  exact {
    outward := fun id ↦ by
      obtain ⟨chain, hc⟩ := hw.forest.outward id
      exact ⟨chain, hc, fun _ hc' ↦ hc'.unique hc⟩
    owner := fun id chain hc name ↦ owner_eq_find? hw.forest hc name
    value := fun id chain hc name ↦ get?_eq_findSome? hw.forest hc name
    new := by
      rw [run_snoc]
      exact ⟨addRoot_added hw.forest, rfl⟩
    child := fun h id chain hid hc ↦ by
      simp only [run_snoc, after, hid, and_true]
      exact child_added hw.forest (hw.made_of_handle hid) hc
    define := fun h id name value hid ↦ by
      simp only [run_snoc, after, hid, and_true]
      exact define_written hw.forest (hw.made_of_handle hid) name value
    set := fun h id chain name value hid hc ↦ by
      simp only [run_snoc, after, hid, and_true]
      exact set_written hw.forest (hw.made_of_handle hid) hc name value
    clone := fun h id hid ↦ by
      refine ⟨?_, run_clone hid⟩
      simp only [run_snoc, after, hid]
    names := fun id ↦ by
      refine ⟨(hholds id).1, ?_, fun name ↦ (Bindings.get?_isSome _ name).symm⟩
      rw [(hholds id).1, ← addNew_nil]
      exact addNew_nodup List.nodup_nil
    bound := fun id ↦ (hholds id).2 }

end Handles

end Quill
