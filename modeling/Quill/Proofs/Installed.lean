import Quill.Proofs.Defined
import Quill.Proofs.Growth
import Quill.Proofs.SuperCalls

/-!
# What is there from the start

Programs add modules, types and clauses, but take no built-in method away. So as long as they have
not defined a name for a core type, a message of that name finds what it found from the start:
`State.Reached.finds_installed`. A type is made after its superclass, so the types of a reached
state form a hierarchy: `State.Reached.isHierarchy`.
-/

namespace Quill

theorem Clause.mem_insert_self (c : Clause) (cs : List Clause) : c ∈ c.insert cs := by
  induction cs with
  | nil => exact List.mem_singleton_self c
  | cons old rest ih =>
    unfold Clause.insert
    split
    · exact List.mem_cons_self
    · exact List.mem_cons_of_mem old ih

namespace Types

variable {ts ts' : Types} {id t u : TypeId} {name : String}

/-- Only modules are included, and they have no supertype. A supertype is a type that was there
before. A method is as it was from the start unless a program has defined a part of it. -/
structure Standing (ts : Types) : Prop where
  size : standard.all.size ≤ ts.all.size
  object : ts.isType CoreType.object.id = true
  superclass {t u : TypeId} : ts.superclass t = some u → ts.isType u = true ∧ u.index < t.index
  includes {t m : TypeId} : m ∈ ts.includes t → ts.sort m = .module
  module {m : TypeId} : ts.sort m = .module → ts.superclass m = none
  methods (t : TypeId) (name : String) : ts.method? t name = standard.method? t name ∨
    ∃ cs, ts.method? t name = some cs ∧ ∃ c ∈ cs, c.isNative = false

theorem standard_plain {t : TypeId} {info : TypeInfo} (h : standard.get? t = some info) :
    info.sort = .type ∧ info.includes = [] ∧
      ∀ u, info.superclass = some u → (standard.get? u).isSome := by
  have hall : standard.all.all (fun info ↦ info.sort == .type && (info.includes.isEmpty &&
      info.superclass.all fun u ↦ (standard.get? u).isSome)) = true := by
    decide +kernel
  have hinfo := Array.all_eq_true_iff_forall_mem.mp hall info (Array.mem_of_getElem? h)
  simpa [Option.all_eq_true] using hinfo

theorem standard_sort (t : TypeId) : standard.sort t = .type := by
  unfold sort
  split
  · exact (standard_plain ‹_›).1
  · rfl

theorem sort_of_isType (h : ts.isType t = true) : ts.sort t = .type := by
  unfold isType at h
  unfold sort
  cases hinfo : ts.get? t with
  | none => rfl
  | some info =>
    rw [hinfo] at h
    exact beq_iff_eq.mp h

theorem lt_of_isType (h : ts.isType t = true) : t.index < ts.all.size := by
  by_contra hge
  simp [isType, get?, Array.getElem?_eq_none (Nat.le_of_not_lt hge)] at h

theorem standard_superclass {t u : TypeId} (h : standard.superclass t = some u) :
    standard.isType u = true ∧ u.index < t.index := by
  have hall : ∀ i < standard.all.size, ∀ u ∈ standard.superclass ⟨i⟩,
      standard.isType u = true ∧ u.index < i := by
    decide +kernel
  exact hall t.index (index_lt_of_superclass (by rw [h]; rfl)) u h

theorem standard_standing : standard.Standing where
  size := Nat.le_refl _
  object := by decide +kernel
  superclass := standard_superclass
  includes {t m} hm := by
    unfold includes at hm
    split at hm
    · rename_i hinfo
      rw [(standard_plain hinfo).2.1] at hm
      cases hm
    · cases hm
  module hm := by
    rw [standard_sort] at hm
    cases hm
  methods t name := .inl rfl

section

variable {f : TypeInfo → TypeInfo} {made : TypeInfo} {m : TypeId}

theorem sort_modify (hf : ∀ info, (f info).sort = info.sort) (u : TypeId) :
    (ts.modify id f).sort u = ts.sort u := by
  unfold Types.sort
  obtain hsame | ⟨info, hold, hnew⟩ := get?_modify_cases ts id f u
  · rw [hsame]
  · simp only [hold, hnew, hf]

theorem superclass_modify (hf : ∀ info, (f info).superclass = info.superclass) (u : TypeId) :
    (ts.modify id f).superclass u = ts.superclass u := by
  unfold Types.superclass
  obtain hsame | ⟨info, hold, hnew⟩ := get?_modify_cases ts id f u
  · rw [hsame]
  · simp only [hold, hnew, Option.bind_some, hf]

theorem isType_modify (hf : ∀ info, (f info).sort = info.sort) (u : TypeId) :
    (ts.modify id f).isType u = ts.isType u := by
  unfold isType
  obtain hsame | ⟨info, hold, hnew⟩ := get?_modify_cases ts id f u
  · rw [hsame]
  · simp only [hold, hnew, Option.any_some, hf]

theorem mem_includes_modify (hm : m ∈ (ts.modify id f).includes u) :
    m ∈ ts.includes u ∨ ∃ info, m ∈ (f info).includes ∧ ts.includes u = info.includes := by
  unfold Types.includes at hm ⊢
  obtain hsame | ⟨info, hold, hnew⟩ := get?_modify_cases ts id f u
  · rw [hsame] at hm
    exact .inl hm
  · rw [hnew] at hm
    exact .inr ⟨info, hm, by rw [hold]⟩

theorem method?_modify (u : TypeId) (name : String) :
    (ts.modify id f).method? u name = ts.method? u name ∨
      ∃ info, (ts.modify id f).method? u name = (f info).methods.get? name ∧
        ts.method? u name = info.methods.get? name := by
  unfold Types.method?
  obtain hsame | ⟨info, hold, hnew⟩ := get?_modify_cases ts id f u
  · exact .inl (by rw [hsame])
  · exact .inr ⟨info, by rw [hnew, Option.bind_some], by rw [hold, Option.bind_some]⟩

theorem get?_add_cases (ts : Types) (made : TypeInfo) (u : TypeId) :
    (ts.add made).get? u = ts.get? u ∨
      u.index = ts.all.size ∧ ts.get? u = none ∧ (ts.add made).get? u = some made := by
  obtain hlt | heq | hgt := Nat.lt_trichotomy u.index ts.all.size
  · exact .inl (get?_add_of_lt hlt made)
  · refine .inr ⟨heq, Array.getElem?_eq_none heq.ge, ?_⟩
    simp [get?, Types.add, heq]
  · left
    simp [get?, Types.add, Array.getElem?_push, Nat.ne_of_gt hgt]

theorem isType_add (h : ts.isType u = true) : (ts.add made).isType u = true := by
  rwa [isType, get?_add_of_lt (lt_of_isType h)]

end

namespace Standing

theorem modify (h : ts.Standing) {f : TypeInfo → TypeInfo}
    (hsort : ∀ t, (f t).sort = t.sort) (hsuper : ∀ t, (f t).superclass = t.superclass)
    (hincludes : ∀ t, ∀ m ∈ (f t).includes, m ∈ t.includes ∨ ts.sort m = .module)
    (hmethods : ∀ t : TypeInfo, ∀ name, (f t).methods.get? name = t.methods.get? name ∨
      ∃ cs, (f t).methods.get? name = some cs ∧ ∃ c ∈ cs, c.isNative = false) :
    (ts.modify id f).Standing := by
  refine ⟨by rw [size_modify]; exact h.size, by rw [isType_modify hsort]; exact h.object,
    fun {t u} hu ↦ ?_, fun {t m} hm ↦ ?_, fun {m} hm ↦ ?_, fun t name ↦ ?_⟩
  · rw [superclass_modify hsuper] at hu
    rw [isType_modify hsort]
    exact h.superclass hu
  · rw [sort_modify hsort]
    obtain hold | ⟨info, hm, hold⟩ := mem_includes_modify hm
    · exact h.includes hold
    · obtain hm | hmodule := hincludes info m hm
      · rw [← hold] at hm
        exact h.includes hm
      · exact hmodule
  · rw [superclass_modify hsuper]
    rw [sort_modify hsort] at hm
    exact h.module hm
  · obtain hsame | ⟨info, hnew, hold⟩ := ts.method?_modify t name
    · rw [hsame]
      exact h.methods t name
    · rw [hnew]
      obtain hsame | hdefined := hmethods info name
      · rw [hsame, ← hold]
        exact h.methods t name
      · exact .inr hdefined

theorem modify_other (h : ts.Standing) {f : TypeInfo → TypeInfo}
    (hf : ∀ t, (f t).sort = t.sort ∧ (f t).superclass = t.superclass ∧
      (f t).includes = t.includes ∧ (f t).methods = t.methods) : (ts.modify id f).Standing :=
  h.modify (fun t ↦ (hf t).1) (fun t ↦ (hf t).2.1)
    (fun t m hm ↦ .inl ((hf t).2.2.1 ▸ hm)) fun t name ↦ .inl (by rw [(hf t).2.2.2])

theorem setConstant (h : ts.Standing) (name : String) (v : Value) :
    (ts.setConstant id name v).Standing := h.modify_other fun _ ↦ ⟨rfl, rfl, rfl, rfl⟩

theorem addMethod (h : ts.Standing) (name : String) (d : MethodDef) :
    (ts.addMethod id name (.user d)).Standing := by
  refine h.modify (fun _ ↦ rfl) (fun _ ↦ rfl) (fun _ _ hm ↦ .inl hm) fun t other ↦ ?_
  dsimp only
  rw [MethodTable.insert, Bindings.get?_set]
  split
  · exact .inr ⟨_, rfl, .user d, Clause.mem_insert_self _ _, rfl⟩
  · exact .inl rfl

theorem mixIn (h : ts.Standing) (module : TypeId) : (ts.mixIn id module).Standing := by
  unfold Types.mixIn includeModule
  split
  · rename_i hsort
    split
    · refine h.modify (fun _ ↦ rfl) (fun _ ↦ rfl) (fun t m hm ↦ ?_) fun _ _ ↦ .inl rfl
      obtain hm | hm := List.mem_append.mp hm
      · exact .inl hm
      · obtain rfl := List.mem_singleton.mp hm
        exact .inr hsort
    · exact h
  · exact h

theorem add (h : ts.Standing) {made : TypeInfo}
    (hsuper : ∀ u, made.superclass = some u → ts.isType u = true)
    (hmodule : made.sort = .module → made.superclass = none) (hincludes : made.includes = [])
    (hmethods : made.methods = .empty) : (ts.add made).Standing := by
  refine ⟨?_, isType_add h.object, fun {t u} hu ↦ ?_, fun {t m} hm ↦ ?_, fun {m} hm ↦ ?_,
    fun t name ↦ ?_⟩
  · have hsize := h.size
    simp only [Types.add, Array.size_push]
    omega
  · obtain hsame | ⟨hindex, -, hnew⟩ := ts.get?_add_cases made t
    · unfold Types.superclass at hu
      rw [hsame] at hu
      obtain ⟨htype, hlt⟩ := h.superclass hu
      exact ⟨isType_add htype, hlt⟩
    · have htype := hsuper u (by simpa [Types.superclass, hnew] using hu)
      exact ⟨isType_add htype, hindex ▸ lt_of_isType htype⟩
  · have hsort : ts.sort m = .module := by
      obtain hsame | ⟨-, -, hnew⟩ := ts.get?_add_cases made t
      · unfold Types.includes at hm
        rw [hsame] at hm
        exact h.includes hm
      · simp [Types.includes, hnew, hincludes] at hm
    obtain hsame | ⟨-, hnone, -⟩ := ts.get?_add_cases made m
    · unfold Types.sort at hsort ⊢
      rwa [hsame]
    · simp [Types.sort, hnone] at hsort
  · obtain hsame | ⟨-, -, hnew⟩ := ts.get?_add_cases made m
    · have hsort : ts.sort m = .module := by
        unfold Types.sort at hm ⊢
        rwa [hsame] at hm
      have hsuper := h.module hsort
      unfold Types.superclass at hsuper ⊢
      rwa [hsame]
    · simp only [Types.sort, hnew] at hm
      simp [Types.superclass, hnew, hmodule hm]
  · obtain hsame | ⟨hindex, -, hnew⟩ := ts.get?_add_cases made t
    · have hold := h.methods t name
      unfold method? at hold ⊢
      rwa [hsame]
    · have hle : standard.all.size ≤ t.index := by
        rw [hindex]
        exact h.size
      have hnone : standard.get? t = none := Array.getElem?_eq_none hle
      left
      simp only [method?, hnew, hnone, hmethods, Option.bind_some, Option.bind_none]
      rfl

theorem derive (h : ts.Standing) (container : TypeId) (sort : TypeSort) (name : String)
    (superclass : Option TypeId) : (ts.derive container sort name superclass).2.Standing := by
  unfold Types.derive Types.declare
  dsimp only
  refine setConstant (h.add (fun u hu ↦ ?_) ?_ ?_ ?_) name _
  · cases sort with
    | module => cases hu
    | type =>
      obtain hfound | ⟨-, hobject⟩ := Option.or_eq_some_iff.mp hu
      · exact (Option.filter_eq_some_iff.mp hfound).2
      · obtain rfl := Option.some.inj hobject
        exact h.object
  · rintro rfl
    rfl
  · rfl
  · rfl

end Standing

theorem Standing.change {α : Type} {f : State → α × State} (hf : State.Change f) {s : State}
    (h : s.types.Standing) : (f s).2.types.Standing := by
  cases hf with
  | setTypeAttr t name v => exact h.modify_other fun _ ↦ ⟨rfl, rfl, rfl, rfl⟩
  | setConstant t name v => exact h.setConstant name v
  | addMethod t name d => exact h.addMethod name d
  | addClassMethod t name d => exact h.modify_other fun _ ↦ ⟨rfl, rfl, rfl, rfl⟩
  | includeModule t module => exact h.mixIn module
  | derive container sort name superclass => exact h.derive container sort name superclass
  | document t doc =>
    cases doc with
    | some d => exact h.modify_other fun _ ↦ ⟨rfl, rfl, rfl, rfl⟩
    | none => exact h
  | letGo name t =>
    dsimp only
    obtain hsame | ⟨u, hless⟩ := s.letGoAround_cases name t
    · rwa [hsame]
    · rw [hless]
      exact h.modify_other fun _ ↦ ⟨rfl, rfl, rfl, rfl⟩
  | _ => exact h

theorem standing_enduring :
    State.Enduring fun s s' ↦ s.types.Standing → s'.types.Standing where
  refl _ := id
  trans h h' := h' ∘ h
  change hf _ := Standing.change hf
  held _ _ := id
  counted _ := id
  framed _ _ := id
  rescued _ _ := id

theorem Standing.isHierarchy (h : ts.Standing) : ts.IsHierarchy where
  includes := h.includes
  module := h.module
  superclass hu := sort_of_isType (h.superclass hu).1
  chain := rooted_of_lt fun _ _ _ hu ↦ (h.superclass hu).2

namespace Standing

variable {chain out todo out' : List TypeId}

theorem walk_modules (h : ts.Standing) (hw : ts.Walk out todo out')
    (htodo : ∀ m ∈ todo, ts.sort m = .module) :
    ∃ modules, out' = out ++ modules ∧ ∀ m ∈ modules, ts.sort m = .module := by
  induction hw with
  | done => exact ⟨[], (List.append_nil _).symm, nofun⟩
  | seen _ _ ih => exact ih (List.forall_mem_cons.mp htodo).2
  | @new out todo out₁ out' t _ _ _ ih₁ ih₂ =>
    obtain ⟨hsort, hrest⟩ := List.forall_mem_cons.mp htodo
    have hbases : ∀ m ∈ ts.bases t, ts.sort m = .module := fun m hm ↦ by
      obtain hm | hm := mem_bases.mp hm
      · exact h.includes hm
      · rw [h.module hsort] at hm
        cases hm
    obtain ⟨modules, rfl, hmodules⟩ := ih₁ hbases
    obtain ⟨more, rfl, hmore⟩ := ih₂ hrest
    refine ⟨t :: modules ++ more, by simp, fun m hm ↦ ?_⟩
    obtain hm | hm := List.mem_append.mp hm
    · obtain rfl | hm := List.mem_cons.mp hm
      · exact hsort
      · exact hmodules m hm
    · exact hmore m hm

theorem walk_types (h : ts.Standing) (hc : ts.Supers t chain)
    (htypes : ∀ u ∈ chain, ts.sort u = .type) (hout : ∀ u ∈ out, u ∉ chain)
    (hw : ts.Walk out [t] out') :
    ∃ new, out' = out ++ new ∧ new.filter (ts.sort · == .type) = chain := by
  have hidden {modules : List TypeId} (hm : ∀ m ∈ modules, ts.sort m = .module) :
      modules.filter (ts.sort · == .type) = [] :=
    List.filter_eq_nil_iff.mpr fun m hmem ↦ by rw [hm m hmem]; decide
  have hincludes (t : TypeId) : ∀ m ∈ (ts.includes t).reverse, ts.sort m = .module :=
    fun m hm ↦ h.includes (List.mem_reverse.mp hm)
  induction hc generalizing out out' with
  | @last t hsuper =>
    cases hw with
    | seen hmem => exact absurd List.mem_cons_self (hout t hmem)
    | new _ hb hd =>
      cases hd
      rw [bases, hsuper, Option.toList_none, List.append_nil] at hb
      obtain ⟨modules, rfl, hmodules⟩ := h.walk_modules hb (hincludes t)
      refine ⟨t :: modules, by simp, ?_⟩
      rw [List.filter_cons_of_pos (by simpa using htypes), hidden hmodules]
  | @above t u chain hsuper hc ih =>
    have hnodup := (Climb.above hsuper hc).nodup
    cases hw with
    | seen hmem => exact absurd List.mem_cons_self (hout t hmem)
    | new _ hb hd =>
      cases hd
      rw [bases, hsuper] at hb
      obtain ⟨mid, hmid, hrest⟩ := hb.append
      obtain ⟨modules, rfl, hmodules⟩ := h.walk_modules hmid (hincludes t)
      obtain ⟨htype, htypes⟩ := List.forall_mem_cons.mp htypes
      -- Nothing met so far is further up: modules are no types, and the chain does not come back.
      have hfree : ∀ v ∈ out ++ [t] ++ modules, v ∉ chain := by
        intro v hv hchain
        simp only [List.mem_append, List.mem_singleton] at hv
        obtain (hv | rfl) | hv := hv
        · exact hout v hv (List.mem_cons_of_mem t hchain)
        · exact (List.nodup_cons.mp hnodup).1 hchain
        · have hmodule := hmodules v hv
          rw [htypes v hchain] at hmodule
          cases hmodule
      obtain ⟨new, rfl, hfilter⟩ := ih htypes hfree hrest
      refine ⟨t :: (modules ++ new), by simp, ?_⟩
      rw [List.filter_cons_of_pos (by simpa using htype), List.filter_append, hidden hmodules,
        List.nil_append, hfilter]

theorem ancestors_types (h : ts.Standing) (hc : ts.Supers t chain)
    (htypes : ∀ u ∈ chain, ts.sort u = .type) :
    (ts.ancestors t).filter (ts.sort · == .type) = chain := by
  obtain ⟨new, hnew, hfilter⟩ := h.walk_types hc htypes (fun _ hu ↦ absurd hu List.not_mem_nil)
    (ts.ancestors_walk t)
  rwa [hnew, List.nil_append]

end Standing

theorem firstWith_types {l : List TypeId}
    (h : ∀ u ∈ l, ts.sort u = .module → ts.method? u name = none) :
    ts.firstWith name l = ts.firstWith name (l.filter (ts.sort · == .type)) := by
  induction l with
  | nil => rfl
  | cons u l ih =>
    obtain ⟨hu, hl⟩ := List.forall_mem_cons.mp h
    cases hsort : ts.sort u with
    | type =>
      rw [List.filter_cons_of_pos (by simpa using hsort), firstWith, firstWith, ih hl]
    | module =>
      rw [List.filter_cons_of_neg (by simp [hsort]), firstWith, hu hsort]
      exact ih hl

theorem firstWith_congr {l : List TypeId}
    (h : ∀ u ∈ l, ts'.method? u name = ts.method? u name) :
    ts'.firstWith name l = ts.firstWith name l := by
  induction l with
  | nil => rfl
  | cons u l ih =>
    obtain ⟨hu, hl⟩ := List.forall_mem_cons.mp h
    rw [firstWith, firstWith, hu, ih hl]

theorem standard_supers (t : CoreType) : ∃ chain, standard.Supers t.id chain ∧
    ∀ u ∈ chain, (standard.get? u).isSome := by
  obtain ⟨chain, hc⟩ := Rooted.exists_supers standard_standing.isHierarchy.chain t.id
  refine ⟨chain, hc, ?_⟩
  have hcore : (standard.get? t.id).isSome := by cases t <;> decide +kernel
  generalize t.id = u at hc hcore
  induction hc with
  | last => simpa using hcore
  | above hu _ ih =>
    obtain ⟨info, hinfo⟩ := Option.isSome_iff_exists.mp hcore
    refine List.forall_mem_cons.mpr ⟨hcore, ih ((standard_plain hinfo).2.2 _ ?_)⟩
    simpa [superclass, hinfo] using hu

theorem Extends.core (hext : standard.Extends ts) (hu : (standard.get? u).isSome) :
    ts.sort u = .type ∧ ts.superclass u = standard.superclass u := by
  obtain ⟨info, hinfo⟩ := Option.isSome_iff_exists.mp hu
  obtain ⟨info', hinfo', hmore⟩ := hext u info hinfo
  refine ⟨(hext.sort hinfo).trans (standard_sort u), ?_⟩
  simp [superclass, hinfo, hinfo', hmore.superclass]

theorem Extends.core_supers (hext : standard.Extends ts) (t : CoreType) : ∃ chain,
    standard.Supers t.id chain ∧ ts.Supers t.id chain ∧ ∀ u ∈ chain, ts.sort u = .type := by
  obtain ⟨chain, hc, hchain⟩ := standard_supers t
  exact ⟨chain, hc, hc.congr fun u hu ↦ (hext.core (hchain u hu)).2,
    fun u hu ↦ (hext.core (hchain u hu)).1⟩

/-- What core types and the modules in them have of that name is built in. -/
def AllBuiltIn (ts : Types) (name : String) : Prop :=
  ∀ t ∈ CoreType.all, ∀ u ∈ ts.ancestors t.id, ∀ c ∈ (ts.method? u name).getD [], c.isNative

instance (ts : Types) (name : String) : Decidable (ts.AllBuiltIn name) :=
  inferInstanceAs (Decidable (∀ t ∈ CoreType.all, ∀ u ∈ ts.ancestors t.id,
    ∀ c ∈ (ts.method? u name).getD [], c.isNative))

theorem AllBuiltIn.method? (hname : ts.AllBuiltIn name) (h : ts.Standing) {t : CoreType}
    (hu : u ∈ ts.ancestors t.id) : ts.method? u name = standard.method? u name := by
  obtain hsame | ⟨cs, hcs, c, hc, hdefined⟩ := h.methods u name
  · exact hsame
  · have hall : t ∈ CoreType.all := by cases t <;> decide
    have hnative := hname t hall u hu
    rw [hcs] at hnative
    rw [hnative c hc] at hdefined
    cases hdefined

theorem AllBuiltIn.finds (hname : ts.AllBuiltIn name) (h : ts.Standing)
    (hext : standard.Extends ts) (t : CoreType) :
    ts.firstWith name (ts.ancestors t.id) = standard.firstWith name (standard.ancestors t.id) := by
  obtain ⟨chain, hc, hc', hchain⟩ := hext.core_supers t
  have htypes := h.ancestors_types hc' hchain
  have hstandard := standard_standing.ancestors_types hc fun u _ ↦ standard_sort u
  have hmodules : ∀ u ∈ ts.ancestors t.id, ts.sort u = .module → ts.method? u name = none := by
    intro u hu hmodule
    rw [hname.method? h hu]
    cases hinfo : standard.get? u with
    | none => simp [Types.method?, hinfo]
    | some info =>
      rw [(hext.core (by rw [hinfo]; rfl)).1] at hmodule
      cases hmodule
  calc ts.firstWith name (ts.ancestors t.id)
      _ = ts.firstWith name chain := by rw [firstWith_types hmodules, htypes]
      _ = standard.firstWith name chain := by
        refine firstWith_congr fun u hu ↦ hname.method? h (t := t) ?_
        rw [← htypes] at hu
        exact (List.mem_filter.mp hu).1
      _ = standard.firstWith name (standard.ancestors t.id) := by
        rw [firstWith_types (l := standard.ancestors t.id), hstandard]
        intro u _ hmodule
        rw [standard_sort] at hmodule
        cases hmodule

end Types

namespace State

/-- A state that comes about while tasks are worked on, or between two programs. All a host does in
between leaves the types alone. -/
inductive Reached : State → Prop
  | initial (config : Config) : Reached (.initial config)
  | working {s : State} {t : Task} {m : Machine} :
      Reached s → (Machine.start t s).Reaches m → Reached m.work.state
  | ran {i i' : Interpreter} {p : Program} {fuel : Nat} {r : Result} :
      Reached i.state → i.run p fuel = some (r, i') → Reached i'.state
  | host {s s' : State} : Reached s → s'.types = s.types → Reached s'

namespace Reached

variable {s : State} {name : String}

theorem standing (h : s.Reached) : s.types.Standing ∧ Types.standard.Extends s.types := by
  have hR := Types.standing_enduring.and extends_enduring
  induction h with
  | initial config => exact ⟨Types.standard_standing, .refl _⟩
  | working _ hr ih =>
    obtain ⟨hstanding, hextends⟩ := hr.evolves_start hR
    exact ⟨hstanding ih.1, ih.2.trans hextends.types⟩
  | ran _ hrun ih =>
    obtain ⟨hstanding, hextends⟩ := Interpreter.run_spans hR hrun
    exact ⟨hstanding ih.1, ih.2.trans hextends.types⟩
  | host _ htypes ih =>
    rw [htypes]
    exact ih

theorem isHierarchy (h : s.Reached) : s.types.IsHierarchy := h.standing.1.isHierarchy

theorem rooted (h : s.Reached) : s.types.Rooted := h.isHierarchy.chain

/-- Where nothing of the name was defined for core types, it finds what it found from the start. -/
theorem finds_installed (h : s.Reached) (hname : s.types.AllBuiltIn name) (t : CoreType) :
    s.types.firstWith name (s.types.ancestors t.id) =
      Types.standard.firstWith name (Types.standard.ancestors t.id) :=
  hname.finds h.standing.1 h.standing.2 t

end Reached

end State

end Quill
