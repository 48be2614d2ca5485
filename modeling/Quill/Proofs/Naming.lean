import Quill.Proofs.Documented

/-!
# Qualified names

As long as constants are only made by definitions, each type or module is a constant of the type or
module around it and bears its name and that of the constant. So its name tells where it is found,
and no other has that name. Main statements: `Types.Named.found` and `Types.Named.declare`.
-/

namespace Quill

theorem Bindings.mem_of_lookup {α : Type} {name : String} {l : List (String × α)} {v : α}
    (h : lookup name l = some v) : (name, v) ∈ l := by
  induction l with
  | nil => cases h
  | cons e rest ih =>
    unfold lookup at h
    split at h
    · rename_i hname
      cases h
      exact hname ▸ List.mem_cons_self
    · exact List.mem_cons_of_mem _ (ih h)

namespace TypeInfo

theorem shortName_of_name {info : TypeInfo} {name : String} (hname : '.' ∉ name.toList)
    (before : String) (h : info.name = name ∨ info.name = before ++ "." ++ name) :
    info.shortName = name := by
  have rest (cs : List Char) (hcs : cs.head? ∈ [none, some '.']) :
      ((name.toList.reverse ++ cs).takeWhile (· != '.')) = name.toList.reverse := by
    rw [List.takeWhile_append_of_pos]
    · cases cs with
      | nil => exact List.append_nil _
      | cons c cs =>
        obtain rfl : c = '.' := by simpa using hcs
        exact List.append_nil _
    · intro c hc
      have hne : c ≠ '.' := by
        rintro rfl
        exact hname (List.mem_reverse.mp hc)
      simpa using hne
  have short : info.name.toList.reverse.takeWhile (· != '.') = name.toList.reverse := by
    obtain h | h := h
    · rw [h]
      simpa using rest [] (by simp)
    · rw [h]
      simpa using rest ('.' :: before.toList.reverse) (by simp)
  rw [shortName, short, List.reverse_reverse, String.ofList_toList]

end TypeInfo

namespace Types

variable {ts ts' : Types} {t u container : TypeId} {short : String}

def Made (ts : Types) (t : TypeId) : Prop := t.index < ts.all.size

instance : Decidable (ts.Made t) := inferInstanceAs (Decidable (_ < _))

theorem made_iff : ts.Made t ↔ ∃ info, ts.get? t = some info := by
  rw [Made, get?, ← Option.isSome_iff_exists]
  simp

theorem made_of_constant? {v : Value} (h : ts.constant? container short = some v) :
    ts.Made container := by
  obtain ⟨info, hinfo, -⟩ := Option.bind_eq_some_iff.mp h
  exact made_iff.mpr ⟨info, hinfo⟩

/-- The type or module is the constant `short` of `container` and bears the names of both. -/
structure DefinedIn (ts : Types) (container : TypeId) (short : String) (t : TypeId) : Prop where
  made : ts.Made t
  plain : '.' ∉ short.toList
  constant : ts.constant? container short = some (.type t)
  name : ts.name t = ts.nameWithin container short
  parent : ts.parent t = if container = CoreType.object.id then none else some container

/-- Every type or module is defined in one that was made before it, or in the first of them, and no
constant is anything but what is defined there. -/
structure Named (ts : Types) : Prop where
  placed : ∀ t, ts.Made t → ∃ container name, ts.DefinedIn container name t ∧
    (container = CoreType.object.id ∨ container.index < t.index)
  constants : ∀ container name v, ts.constant? container name = some v →
    ∃ t, v = .type t ∧ ts.DefinedIn container name t

theorem DefinedIn.shortName (h : ts.DefinedIn container short t) {info : TypeInfo}
    (hinfo : ts.get? t = some info) : info.shortName = short := by
  have hname : info.name = ts.nameWithin container short := by
    rw [← h.name, Types.name, hinfo]
  refine TypeInfo.shortName_of_name h.plain (ts.name container) ?_
  unfold nameWithin at hname
  split at hname
  · exact .inl hname
  · exact .inr hname

namespace Named

theorem path (h : ts.Named) (ht : ts.Made t) : ∃ names : List String, names ≠ [] ∧
    (∀ name ∈ names, '.' ∉ name.toList) ∧ ts.name t = ".".intercalate names ∧
    ts.follow CoreType.object.id names = some t := by
  -- What is not defined at top level is defined in what was made before.
  induction hi : t.index using Nat.strong_induction_on generalizing t with
  | _ i ih =>
    obtain ⟨container, name, hdef, hbefore⟩ := h.placed t ht
    by_cases hc : container = CoreType.object.id
    · subst hc
      refine ⟨[name], List.cons_ne_nil _ _, by simpa using hdef.plain, ?_, follow_one hdef.constant⟩
      rw [hdef.name, nameWithin, if_pos rfl, String.intercalate_singleton]
    · have hlt := hbefore.resolve_left hc
      obtain ⟨names, hne, hplain, hname, hfollow⟩ :=
        ih container.index (hi ▸ hlt) (made_of_constant? hdef.constant) rfl
      refine ⟨names ++ [name], by simp, ?_, ?_, ?_⟩
      · simpa [or_imp, forall_and] using ⟨hplain, hdef.plain⟩
      · rw [hdef.name, nameWithin, if_neg hc, hname,
          String.intercalate_append_of_ne_nil hne (by simp), String.intercalate_singleton]
      · rw [follow_append, hfollow]
        exact follow_one hdef.constant

theorem found (h : ts.Named) (ht : ts.Made t) :
    ts.follow CoreType.object.id ((ts.name t).splitOn ".") = some t := by
  obtain ⟨names, hne, hplain, hname, hfollow⟩ := h.path ht
  rw [hname, splitOn_intercalate hne hplain, hfollow]

theorem eq_of_name (h : ts.Named) (ht : ts.Made t) (hu : ts.Made u)
    (hname : ts.name t = ts.name u) : t = u := by
  have hfound := h.found ht
  rw [hname, h.found hu] at hfound
  exact (Option.some.inj hfound).symm

end Named

theorem Extends.made (h : ts.Extends ts') (ht : ts.Made t) : ts'.Made t := by
  obtain ⟨info, hinfo⟩ := made_iff.mp ht
  obtain ⟨info', hinfo', -⟩ := h t info hinfo
  exact made_iff.mpr ⟨info', hinfo'⟩

theorem Extends.name (h : ts.Extends ts') (ht : ts.Made t) : ts'.name t = ts.name t := by
  obtain ⟨info, hinfo⟩ := made_iff.mp ht
  obtain ⟨info', hinfo', hext⟩ := h t info hinfo
  rw [Types.name, Types.name, hinfo, hinfo']
  exact hext.name

theorem Named.constant?_kept (h : ts.Named) (h' : ts'.Named) (hext : ts.Extends ts')
    (hc : ts.constant? container short = some (.type t)) :
    ts'.constant? container short = some (.type t) := by
  obtain ⟨u, heq, hdef⟩ := h.constants _ _ _ hc
  cases heq
  obtain ⟨v, hv⟩ : ∃ v, ts'.constant? container short = some v := by
    obtain ⟨info, hinfo, hget⟩ := Option.bind_eq_some_iff.mp hc
    obtain ⟨info', hinfo', hmore⟩ := hext container info hinfo
    have hbound : short ∈ info.constants.names :=
      (Bindings.get?_isSome _ short).mp (Option.isSome_of_eq_some hget)
    obtain ⟨v, hv⟩ := Option.isSome_iff_exists.mp
      ((Bindings.get?_isSome _ short).mpr (hmore.constants.subset hbound))
    exact ⟨v, Option.bind_eq_some_iff.mpr ⟨info', hinfo', hv⟩⟩
  obtain ⟨u, rfl, hdef'⟩ := h'.constants _ _ _ hv
  have hname : ts'.name u = ts'.name t := by
    rw [hdef'.name, hext.name hdef.made, hdef.name, nameWithin, nameWithin,
      hext.name (made_of_constant? hc)]
  rw [hv, h'.eq_of_name hdef'.made (hext.made hdef.made) hname]

theorem Named.follow_kept (h : ts.Named) (h' : ts'.Named) (hext : ts.Extends ts')
    {path : List String} (hf : ts.follow container path = some t) :
    ts'.follow container path = some t := by
  induction path generalizing container with
  | nil => exact hf
  | cons short rest ih =>
    unfold follow at hf ⊢
    split at hf
    · rename_i u hu
      rw [h.constant?_kept h' hext hu]
      exact ih hf
    · cases hf

/-- The same types and modules with the same names, in the same places. -/
structure AlikeNamed (ts ts' : Types) : Prop where
  size : ts'.all.size = ts.all.size
  name : ts'.name = ts.name
  parent : ts'.parent = ts.parent
  constant? : ts'.constant? = ts.constant?

theorem AlikeNamed.refl (ts : Types) : ts.AlikeNamed ts := ⟨rfl, rfl, rfl, rfl⟩

theorem alikeNamed_modify {f : TypeInfo → TypeInfo} (hname : ∀ info, (f info).name = info.name)
    (hparent : ∀ info, (f info).parent = info.parent)
    (hconstants : ∀ info, (f info).constants = info.constants) :
    ts.AlikeNamed (ts.modify t f) := by
  refine ⟨size_modify f, funext fun u ↦ ?_, funext fun u ↦ ?_, funext fun u ↦ funext fun short ↦ ?_⟩
  all_goals obtain hsame | ⟨info, hold, hnew⟩ := get?_modify_cases ts t f u
  · rw [Types.name, Types.name, hsame]
  · simp only [Types.name, hold, hnew, hname]
  · rw [Types.parent, Types.parent, hsame]
  · simp only [Types.parent, hold, hnew, Option.bind_some, hparent]
  · rw [Types.constant?, Types.constant?, hsame]
  · simp only [Types.constant?, hold, hnew, Option.bind_some, hconstants]

theorem alikeNamed_addMethod (name : String) (c : Clause) :
    ts.AlikeNamed (ts.addMethod t name c) :=
  alikeNamed_modify (fun _ ↦ rfl) (fun _ ↦ rfl) fun _ ↦ rfl

theorem alikeNamed_addClassMethod (name : String) (c : Clause) :
    ts.AlikeNamed (ts.addClassMethod t name c) :=
  alikeNamed_modify (fun _ ↦ rfl) (fun _ ↦ rfl) fun _ ↦ rfl

theorem alikeNamed_includeModule (module : TypeId) : ts.AlikeNamed (ts.includeModule t module) := by
  unfold includeModule
  split
  · exact alikeNamed_modify (fun _ ↦ rfl) (fun _ ↦ rfl) fun _ ↦ rfl
  · exact .refl ts

theorem alikeNamed_document (doc : Option String) : ts.AlikeNamed (ts.document t doc) := by
  cases doc with
  | none => exact .refl ts
  | some doc => exact alikeNamed_modify (fun _ ↦ rfl) (fun _ ↦ rfl) fun _ ↦ rfl

theorem DefinedIn.alike (h : ts.DefinedIn container short t) (hs : ts.AlikeNamed ts') :
    ts'.DefinedIn container short t where
  made := by rw [Made, hs.size]; exact h.made
  plain := h.plain
  constant := by rw [hs.constant?, h.constant]
  name := by rw [hs.name, h.name, nameWithin, nameWithin, hs.name]
  parent := by rw [hs.parent, h.parent]

theorem Named.alike (h : ts.Named) (hs : ts.AlikeNamed ts') : ts'.Named where
  placed t ht := by
    rw [Made, hs.size] at ht
    obtain ⟨container, short, hdef, hbefore⟩ := h.placed t ht
    exact ⟨container, short, hdef.alike hs, hbefore⟩
  constants container short v hv := by
    rw [hs.constant?] at hv
    obtain ⟨t, rfl, hdef⟩ := h.constants container short v hv
    exact ⟨t, rfl, hdef.alike hs⟩

section

variable {sort : TypeSort} {superclass : Option TypeId}

theorem size_declare :
    (ts.declare container sort short superclass).2.all.size = ts.all.size + 1 := by
  obtain ⟨made, h⟩ := ts.declare_types container sort short superclass
  rw [h, setConstant, size_modify]
  exact Array.size_push made

theorem made_declare :
    (ts.declare container sort short superclass).2.Made t ↔ ts.Made t ∨ t = ts.fresh := by
  obtain ⟨i⟩ := t
  rw [Made, Made, size_declare, fresh, TypeId.mk.injEq]
  exact Nat.lt_succ_iff_lt_or_eq

theorem get?_declare (ht : ts.Made t) : (ts.declare container sort short superclass).2.get? t =
    (ts.get? t).map fun info ↦
      if t = container then info.addType short ts.fresh else info := by
  obtain ⟨made, h⟩ := ts.declare_types container sort short superclass
  rw [h, setConstant, get?_modify_if, get?_add_of_lt ht]
  rfl

theorem get?_declare_fresh (hc : ts.Made container) (short : String) (sort : TypeSort)
    (superclass : Option TypeId) :
    ∃ info, (ts.declare container sort short superclass).2.get? ts.fresh = some info ∧
      info.name = ts.nameWithin container short ∧ info.constants = .empty ∧
      info.parent = if container = CoreType.object.id then none else some container := by
  have hne : ts.fresh ≠ container := ne_of_index (Nat.ne_of_gt hc)
  exact ⟨_, (get?_modify_of_ne hne _).trans (get?_add_fresh _), rfl, rfl, rfl⟩

theorem name_declare (ht : ts.Made t) :
    (ts.declare container sort short superclass).2.name t = ts.name t := by
  obtain ⟨info, hinfo⟩ := made_iff.mp ht
  rw [Types.name, get?_declare ht, Types.name, hinfo]
  by_cases hc : t = container <;> simp [hc, TypeInfo.addType]

theorem parent_declare (ht : ts.Made t) :
    (ts.declare container sort short superclass).2.parent t = ts.parent t := by
  obtain ⟨info, hinfo⟩ := made_iff.mp ht
  rw [Types.parent, get?_declare ht, Types.parent, hinfo]
  by_cases hc : t = container <;> simp [hc, TypeInfo.addType]

theorem constant?_of_not_made (ht : ¬ ts.Made t) (name : String) : ts.constant? t name = none := by
  by_contra hsome
  obtain ⟨v, hv⟩ := Option.ne_none_iff_exists'.mp hsome
  exact ht (made_of_constant? hv)

theorem constant?_declare (hc : ts.Made container) (t : TypeId) (name : String) :
    (ts.declare container sort short superclass).2.constant? t name =
      if t = container ∧ name = short then some (.type ts.fresh) else ts.constant? t name := by
  by_cases ht : ts.Made t
  · obtain ⟨info, hinfo⟩ := made_iff.mp ht
    rw [Types.constant?, get?_declare ht, Types.constant?, hinfo]
    by_cases htc : t = container <;> simp [htc, TypeInfo.addType, Bindings.get?_set, eq_comm]
  · have hne : ¬ (t = container ∧ name = short) := fun h ↦ ht (h.1 ▸ hc)
    rw [if_neg hne, constant?_of_not_made ht]
    by_cases hfresh : t = ts.fresh
    · obtain ⟨info, hinfo, -, hempty, -⟩ := get?_declare_fresh hc short sort superclass
      rw [hfresh, Types.constant?, hinfo, Option.bind_some, hempty]
      rfl
    · exact constant?_of_not_made (fun h ↦ (made_declare.mp h).elim ht hfresh) name

theorem DefinedIn.declare (h : ts.DefinedIn container short t) {around : TypeId} {name : String}
    (hc : ts.Made around) (hnew : ts.constant? around name = none) :
    (ts.declare around sort name superclass).2.DefinedIn container short t where
  made := made_declare.mpr (.inl h.made)
  plain := h.plain
  constant := by
    have hne : ¬ (container = around ∧ short = name) := by
      rintro ⟨rfl, rfl⟩
      exact absurd h.constant (hnew ▸ nofun)
    rw [constant?_declare hc, if_neg hne, h.constant]
  name := by
    rw [name_declare h.made, h.name, nameWithin, nameWithin,
      name_declare (made_of_constant? h.constant)]
  parent := by rw [parent_declare h.made, h.parent]

theorem definedIn_declare (hc : ts.Made container) (hplain : '.' ∉ short.toList) :
    (ts.declare container sort short superclass).2.DefinedIn container short ts.fresh := by
  obtain ⟨info, hinfo, hname, -, hparent⟩ := get?_declare_fresh hc short sort superclass
  refine ⟨made_declare.mpr (.inr rfl), hplain, ?_, ?_, ?_⟩
  · rw [constant?_declare hc, if_pos ⟨rfl, rfl⟩]
  · rw [Types.name, hinfo, nameWithin, name_declare hc]
    exact hname
  · rw [Types.parent, hinfo]
    exact hparent

end

theorem Named.declare (h : ts.Named) (hc : ts.Made container) (hplain : '.' ∉ short.toList)
    (hnew : ts.constant? container short = none) (sort : TypeSort) (superclass : Option TypeId) :
    (ts.declare container sort short superclass).2.Named where
  placed t ht := by
    obtain ht | rfl := made_declare.mp ht
    · obtain ⟨c, name, hdef, hbefore⟩ := h.placed t ht
      exact ⟨c, name, hdef.declare hc hnew, hbefore⟩
    · exact ⟨container, short, definedIn_declare hc hplain, .inr hc⟩
  constants c name v hv := by
    rw [constant?_declare hc] at hv
    split at hv
    · rename_i hcs
      cases hv
      rw [hcs.1, hcs.2]
      exact ⟨ts.fresh, rfl, definedIn_declare hc hplain⟩
    · obtain ⟨t, rfl, hdef⟩ := h.constants c name v hv
      exact ⟨t, rfl, hdef.declare hc hnew⟩

theorem core_definedIn (c : CoreType) : core.DefinedIn CoreType.object.id c.name c.id := by
  cases c <;> exact ⟨by decide, by decide, rfl, rfl, rfl⟩

theorem core_made {t : TypeId} (ht : core.Made t) : ∃ c : CoreType, t = c.id := by
  have checked : ∀ i < core.all.size, ∃ c ∈ CoreType.all, c.id = ⟨i⟩ := by decide
  obtain ⟨c, -, hc⟩ := checked t.index ht
  exact ⟨c, hc.symm⟩

theorem core_constant? {container : TypeId} {name : String} {v : Value}
    (h : core.constant? container name = some v) :
    container = CoreType.object.id ∧ ∃ c : CoreType, name = c.name ∧ v = .type c.id := by
  obtain ⟨c, rfl⟩ := core_made (made_of_constant? h)
  obtain ⟨info, hinfo, hget⟩ := Option.bind_eq_some_iff.mp h
  have hmem := Bindings.mem_of_lookup hget
  cases c
  case object =>
    obtain rfl : info = _ := (Option.some.inj hinfo).symm
    obtain ⟨c, -, hc⟩ : ∃ c ∈ CoreType.all, (c.name, Value.type c.id) = (name, v) :=
      List.mem_map.mp hmem
    cases hc
    exact ⟨rfl, c, rfl, rfl⟩
  all_goals
    obtain rfl : info = _ := (Option.some.inj hinfo).symm
    cases hmem

theorem named_core : core.Named where
  placed t ht := by
    obtain ⟨c, rfl⟩ := core_made ht
    exact ⟨_, _, core_definedIn c, .inl rfl⟩
  constants container name v hv := by
    obtain ⟨rfl, c, rfl, rfl⟩ := core_constant? hv
    exact ⟨c.id, rfl, core_definedIn c⟩

theorem AlikeNamed.trans {ts'' : Types} (h : ts.AlikeNamed ts') (h' : ts'.AlikeNamed ts'') :
    ts.AlikeNamed ts'' :=
  ⟨h'.size.trans h.size, h'.name.trans h.name, h'.parent.trans h.parent,
    h'.constant?.trans h.constant?⟩

theorem alikeNamed_standard : core.AlikeNamed standard := by
  unfold standard
  refine List.foldlRecOn _ _ (.refl core) fun ts h e _ ↦ h.trans ?_
  unfold addNative
  split
  · exact alikeNamed_addClassMethod _ _
  · exact alikeNamed_addMethod _ _

theorem named_standard : standard.Named := named_core.alike alikeNamed_standard

theorem standard_made (c : CoreType) : standard.Made c.id := by
  rw [Made, alikeNamed_standard.size]
  exact (core_definedIn c).made

end Types

end Quill
