import Quill.Proofs.Declaring
import Quill.Proofs.Overloads

/-!
# What definitions leave behind

After definitions of what was not there yet, the type or module around has all of them at its end in
the order they are written, and each new type has what its body defines. Main statement:
`Expr.OnlyDefine.makes`.
-/

namespace Quill

namespace Bindings

variable {α : Type}

theorem update_of_lookup {name : String} {l : List (String × α)} (h : lookup name l = none)
    (v : α) : update name v l = l ++ [(name, v)] := by
  induction l with
  | nil => rfl
  | cons p l ih =>
    obtain ⟨k, w⟩ := p
    by_cases hk : k = name
    · rw [lookup, if_pos hk] at h
      cases h
    · rw [lookup, if_neg hk] at h
      rw [update, if_neg hk, ih h]
      rfl

theorem set_of_get? {b : Bindings α} {name : String} (h : b.get? name = none) (v : α) :
    b.set name v = ⟨b.entries ++ [(name, v)]⟩ := congrArg mk (update_of_lookup h v)

theorem lookup_append {name : String} {l l' : List (String × α)} (h : lookup name l = none) :
    lookup name (l ++ l') = lookup name l' := by
  induction l with
  | nil => rfl
  | cons p l ih =>
    obtain ⟨k, w⟩ := p
    by_cases hk : k = name
    · rw [lookup, if_pos hk] at h
      cases h
    · rw [lookup, if_neg hk] at h
      rw [List.cons_append, lookup, if_neg hk, ih h]

theorem get?_set_of_ne {b : Bindings α} {name other : String} (h : other ≠ name) (v : α) :
    (b.set name v).get? other = b.get? other := by
  rw [get?_set, if_neg h.symm]

end Bindings

def MethodDef.entry (d : MethodDef) : String × List Clause := (d.name.name, [.user d])

def TypeDef.constants (ds : List TypeDef) (ids : List TypeId) : List (String × Value) :=
  List.zipWith (fun d t ↦ (d.name.name, .type t)) ds ids

namespace TypeInfo

def addType (info : TypeInfo) (name : String) (t : TypeId) : TypeInfo :=
  { info with constants := info.constants.set name (.type t) }

def addUser (info : TypeInfo) (d : MethodDef) : TypeInfo :=
  if d.singleton then
    { info with classMethods := MethodTable.insert info.classMethods d.name.name (.user d) }
  else { info with methods := MethodTable.insert info.methods d.name.name (.user d) }

/-- `info` with all that `es` define at its end; the types and modules have the given numbers. -/
def filled (info : TypeInfo) (es : List Expr) (ids : List TypeId) : TypeInfo :=
  { info with
    methods := ⟨info.methods.entries ++ (Expr.methods false es).map MethodDef.entry⟩
    classMethods := ⟨info.classMethods.entries ++ (Expr.methods true es).map MethodDef.entry⟩
    constants := ⟨info.constants.entries ++ TypeDef.constants (Expr.types es) ids⟩ }

/-- Nothing that `es` define is there. -/
structure Lacks (info : TypeInfo) (es : List Expr) : Prop where
  types : ∀ d ∈ Expr.types es, info.constants.get? d.name.name = none
  methods : ∀ d ∈ Expr.methods false es, info.methods.get? d.name.name = none
  classMethods : ∀ d ∈ Expr.methods true es, info.classMethods.get? d.name.name = none

/-- What is defined inside of `container` belongs into the path `outer`. -/
def PlacedAt (info : TypeInfo) (container : TypeId) (outer : List String) : Prop :=
  ∀ name, (if container = CoreType.object.id then name else info.name ++ "." ++ name) =
    ".".intercalate (outer ++ [name])

variable {info : TypeInfo} {es : List Expr} {ids : List TypeId} {s : Span}

@[simp] theorem addUser_name (d : MethodDef) : (info.addUser d).name = info.name := by
  unfold addUser
  split <;> rfl

theorem filled_nil : info.filled [] [] = info := by
  simp [filled, TypeDef.constants]

theorem insert_new {table : MethodTable} {d : MethodDef} (h : table.get? d.name.name = none) :
    MethodTable.insert table d.name.name (.user d) = ⟨table.entries ++ [d.entry]⟩ := by
  rw [MethodTable.insert, h]
  exact Bindings.set_of_get? h _

theorem filled_type {d : TypeDef} {t : TypeId} (h : info.Lacks (⟨.type d, s⟩ :: es)) :
    (info.addType d.name.name t).filled es ids = info.filled (⟨.type d, s⟩ :: es) (t :: ids) := by
  have hnew : info.constants.get? d.name.name = none := h.types d List.mem_cons_self
  simp [filled, addType, Bindings.set_of_get? hnew, TypeDef.constants]

theorem get?_filled {d : TypeDef} {t : TypeId} (h : info.Lacks (⟨.type d, s⟩ :: es)) :
    (info.filled (⟨.type d, s⟩ :: es) (t :: ids)).constants.get? d.name.name = some (.type t) :=
  (Bindings.lookup_append (h.types d List.mem_cons_self)).trans (if_pos rfl)

theorem filled_method {d : MethodDef} (h : info.Lacks (⟨.method d, s⟩ :: es)) :
    (info.addUser d).filled es ids = info.filled (⟨.method d, s⟩ :: es) ids := by
  cases hside : d.singleton with
  | true =>
    have hnew : info.classMethods.get? d.name.name = none := h.classMethods d (by simp [hside])
    simp [filled, addUser, hside, insert_new hnew]
  | false =>
    have hnew : info.methods.get? d.name.name = none := h.methods d (by simp [hside])
    simp [filled, addUser, hside, insert_new hnew]

theorem Lacks.type {d : TypeDef} {t : TypeId} (h : info.Lacks (⟨.type d, s⟩ :: es))
    (hd : ∀ d' ∈ Expr.types es, d'.name.name ≠ d.name.name) :
    (info.addType d.name.name t).Lacks es where
  types d' hd' := (Bindings.get?_set_of_ne (hd d' hd') _).trans
    (h.types d' (List.mem_cons_of_mem d hd'))
  methods := h.methods
  classMethods := h.classMethods

theorem Lacks.method {d : MethodDef} (h : info.Lacks (⟨.method d, s⟩ :: es))
    (hd : ∀ d' ∈ Expr.methods d.singleton es, d'.name.name ≠ d.name.name) :
    (info.addUser d).Lacks es := by
  unfold addUser
  cases hside : d.singleton with
  | true =>
    rw [hside] at hd
    refine ⟨h.types, fun d' hd' ↦ h.methods d' (by simpa [hside] using hd'), fun d' hd' ↦ ?_⟩
    exact (Bindings.get?_set_of_ne (hd d' hd') _).trans (h.classMethods d' (by simp [hside, hd']))
  | false =>
    rw [hside] at hd
    refine ⟨h.types, fun d' hd' ↦ ?_, fun d' hd' ↦ h.classMethods d' (by simpa [hside] using hd')⟩
    exact (Bindings.get?_set_of_ne (hd d' hd') _).trans (h.methods d' (by simp [hside, hd']))

end TypeInfo

/-- What a definition of a type or module makes at first, with a path for its name. -/
def TypeDef.made (d : TypeDef) (container : TypeId) (path : List String) : TypeInfo :=
  let parent := if container = CoreType.object.id then none else some container
  let superclass := match d.sort with
    | .type => some CoreType.object.id
    | .module => none
  { TypeInfo.new (".".intercalate path) d.sort superclass parent with doc := d.doc }

namespace Types

variable {ts ts' : Types} {t u : TypeId} {info : TypeInfo}

theorem lt_of_get? (h : ts.get? t = some info) : t.index < ts.all.size :=
  (Array.getElem?_eq_some_iff.mp h).1

theorem ne_of_index {t u : TypeId} (h : t.index ≠ u.index) : t ≠ u :=
  fun heq ↦ h (congrArg TypeId.index heq)

theorem get?_modify_of_ne (h : u ≠ t) (f : TypeInfo → TypeInfo) :
    (ts.modify t f).get? u = ts.get? u := by
  have hindex : t.index ≠ u.index := fun heq ↦ h (by cases t; cases u; simp_all)
  simp [modify, get?, Array.getElem?_modify, hindex]

theorem get?_modify_if (t : TypeId) (f : TypeInfo → TypeInfo) (u : TypeId) :
    (ts.modify t f).get? u = (ts.get? u).map fun info ↦ if u = t then f info else info := by
  by_cases hu : u = t
  · subst hu
    simp [get?_modify]
  · simp [get?_modify_of_ne hu, hu]

theorem get?_modify_cases (ts : Types) (t : TypeId) (f : TypeInfo → TypeInfo) (u : TypeId) :
    (ts.modify t f).get? u = ts.get? u ∨
      ∃ info, ts.get? u = some info ∧ (ts.modify t f).get? u = some (f info) := by
  rw [get?_modify_if]
  cases ts.get? u with
  | none => exact .inl rfl
  | some info =>
    by_cases hu : u = t
    · exact .inr ⟨info, rfl, by simp [hu]⟩
    · exact .inl (by simp [hu])

theorem size_modify (f : TypeInfo → TypeInfo) : (ts.modify t f).all.size = ts.all.size := by
  simp [modify]

theorem get?_add_of_lt (h : u.index < ts.all.size) (made : TypeInfo) :
    (ts.add made).get? u = ts.get? u := Array.getElem?_push_lt h |>.trans
      (Array.getElem?_eq_getElem h).symm

theorem get?_add_fresh (made : TypeInfo) : (ts.add made).get? ts.fresh = some made :=
  Array.getElem?_push_size

theorem get?_addUser (h : ts.get? t = some info) (d : MethodDef) :
    (ts.addUser t d).get? t = some (info.addUser d) := by
  unfold addUser TypeInfo.addUser
  split <;> simp [addClassMethod, addMethod, get?_modify, h]

theorem get?_addUser_of_ne (h : u ≠ t) (d : MethodDef) :
    (ts.addUser t d).get? u = ts.get? u := by
  unfold addUser
  split <;> exact get?_modify_of_ne h _

theorem size_addUser (d : MethodDef) : (ts.addUser t d).all.size = ts.all.size := by
  unfold addUser
  split <;> exact size_modify _

theorem get?_document_of_ne (h : u ≠ t) (doc : Option String) :
    (ts.document t doc).get? u = ts.get? u := by
  cases doc with
  | none => rfl
  | some doc => exact get?_modify_of_ne h _

theorem get?_document (h : ts.get? t = some info) (hdoc : info.doc = none) (doc : Option String) :
    (ts.document t doc).get? t = some { info with doc } := by
  cases doc with
  | none => rw [document, h, ← hdoc]
  | some doc =>
    rw [document, get?_modify, h]
    rfl

theorem size_document (doc : Option String) : (ts.document t doc).all.size = ts.all.size := by
  cases doc with
  | none => rfl
  | some doc => exact size_modify _

variable {d : TypeDef} {container : TypeId} {outer : List String}

theorem declare_types (ts : Types) (container : TypeId) (sort : TypeSort) (name : String)
    (superclass : Option TypeId) : ∃ made, (ts.declare container sort name superclass).2 =
      (ts.add made).setConstant container name (.type ts.fresh) := ⟨_, rfl⟩

theorem size_declared : (ts.declared container d).all.size = ts.all.size + 1 := by
  obtain ⟨made, h⟩ := ts.declare_types container d.sort d.name.name none
  rw [declared, size_document, h, setConstant, size_modify]
  exact Array.size_push made

theorem get?_declared_of_ne (h : u ≠ container) (hu : u.index < ts.all.size) :
    (ts.declared container d).get? u = ts.get? u := by
  obtain ⟨made, hmade⟩ := ts.declare_types container d.sort d.name.name none
  have hfresh : u ≠ ts.fresh := ne_of_index (Nat.ne_of_lt hu)
  rw [declared, get?_document_of_ne hfresh, hmade, setConstant, get?_modify_of_ne h,
    get?_add_of_lt hu]

theorem get?_declared_container (h : ts.get? container = some info) :
    (ts.declared container d).get? container = some (info.addType d.name.name ts.fresh) := by
  obtain ⟨made, hmade⟩ := ts.declare_types container d.sort d.name.name none
  have hlt := lt_of_get? h
  have hfresh : container ≠ ts.fresh := ne_of_index (Nat.ne_of_lt hlt)
  rw [declared, get?_document_of_ne hfresh, hmade, setConstant, get?_modify, get?_add_of_lt hlt, h]
  rfl

theorem get?_declared_fresh (h : ts.get? container = some info)
    (hpath : info.PlacedAt container outer) : (ts.declared container d).get? ts.fresh =
      some (d.made container (outer ++ [d.name.name])) := by
  have hfresh : ts.fresh ≠ container := ne_of_index (Nat.ne_of_gt (lt_of_get? h))
  have hname : ts.nameWithin container d.name.name = ".".intercalate (outer ++ [d.name.name]) := by
    rw [← hpath d.name.name, nameWithin, name, h]
  have hnew : (ts.declare container d.sort d.name.name none).2.get? ts.fresh =
      some { d.made container (outer ++ [d.name.name]) with doc := none } := by
    rw [TypeDef.made, ← hname]
    exact (get?_modify_of_ne hfresh _).trans (get?_add_fresh _)
  exact get?_document hnew rfl d.doc

/-- The types and modules that `es` define inside of `container`, in the path `outer`, have the
numbers `ids`, all at least `least`, and have in them what their bodies define. -/
inductive Hosts (ts : Types) : Nat → TypeId → List String → List Expr → List TypeId → Prop
  | nil {least : Nat} {container : TypeId} {outer : List String} :
    Hosts ts least container outer [] []
  | type {least : Nat} {container t : TypeId} {outer : List String} {d : TypeDef} {s : Span}
    {es : List Expr} {ids inner : List TypeId} : least ≤ t.index →
    ts.constant? container d.name.name = some (.type t) →
    ts.get? t = some ((d.made container (outer ++ [d.name.name])).filled d.body inner) →
    Hosts ts (t.index + 1) t (outer ++ [d.name.name]) d.body inner →
    Hosts ts least container outer es ids →
    Hosts ts least container outer (⟨.type d, s⟩ :: es) (t :: ids)
  | method {least : Nat} {container : TypeId} {outer : List String} {d : MethodDef} {s : Span}
    {es : List Expr} {ids : List TypeId} : Hosts ts least container outer es ids →
    Hosts ts least container outer (⟨.method d, s⟩ :: es) ids

variable {es : List Expr} {ids : List TypeId} {least : Nat}

theorem constant?_congr (h : ts'.get? t = ts.get? t) (name : String) :
    ts'.constant? t name = ts.constant? t name := by
  rw [constant?, constant?, h]

theorem Hosts.congr (h : ts.Hosts least container outer es ids)
    (hcontainer : ts'.get? container = ts.get? container)
    (hsame : ∀ u : TypeId, least ≤ u.index → u.index < ts.all.size → ts'.get? u = ts.get? u) :
    ts'.Hosts least container outer es ids := by
  induction h with
  | nil => exact .nil
  | @type least container t outer d s es ids inner hleast hconstant hget _ _ ihbody ihrest =>
    have ht : ts'.get? t = ts.get? t := hsame t hleast (lt_of_get? hget)
    refine .type hleast ((constant?_congr hcontainer _).trans hconstant) (ht.trans hget)
      (ihbody ht fun u hu ↦ hsame u (by omega)) (ihrest hcontainer hsame)
  | method _ ih => exact .method (ih hcontainer hsame)

theorem Hosts.mono {least' : Nat} (h : ts.Hosts least container outer es ids)
    (hle : least' ≤ least) : ts.Hosts least' container outer es ids := by
  induction h with
  | nil => exact .nil
  | type hleast hconstant hget hbody _ _ ih =>
    exact .type (Nat.le_trans hle hleast) hconstant hget hbody (ih hle)
  | method _ ih => exact .method (ih hle)

/-- What definitions `es` inside of `container` make of `ts`. -/
structure Makes (ts : Types) (inside : Bool) (container : TypeId) (outer : List String)
    (es : List Expr) (ids : List TypeId) (ts' : Types) : Prop where
  defining : Defining ts inside container es ts'
  size : ts.all.size ≤ ts'.all.size
  filled : ∀ info, ts.get? container = some info → ts'.get? container = some (info.filled es ids)
  others : ∀ u, u ≠ container → u.index < ts.all.size → ts'.get? u = ts.get? u
  hosts : ts'.Hosts ts.all.size container outer es ids

end Types

theorem TypeDef.made_lacks (d : TypeDef) (container : TypeId) (path : List String)
    (es : List Expr) : (d.made container path).Lacks es :=
  ⟨fun _ _ ↦ rfl, fun _ _ ↦ rfl, fun _ _ ↦ rfl⟩

theorem TypeDef.made_placedAt (d : TypeDef) (container : TypeId) {t : TypeId} {path : List String}
    (ht : t ≠ CoreType.object.id) (hpath : path ≠ []) :
    (d.made container path).PlacedAt t path := by
  intro name
  rw [if_neg ht, String.intercalate_append_of_ne_nil hpath (List.cons_ne_nil _ _),
    String.intercalate_singleton]
  rfl

namespace Types

/-- A type or module is made, its body is run in it, and the other definitions after that. -/
theorem Makes.type {ts ts₁ ts' : Types} {inside : Bool} {container : TypeId} {outer : List String}
    {info : TypeInfo} {d : TypeDef} {s : Span} {es : List Expr} {ids inner : List TypeId}
    (hsuper : d.superclass = none) (hinfo : ts.get? container = some info)
    (hlacks : info.Lacks (⟨.type d, s⟩ :: es)) (hpath : info.PlacedAt container outer)
    (hbody : (ts.declared container d).Makes true ts.fresh (outer ++ [d.name.name]) d.body inner
      ts₁)
    (hcontainer : ts₁.get? container = some (info.addType d.name.name ts.fresh))
    (hrest : ts₁.Makes inside container outer es ids ts') :
    ts.Makes inside container outer (⟨.type d, s⟩ :: es) (ts.fresh :: ids) ts' := by
  have hnew : ts.constant? container d.name.name = none := by
    rw [constant?, hinfo]
    exact hlacks.types d List.mem_cons_self
  have hsize := hbody.size
  rw [size_declared] at hsize
  have hfilled := hrest.filled _ hcontainer
  rw [TypeInfo.filled_type hlacks] at hfilled
  have hconstant : ts'.constant? container d.name.name = some (.type ts.fresh) := by
    rw [constant?, hfilled]
    exact TypeInfo.get?_filled hlacks
  have hlt : container.index < ts.all.size := lt_of_get? hinfo
  -- What the body made stays as it was.
  have hlater (u : TypeId) (hu : ts.all.size ≤ u.index) (hu' : u.index < ts₁.all.size) :
      ts'.get? u = ts₁.get? u := hrest.others u (ne_of_index (by omega)) hu'
  have hkept : ts'.get? ts.fresh = ts₁.get? ts.fresh := hlater _ (Nat.le_refl _) hsize
  refine ⟨.type hsuper hnew hbody.defining hrest.defining, Nat.le_trans (by omega) hrest.size,
    fun info' h ↦ ?_, fun u hu hlt' ↦ ?_, ?_⟩
  · cases hinfo.symm.trans h
    exact hfilled
  · have hu' : u ≠ ts.fresh := ne_of_index (Nat.ne_of_lt hlt')
    rw [hrest.others u hu (by omega), hbody.others u hu' (by rw [size_declared]; omega),
      get?_declared_of_ne hu hlt']
  · have hmade := hbody.filled _ (get?_declared_fresh hinfo hpath)
    have hinner := hbody.hosts.congr hkept fun u hu ↦ hlater u (by rw [size_declared] at hu; omega)
    rw [size_declared] at hinner
    exact .type (Nat.le_refl _) hconstant (hkept.trans hmade) hinner (hrest.hosts.mono (by omega))

theorem Makes.method {ts ts' : Types} {container : TypeId} {outer : List String}
    {info : TypeInfo} {d : MethodDef} {s : Span} {es : List Expr} {ids : List TypeId}
    (hinfo : ts.get? container = some info) (hlacks : info.Lacks (⟨.method d, s⟩ :: es))
    (hrest : (ts.addUser container d).Makes true container outer es ids ts') :
    ts.Makes true container outer (⟨.method d, s⟩ :: es) ids ts' := by
  have hsize := hrest.size
  have hhosts := hrest.hosts
  rw [size_addUser] at hsize hhosts
  refine ⟨.method hrest.defining, hsize, fun info' h ↦ ?_, fun u hu hlt ↦ ?_, .method hhosts⟩
  · cases hinfo.symm.trans h
    rw [hrest.filled _ (get?_addUser hinfo d), TypeInfo.filled_method hlacks]
  · rw [hrest.others u hu (by rw [size_addUser]; exact hlt), get?_addUser_of_ne hu]

end Types

open Types in
theorem Expr.OnlyDefine.makes {inside : Bool} {es : List Expr} (h : OnlyDefine inside es)
    {ts : Types} {container : TypeId} {outer : List String} {info : TypeInfo}
    (hinfo : ts.get? container = some info) (hlacks : info.Lacks es)
    (hpath : info.PlacedAt container outer) :
    ∃ ids ts', ts.Makes inside container outer es ids ts' := by
  induction h generalizing ts container outer info with
  | nil =>
    refine ⟨[], ts, .nil, Nat.le_refl _, fun info h ↦ ?_, fun _ _ _ ↦ rfl, .nil⟩
    rw [TypeInfo.filled_nil]
    exact h
  | @type inside d s es hsuper _ hdistinct _ ihbody ihrest =>
    have hlt : container.index < ts.all.size := lt_of_get? hinfo
    have hfresh : container ≠ ts.fresh := ne_of_index (Nat.ne_of_lt hlt)
    have hobject : ts.fresh ≠ CoreType.object.id :=
      ne_of_index (Nat.ne_of_gt (Nat.zero_lt_of_lt hlt))
    obtain ⟨inner, ts₁, hbody⟩ := ihbody (get?_declared_fresh hinfo hpath)
      (d.made_lacks _ _ _) (d.made_placedAt container hobject (by simp))
    have hcontainer : ts₁.get? container = some (info.addType d.name.name ts.fresh) :=
      (hbody.others container hfresh (by rw [size_declared]; omega)).trans
        (get?_declared_container hinfo)
    obtain ⟨ids, ts', hrest⟩ := ihrest hcontainer (hlacks.type hdistinct) hpath
    exact ⟨ts.fresh :: ids, ts', .type hsuper hinfo hlacks hpath hbody hcontainer hrest⟩
  | @method d s es hdistinct _ ih =>
    obtain ⟨ids, ts', hrest⟩ := ih (get?_addUser hinfo d) (hlacks.method hdistinct)
      (fun name ↦ by rw [TypeInfo.addUser_name]; exact hpath name)
    exact ⟨ids, ts', .method hinfo hlacks hrest⟩

end Quill
