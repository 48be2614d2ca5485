import Quill.Proofs.Composition

/-!
# Which lambdas are referred to

Lambdas are numbered in the order they are made. Whatever refers only to the first `n` of them goes
on doing so when it is read, stored or put together.
-/

namespace Quill

/-- What may refer to lambdas. -/
class Tracked (α : Type) where
  /-- Refers to none but the first `n` lambdas. -/
  Known : Nat → α → Prop
  mono {m n : Nat} (h : m ≤ n) (a : α) : Known m a → Known n a

namespace Tracked

@[reducible]
def free (α : Type) : Tracked α := ⟨fun _ _ ↦ True, fun _ _ _ ↦ trivial⟩

instance : Tracked Unit := free _
instance : Tracked Bool := free _
instance : Tracked Nat := free _
instance : Tracked Int64 := free _
instance : Tracked Float := free _
instance : Tracked String := free _
instance : Tracked TypeId := free _
instance : Tracked ScopeId := free _
instance : Tracked TypeSort := free _
instance : Tracked Mismatch := free _
instance : Tracked CallFrame := free _
instance : Tracked Method := free _

instance : Tracked LambdaId := ⟨fun n l ↦ l.index < n, fun h _ ha ↦ Nat.lt_of_lt_of_le ha h⟩

section

variable {α β : Type} [Tracked α] [Tracked β]

instance : Tracked (Option α) where
  Known n
    | some a => Known n a
    | none => True
  mono h
    | some a, ha => mono h a ha
    | none, _ => trivial

instance : Tracked (List α) where
  Known n l := ∀ a ∈ l, Known n a
  mono h _ hl a ha := mono h a (hl a ha)

instance : Tracked (Array α) where
  Known n l := ∀ a ∈ l, Known n a
  mono h _ hl a ha := mono h a (hl a ha)

instance : Tracked (α × β) where
  Known n p := Known n p.1 ∧ Known n p.2
  mono h p hp := ⟨mono h p.1 hp.1, mono h p.2 hp.2⟩

instance : Tracked (Except α β) where
  Known n
    | .ok b => Known n b
    | .error a => Known n a
  mono h
    | .ok b, hb => mono h b hb
    | .error a, ha => mono h a ha

instance : Tracked (Bindings α) where
  Known n b := Known n b.entries
  mono h b hb := mono h b.entries hb

instance : Tracked (Scope α) where
  Known n s := Known n s.bindings
  mono h s hs := mono h s.bindings hs

instance : Tracked (Scopes α) where
  Known n s := Known n s.all
  mono h s hs := mono h s.all hs

end

instance : Tracked Value where
  Known n
    | .lambda l => Known n l
    | _ => True
  mono h v hv := by
    cases v with
    | lambda l => exact mono h l hv
    | _ => trivial

instance : Tracked MethodFrame where
  Known n f := Known n f.args ∧ Known n f.block
  mono h f hf := ⟨mono h f.args hf.1, mono h f.block hf.2⟩

instance : Tracked Context where
  Known n c := Known n c.self ∧ Known n c.method
  mono h c hc := ⟨mono h c.self hc.1, mono h c.method hc.2⟩

instance : Tracked Lambda where
  Known n l := Known n l.home
  mono h l hl := mono h l.home hl

instance : Tracked Held where
  Known n h := Known n h.values ∧ Known n h.context
  mono h a ha := ⟨mono h a.values ha.1, mono h a.context ha.2⟩

instance : Tracked Raised where
  Known n r := Known n r.value
  mono h r hr := mono h r.value hr

instance : Tracked Object where
  Known n o := Known n o.attrs
  mono h o ho := mono h o.attrs ho

instance : Tracked TypeInfo where
  Known n t := Known n t.constants ∧ Known n t.attrs
  mono h t ht := ⟨mono h t.constants ht.1, mono h t.attrs ht.2⟩

instance : Tracked Types where
  Known n ts := Known n ts.all
  mono h ts hts := mono h ts.all hts

/-- Nothing that is kept refers to other lambdas than the first `n`. -/
structure Keeps (n : Nat) (s : State) : Prop where
  types : Known n s.types
  scopes : Known n s.scopes
  lists : Known n s.lists
  lambdas : Known n s.lambdas
  objects : Known n s.objects
  rescuing : Known n s.rescuing
  held : Known n s.held

instance : Tracked State where
  Known := Keeps
  mono h _ hs := ⟨mono h _ hs.types, mono h _ hs.scopes, mono h _ hs.lists, mono h _ hs.lambdas,
    mono h _ hs.objects, mono h _ hs.rescuing, mono h _ hs.held⟩

instance : Tracked Unwind where
  Known n
    | .raise r => Known n r
    | .return_ v | .break_ v | .next v => Known n v
    | .blockBreak l v => Known n l ∧ Known n v
    | .halt _ => True
  mono h u hu := by
    cases u with
    | raise r => exact mono h r hu
    | blockBreak l v => exact ⟨mono h l hu.1, mono h v hu.2⟩
    | return_ v | break_ v | next v => exact mono h v hu
    | halt l => trivial

instance : Tracked Call where
  Known n c := Known n c.receiver ∧ Known n c.args ∧ Known n c.block
  mono h c hc := ⟨mono h c.receiver hc.1, mono h c.args hc.2.1, mono h c.block hc.2.2⟩

instance : Tracked Visit where
  Known n
    | .map vs | .filter _ vs => Known n vs
    | .reduce v => Known n v
    | _ => True
  mono h v hv := by
    cases v with
    | map vs | filter keep vs => exact mono h vs hv
    | reduce v => exact mono h v hv
    | _ => trivial

instance : Tracked Place where
  Known n p := Known n p.values
  mono h p hp := mono h p.values hp

instance : Tracked Answer where
  Known n
    | .constant v => Known n v
    | _ => True
  mono h a ha := by
    cases a with
    | constant v => exact mono h v ha
    | _ => trivial

/-- Nothing that a task is about refers to other lambdas than the first `n`. -/
def About (n : Nat) : Task → Prop
  | .eval _ ctx | .statements _ ctx | .body _ ctx | .guard _ ctx | .loop _ _ ctx
  | .forEach _ _ ctx _ _ _ => Known n ctx
  | .send _ c | .native _ c => Known n c
  | .super frame c => Known n frame ∧ Known n c
  | .callLambda l args block _ => Known n l ∧ Known n args ∧ Known n block
  | .framed _ t => About n t
  | .handling r t => Known n r ∧ About n t
  | .describe v | .rawText v => Known n v
  | .visit v _ block _ _ => Known n v ∧ Known n block
  | .times _ _ block _ => Known n block

instance : Tracked Task where
  Known := About
  mono h t ht := by
    induction t with
    | send name c | native m c => exact mono h c ht
    | super frame c => exact ⟨mono h frame ht.1, mono h c ht.2⟩
    | callLambda l args block span =>
      exact ⟨mono h l ht.1, mono h args ht.2.1, mono h block ht.2.2⟩
    | framed frame t ih => exact ih ht
    | handling r t ih => exact ⟨mono h r ht.1, ih ht.2⟩
    | describe v | rawText v => exact mono h v ht
    | visit v list block span index => exact ⟨mono h v ht.1, mono h block ht.2⟩
    | times left index block span => exact mono h block ht
    | _ => exact mono h _ ht

instance : Tracked Reply where
  Known n
    | .value v => Known n v
    | .task t => Known n t
  mono h
    | .value v, hv => mono h v hv
    | .task t, ht => mono h t ht

namespace Known

section

variable {α β : Type} [Tracked α] [Tracked β] {n : Nat} {a b : α} {l l' : List α}
  {o : Option α} {xs ys : Array α}

theorem nil : Known n ([] : List α) := nofun

theorem cons (ha : Known n a) (hl : Known n l) : Known n (a :: l) :=
  List.forall_mem_cons.mpr ⟨ha, hl⟩

theorem single (ha : Known n a) : Known n [a] := cons ha nil

theorem head (h : Known n (a :: l)) : Known n a := h a List.mem_cons_self

theorem tail (h : Known n (a :: l)) : Known n l := fun b hb ↦ h b (List.mem_cons_of_mem a hb)

theorem subset (h : Known n l) (hl : l' ⊆ l) : Known n l' := fun a ha ↦ h a (hl ha)

theorem append (h : Known n l) (h' : Known n l') : Known n (l ++ l') :=
  List.forall_mem_append.mpr ⟨h, h'⟩

theorem reverse (h : Known n l) : Known n l.reverse :=
  h.subset (List.reverse_subset.mpr fun _ ha ↦ ha)

theorem replicate (k : Nat) (ha : Known n a) : Known n (List.replicate k a) :=
  fun _ hb ↦ List.eq_of_mem_replicate hb ▸ ha

theorem of_some (h : Known n o) (ho : a ∈ o) : Known n a := by
  subst ho
  exact h

theorem text? (o : Option String) : Known n o := by cases o <;> trivial

theorem type? (o : Option TypeId) : Known n o := by cases o <;> trivial

theorem toList (h : Known n o) : Known n o.toList := by
  cases o with
  | some a => exact single h
  | none => exact nil

theorem getD (h : Known n o) (ha : Known n a) : Known n (o.getD a) := by
  cases o with
  | some b => exact h
  | none => exact ha

theorem bind {f : α → Option β} (h : Known n o) (hf : ∀ a, Known n a → Known n (f a)) :
    Known n (o.bind f) := by
  cases o with
  | some a => exact hf a h
  | none => trivial

theorem map {f : α → β} (h : Known n l) (hf : ∀ a, Known n a → Known n (f a)) :
    Known n (l.map f) :=
  List.forall_mem_map.mpr fun a ha ↦ hf a (h a ha)

theorem get? (h : Known n l) (i : Nat) : Known n l[i]? := by
  cases ha : l[i]? with
  | some a => exact h a (List.mem_of_getElem? ha)
  | none => trivial

theorem listGetD (h : Known n l) (i : Nat) (ha : Known n a) : Known n (l.getD i a) := by
  rw [List.getD_eq_getElem?_getD]
  exact (h.get? i).getD ha

theorem arrayList (h : Known n xs) : Known n xs.toList :=
  fun a ha ↦ h a (Array.mem_toList_iff.mp ha)

theorem toArray (h : Known n l) : Known n l.toArray := fun a ha ↦ h a (List.mem_toArray.mp ha)

theorem at? (h : Known n xs) (i : Nat) : Known n xs[i]? := by
  cases ha : xs[i]? with
  | some a => exact h a (Array.mem_of_getElem? ha)
  | none => trivial

theorem push (h : Known n xs) (ha : Known n a) : Known n (xs.push a) := by
  intro b hb
  rcases Array.mem_push.mp hb with hb | rfl
  · exact h b hb
  · exact ha

theorem arrayAppend (h : Known n xs) (h' : Known n ys) : Known n (xs ++ ys) := by
  intro b hb
  rcases Array.mem_append.mp hb with hb | hb
  · exact h b hb
  · exact h' b hb

theorem modify (h : Known n xs) (i : Nat) {f : α → α} (hf : ∀ a, Known n a → Known n (f a)) :
    Known n (xs.modify i f) := by
  intro b hb
  obtain ⟨j, hj⟩ := Array.mem_iff_getElem?.mp hb
  rw [Array.getElem?_modify] at hj
  split at hj
  · obtain ⟨a, ha, rfl⟩ := Option.map_eq_some_iff.mp hj
    exact hf a (h a (Array.mem_of_getElem? ha))
  · exact h b (Array.mem_of_getElem? hj)

theorem setIfInBounds (h : Known n xs) (i : Nat) (ha : Known n a) :
    Known n (xs.setIfInBounds i a) := by
  intro b hb
  rcases Array.mem_or_eq_of_mem_setIfInBounds hb with hb | rfl
  · exact h b hb
  · exact ha

theorem pop (h : Known n xs) : Known n xs.pop := by
  refine fun a ha ↦ h a ?_
  rw [← Array.mem_toList_iff, Array.toList_pop] at ha
  exact Array.mem_toList_iff.mp ((List.dropLast_subset _) ha)

theorem back? (h : Known n xs) : Known n xs.back? := by
  rw [Array.back?_eq_getElem?]
  exact h.at? _

theorem bindingsGet? {bs : Bindings α} (h : Known n bs) (name : String) :
    Known n (bs.get? name) := by
  obtain ⟨entries⟩ := bs
  induction entries with
  | nil => trivial
  | cons e rest ih =>
    unfold Bindings.get? Bindings.lookup
    split
    · exact h.head.2
    · exact ih h.tail

theorem bindingsSet {bs : Bindings α} (h : Known n bs) (name : String) (ha : Known n a) :
    Known n (bs.set name a) := by
  obtain ⟨entries⟩ := bs
  induction entries with
  | nil => exact single ⟨trivial, ha⟩
  | cons e rest ih =>
    unfold Bindings.set Bindings.update
    split
    · exact cons ⟨trivial, ha⟩ h.tail
    · exact cons h.head (ih h.tail)

theorem emptyBindings : Known n (.empty : Bindings α) := nil

theorem bindings {ss : Scopes α} (h : Known n ss) (id : ScopeId) : Known n (ss.bindings id) := by
  unfold Scopes.bindings
  split
  · rename_i scope hscope
    exact h scope (Array.mem_of_getElem? hscope)
  · exact emptyBindings

theorem valueOf? {ss : Scopes α} (h : Known n ss) (id : ScopeId) (name : String) :
    Known n (ss.get? id name) := by
  unfold Scopes.get?
  split
  · exact (h.bindings _).bindingsGet? name
  · trivial

theorem defineIn {ss : Scopes α} (h : Known n ss) (id : ScopeId) (name : String)
    (ha : Known n a) : Known n (ss.define id name a) := by
  have hall : Known n ss.all := h
  have hset (scope : Scope α) (hs : Known n scope.bindings) :
      Known n { scope with bindings := scope.bindings.set name a } := hs.bindingsSet name ha
  exact hall.modify id.index hset

theorem child {ss : Scopes α} (h : Known n ss) (outer : ScopeId) : Known n (ss.child outer) := by
  have hall : Known n ss.all := h
  exact hall.push emptyBindings

end

variable {n : Nat} {s : State} {v : Value}

section

variable {ts : Types}

theorem modifyType (h : Known n ts) (id : TypeId) {f : TypeInfo → TypeInfo}
    (hf : ∀ t, Known n t → Known n (f t)) : Known n (ts.modify id f) := by
  have hall : Known n ts.all := h
  exact hall.modify id.index hf

theorem addType (h : Known n ts) (name : String) (sort : TypeSort)
    (superclass parent : Option TypeId) :
    Known n (ts.add (.new name sort superclass parent)) := by
  have hall : Known n ts.all := h
  exact hall.push ⟨emptyBindings, emptyBindings⟩

theorem setConstant (h : Known n ts) (id : TypeId) (name : String) (hv : Known n v) :
    Known n (ts.setConstant id name v) :=
  h.modifyType id fun _ ht ↦ ⟨ht.1.bindingsSet name hv, ht.2⟩

theorem constant? (h : Known n ts) (id : TypeId) (name : String) :
    Known n (ts.constant? id name) := by
  have hall : Known n ts.all := h
  exact (hall.at? id.index).bind fun _ ht ↦ ht.1.bindingsGet? name

theorem declare (h : Known n ts) (container : TypeId) (sort : TypeSort) (name : String)
    (superclass : Option TypeId) : Known n (ts.declare container sort name superclass).2 :=
  (h.addType _ _ _ _).setConstant container name trivial

theorem document (h : Known n ts) (id : TypeId) (doc : Option String) :
    Known n (ts.document id doc) := by
  cases doc with
  | some d => exact h.modifyType id fun _ ht ↦ ht
  | none => exact h

theorem addMethod (h : Known n ts) (id : TypeId) (name : String) (c : Clause) :
    Known n (ts.addMethod id name c) := h.modifyType id fun _ ht ↦ ht

theorem addClassMethod (h : Known n ts) (id : TypeId) (name : String) (c : Clause) :
    Known n (ts.addClassMethod id name c) := h.modifyType id fun _ ht ↦ ht

theorem addNative (h : Known n ts) (id : TypeId) (classSide : Bool) (name : String)
    (signature : Signature) (routine : Routine) :
    Known n (ts.addNative id classSide name signature routine) := by
  unfold Types.addNative
  split
  · exact h.addClassMethod id name _
  · exact h.addMethod id name _

theorem includeModule (h : Known n ts) (id module : TypeId) :
    Known n (ts.includeModule id module) := by
  unfold Types.includeModule
  split
  · exact h.modifyType id fun _ ht ↦ ht
  · exact h

theorem standardTypes : Known n Types.standard := by
  have hempty : Known n Types.empty := by simp [Known, Types.empty]
  unfold Types.standard Types.core
  refine List.foldlRecOn _ _ ?_ fun ts h e _ ↦ h.addNative _ _ _ _ _
  refine List.foldlRecOn _ _ ?_ fun ts h c _ ↦ h.setConstant _ _ trivial
  exact List.foldlRecOn _ _ hempty fun ts h c _ ↦ h.addType _ _ _ _

end

theorem items (h : Known n s) (l : ListId) : Known n (s.items l) := by
  have hlists : Known n s.lists := h.lists
  exact (hlists.at? l.index).getD nofun

theorem attrs (h : Known n s) (o : ObjectId) : Known n (s.object o).attrs := by
  unfold State.object
  split
  · rename_i obj hobj
    exact h.objects obj (Array.mem_of_getElem? hobj)
  · exact emptyBindings

theorem attr (h : Known n s) (target : Value) (name : String) : Known n (s.attr target name) := by
  unfold State.attr
  split
  · exact ((h.attrs _).bindingsGet? name).getD trivial
  · have htypes : Known n s.types.all := h.types
    exact ((htypes.at? _).bind fun _ ht ↦ ht.2.bindingsGet? name).getD trivial
  · trivial

theorem lambda? (h : Known n s) (l : LambdaId) : Known n (s.lambda? l) := by
  have hlambdas : Known n s.lambdas := h.lambdas
  exact hlambdas.at? l.index

theorem outwardWithin (h : Known n s) (name : String) (k : Nat) (t : TypeId) :
    Known n (s.outwardWithin name k t) := by
  induction k generalizing t with
  | zero => trivial
  | succ k ih =>
    unfold State.outwardWithin
    split
    · rename_i v hv
      exact (Known.constant? h.types t name).of_some hv
    · split
      · exact ih _
      · trivial

theorem findConstant (h : Known n s) (t : TypeId) (name : String) :
    Known n (s.findConstant t name) := by
  unfold State.findConstant
  split
  · rename_i v hv
    exact (h.outwardWithin name _ t).of_some hv
  · split
    · rename_i v hv
      obtain ⟨id, -, hid⟩ := List.exists_of_findSome?_eq_some hv
      exact (Known.constant? h.types id name).of_some hid
    · exact Known.constant? h.types _ name

theorem answer (h : Known n s) (receiver : Value) (name : String) (bare : Bool) :
    Known n (s.answer receiver name bare) := by
  unfold State.answer
  split
  · trivial
  · split
    · rename_i v hv
      cases bare with
      | false => cases hv
      | true =>
        rw [if_pos rfl] at hv
        unfold State.namedConstant? at hv
        split at hv
        · obtain ⟨t, -, ht⟩ := Option.bind_eq_some_iff.mp hv
          exact (Known.constant? h.types t name).of_some ht
        · cases hv
    · split <;> trivial

theorem newList (h : Known n s) {items : Array Value} (hi : Known n items) :
    Known n (s.newList items).2 := { h with lists := h.lists.push hi }

theorem newObject (h : Known n s) (t : TypeId) {attrs : Bindings Value} (ha : Known n attrs) :
    Known n (s.newObject t attrs).2 := { h with objects := h.objects.push ha }

theorem newScope (h : Known n s) (outer : ScopeId) : Known n (s.newScope outer).2 :=
  { h with scopes := h.scopes.child outer }

theorem modifyList (h : Known n s) (l : ListId) {f : Array Value → Array Value}
    (hf : ∀ items, Known n items → Known n (f items)) : Known n (s.modifyList l f) :=
  { h with lists := h.lists.modify l.index hf }

theorem setObjectAttr (h : Known n s) (o : ObjectId) (name : String) (hv : Known n v) :
    Known n (s.setObjectAttr o name v) := by
  have hset (obj : Object) (hobj : Known n obj.attrs) :
      Known n { obj with attrs := obj.attrs.set name v } := hobj.bindingsSet name hv
  exact { h with objects := h.objects.modify o.index hset }

theorem setTypeAttr (h : Known n s) (t : TypeId) (name : String) (hv : Known n v) :
    Known n (s.setTypeAttr t name v) :=
  { h with types := h.types.modifyType t fun _ ht ↦ ⟨ht.1, ht.2.bindingsSet name hv⟩ }

theorem define (h : Known n s) (scope : ScopeId) (name : String) (hv : Known n v) :
    Known n (s.define scope name v) := { h with scopes := h.scopes.defineIn scope name hv }

theorem assign (h : Known n s) (scope : ScopeId) (name : String) (hv : Known n v) :
    Known n (s.assign scope name v) := { h with scopes := h.scopes.defineIn _ name hv }

theorem withTypes (h : Known n s) {types : Types} (ht : Known n types) :
    Known n { s with types } := { h with types := ht }

theorem letGoAround (h : Known n s) (name : String) (t : TypeId) :
    Known n (s.letGoAround name t) := by
  obtain hsame | ⟨u, hless⟩ := s.letGoAround_cases name t
  · rwa [hsame]
  · rw [hless]
    exact h.withTypes (Known.modifyType h.types u fun _ ht ↦ ht)

theorem values {c : Call} (h : Known n c) : Known n c.values :=
  cons h.1 (h.2.2.toList.append h.2.1)

theorem arg {c : Call} (h : Known n c) (i : Nat) : Known n (c.arg i) :=
  h.2.1.listGetD i trivial

theorem fit {args : List Value} (h : Known n args) (p : Params) : Known n (p.fit args) := by
  have padded : Known n (args ++ List.replicate (p.required - args.length) Value.nil) :=
    h.append (replicate _ trivial)
  unfold Params.fit
  dsimp only
  split
  · exact padded
  · exact padded.subset (List.take_subset _ _)

theorem blockArgs (h : Known n s) (p : Params) {args : List Value} (ha : Known n args) :
    Known n (s.blockArgs p args) := by
  unfold State.blockArgs
  split
  · rename_i l
    refine fit ?_ p
    split
    · exact (h.items l).arrayList
    · exact ha
  · exact ha.fit p

end Known

end Tracked

end Quill
