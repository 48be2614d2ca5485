import Quill.Eval.Run
import Quill.Proofs.Ancestry
import Quill.Proofs.Climbing
import Quill.Proofs.Overloads

/-!
# What a message finds

`State.definers` lists the methods of a name in the order in which they hide each other. A message
finds the first of them, and `super` the one after the method that is running.
-/

namespace Quill

namespace Types

variable {ts ts' : Types} {t : TypeId} {chain : List TypeId}

/-- No type is a supertype of itself, as in every state that programs come to:
`State.Reached.rooted`. -/
def Rooted (ts : Types) : Prop := ∀ t, ¬ Relation.TransGen (ts.superclass · = some ·) t t

abbrev Supers (ts : Types) : TypeId → List TypeId → Prop := Climb ts.superclass

theorem index_lt_of_superclass (h : (ts.superclass t).isSome) : t.index < ts.all.size := by
  by_contra hlt
  simp [superclass, get?, Array.getElem?_eq_none (Nat.le_of_not_lt hlt)] at h

theorem mem_all_of_superclass (t : TypeId) (h : (ts.superclass t).isSome) :
    t ∈ (List.range ts.all.size).map TypeId.mk :=
  List.mem_map.mpr ⟨t.index, List.mem_range.mpr (index_lt_of_superclass h), rfl⟩

theorem rooted_of_lt (h : ∀ i < ts.all.size, ∀ u ∈ ts.superclass ⟨i⟩, u.index < i) :
    ts.Rooted := by
  have hlt {t u : TypeId} (hr : Relation.TransGen (ts.superclass · = some ·) t u) :
      u.index < t.index := by
    have hstep {t u : TypeId} (hu : ts.superclass t = some u) : u.index < t.index :=
      h t.index (index_lt_of_superclass (by rw [hu]; rfl)) u hu
    induction hr with
    | single hu => exact hstep hu
    | tail _ hu ih => exact (hstep hu).trans ih
  intro t hr
  exact Nat.lt_irrefl _ (hlt hr)

theorem Rooted.exists_supers (h : ts.Rooted) (t : TypeId) : ∃ chain, ts.Supers t chain :=
  exists_climb h mem_all_of_superclass t

theorem classSideWithin_eq {name : String} (hc : ts.Supers t chain) {n : Nat}
    (hn : chain.length ≤ n) :
    ts.classSideWithin name n t =
      chain.findSome? fun u ↦ (ts.classMethod? u name).map (u, ·) := by
  induction hc generalizing n with
  | @last t hs =>
    obtain ⟨n, rfl⟩ := Nat.exists_eq_succ_of_ne_zero (Nat.ne_zero_of_lt hn)
    rw [classSideWithin, hs]
    cases hm : ts.classMethod? t name <;> simp [hm]
  | @above t s chain hs _ ih =>
    obtain ⟨n, rfl⟩ := Nat.exists_eq_succ_of_ne_zero (Nat.ne_zero_of_lt hn)
    rw [classSideWithin, hs]
    cases hm : ts.classMethod? t name with
    | some clauses => simp [hm]
    | none =>
      rw [List.findSome?_cons, hm]
      exact ih (Nat.le_of_succ_le_succ hn)

theorem classSide?_eq (hc : ts.Supers t chain) (name : String) :
    ts.classSide? t name = chain.findSome? fun u ↦ (ts.classMethod? u name).map (u, ·) := by
  refine classSideWithin_eq hc ?_
  have hlen := hc.length_le mem_all_of_superclass
  rwa [List.length_map, List.length_range] at hlen

theorem firstWith_eq (ts : Types) (name : String) (l : List TypeId) :
    ts.firstWith name l = l.findSome? fun u ↦ (ts.method? u name).map (u, ·) := by
  induction l with
  | nil => rfl
  | cons u l ih =>
    rw [firstWith, List.findSome?_cons]
    cases ts.method? u name with
    | some clauses => rfl
    | none => exact ih

theorem Walk.of_bases {out todo out' : List TypeId} (h : ts.Walk out todo out')
    (hb : ∀ t, ts'.bases t = ts.bases t) : ts'.Walk out todo out' := by
  induction h with
  | done => exact .done
  | seen hm _ ih => exact .seen hm ih
  | new hm _ _ ih₁ ih₂ => exact .new hm (hb _ ▸ ih₁) ih₂

theorem ancestors_eq_of_bases (hb : ∀ t, ts'.bases t = ts.bases t) (t : TypeId) :
    ts'.ancestors t = ts.ancestors t :=
  (ts'.ancestors_walk t).unique ((ts.ancestors_walk t).of_bases hb)

end Types

namespace State

variable {s : State} {name : String} {t : TypeId} {chain l : List TypeId} {m : Method}
  {ms : List Method} {classSide : Bool}

/-- The methods of that name that the types have, for their instances or for themselves. -/
def definers (s : State) (classSide : Bool) (name : String) (l : List TypeId) : List Method :=
  l.filterMap fun t ↦ (s.types.own? t classSide name).map (⟨name, t, classSide, ·⟩)

theorem head?_definers (s : State) (classSide : Bool) (name : String) (l : List TypeId) :
    (s.definers classSide name l).head? =
      (l.findSome? fun u ↦ (s.types.own? u classSide name).map (u, ·)).map
        fun (owner, clauses) ↦ ⟨name, owner, classSide, clauses⟩ := by
  rw [definers, List.head?_filterMap]
  induction l with
  | nil => rfl
  | cons t l ih =>
    rw [List.findSome?_cons, List.findSome?_cons]
    cases s.types.own? t classSide name with
    | some clauses => rfl
    | none => exact ih

theorem methodAmong_eq (s : State) (name : String) (l : List TypeId) :
    s.methodAmong name l = (s.definers false name l).head? := by
  rw [methodAmong, Types.firstWith_eq, head?_definers]
  rfl

theorem classMethod?_eq (hc : s.types.Supers t chain) (name : String) :
    s.classMethod? t name = (s.definers true name chain).head? := by
  rw [classMethod?, Types.classSide?_eq hc, head?_definers]
  rfl

theorem owners_definers (s : State) (classSide : Bool) (name : String) (l : List TypeId) :
    (s.definers classSide name l).map (·.owner) =
      l.filter fun t ↦ (s.types.own? t classSide name).isSome := by
  induction l with
  | nil => rfl
  | cons t l ih =>
    rw [definers, List.filterMap_cons]
    cases hm : s.types.own? t classSide name <;> simp [hm, ← ih, definers]

theorem definers_cons (h : s.definers classSide name l = m :: ms) :
    ∃ l₁ l₂, l = l₁ ++ m.owner :: l₂ ∧ s.definers classSide name l₂ = ms ∧ m.name = name ∧
      m.classSide = classSide := by
  obtain ⟨l₁, t, l₂, rfl, -, hm, rfl⟩ := List.filterMap_eq_cons_iff.mp h
  obtain ⟨clauses, -, rfl⟩ := Option.map_eq_some_iff.mp hm
  exact ⟨l₁, l₂, rfl, rfl, rfl, rfl⟩

variable {receiver : Value} {bare : Bool} {a : Answer}

/-- The methods of that name for instances of the receiver's type, in the order of its
ancestors. -/
def instanceSide (s : State) (receiver : Value) (name : String) : List Method :=
  s.definers false name (s.types.ancestors (s.typeOf receiver))

/-- The receiver itself has no method of that name, and no constant that a bare message names. -/
def HasNothing (s : State) (receiver : Value) (name : String) (bare : Bool) : Prop :=
  ∀ t, receiver = .type t →
    (∃ chain, s.types.Supers t chain ∧ s.definers true name chain = []) ∧
    (bare = true → isConstantName name = true → s.types.constant? t name = none)

/-- A message finds the first method of the type itself along its supertypes, or its own constant,
or else the first method for instances. -/
inductive Finds (s : State) (receiver : Value) (name : String) (bare : Bool) : Answer → Prop
  | own {t : TypeId} {chain : List TypeId} {m : Method} {ms : List Method} :
      receiver = .type t → s.types.Supers t chain → s.definers true name chain = m :: ms →
      Finds s receiver name bare (.method m)
  | constant {t : TypeId} {chain : List TypeId} {v : Value} :
      receiver = .type t → s.types.Supers t chain → s.definers true name chain = [] →
      bare = true → isConstantName name = true → s.types.constant? t name = some v →
      Finds s receiver name bare (.constant v)
  | inherited {m : Method} {ms : List Method} : s.HasNothing receiver name bare →
      s.instanceSide receiver name = m :: ms → Finds s receiver name bare (.method m)
  | nothing : s.HasNothing receiver name bare → s.instanceSide receiver name = [] →
      Finds s receiver name bare .nothing

theorem ownMethod?_type (hc : s.types.Supers t chain) :
    s.ownMethod? (.type t) name = (s.definers true name chain).head? := classMethod?_eq hc name

theorem instanceMethod?_eq (s : State) (receiver : Value) (name : String) :
    s.instanceMethod? receiver name = (s.instanceSide receiver name).head? := methodAmong_eq ..

theorem HasNothing.answer_eq (h : s.HasNothing receiver name bare) :
    s.answer receiver name bare =
      ((s.instanceSide receiver name).head?.map Answer.method).getD .nothing := by
  have hown : s.ownMethod? receiver name = none := by
    cases receiver with
    | type t =>
      obtain ⟨⟨chain, hc, hnone⟩, -⟩ := h t rfl
      rw [ownMethod?_type hc, hnone, List.head?_nil]
    | _ => rfl
  have hnamed : (if bare = true then s.namedConstant? receiver name else none) = none := by
    cases receiver with
    | type t =>
      obtain ⟨-, hconstant⟩ := h t rfl
      simp only [namedConstant?, Value.type?, Option.bind_some, ite_eq_right_iff]
      exact hconstant
    | _ => simp [namedConstant?, Value.type?]
  rw [answer, hown]
  dsimp only
  rw [hnamed, instanceMethod?_eq]
  cases (s.instanceSide receiver name).head? <;> rfl

theorem Finds.answer_eq (h : s.Finds receiver name bare a) : s.answer receiver name bare = a := by
  cases h with
  | own ht hc hms =>
    subst ht
    rw [answer, ownMethod?_type hc, hms]
    rfl
  | constant ht hc hms hbare hname hv =>
    subst ht hbare
    rw [answer, ownMethod?_type hc, hms]
    simp [namedConstant?, hname, Value.type?, hv]
  | inherited h hms =>
    rw [h.answer_eq, hms]
    rfl
  | nothing h hms =>
    rw [h.answer_eq, hms]
    rfl

theorem exists_finds (hs : s.types.Rooted) (receiver : Value) (name : String) (bare : Bool) :
    ∃ a, s.Finds receiver name bare a := by
  by_cases h : s.HasNothing receiver name bare
  · cases hms : s.instanceSide receiver name with
    | nil => exact ⟨_, .nothing h hms⟩
    | cons m ms => exact ⟨_, .inherited h hms⟩
  · obtain ⟨t, h⟩ := not_forall.mp h
    obtain ⟨ht, h⟩ := Classical.not_imp.mp h
    obtain ⟨chain, hc⟩ := hs.exists_supers t
    cases hms : s.definers true name chain with
    | cons m ms => exact ⟨_, .own ht hc hms⟩
    | nil =>
      have hv : ¬ (bare = true → isConstantName name = true → s.types.constant? t name = none) :=
        fun hv ↦ h ⟨⟨chain, hc, hms⟩, hv⟩
      obtain ⟨hbare, hv⟩ := Classical.not_imp.mp hv
      obtain ⟨hname, hv⟩ := Classical.not_imp.mp hv
      obtain ⟨v, hv⟩ := Option.ne_none_iff_exists'.mp hv
      exact ⟨_, .constant ht hc hms hbare hname hv⟩

variable {args : List Value} {block : Option Value}

theorem superMethod?_instance (hm : m.classSide = false) :
    s.superMethod? (m.frame args block) receiver = (s.definers false m.name
      (((s.types.ancestors (s.typeOf receiver)).dropWhile (· != m.owner)).drop 1)).head? := by
  rw [superMethod?, methodAmong_eq]
  simp [Method.frame, hm]

/-- A method of the type itself hides those of the supertypes `upper`, and they hide the methods
for instances. -/
theorem superMethod?_class {upper : List TypeId} (hm : m.classSide = true)
    (hup : s.types.superclass m.owner = none ∧ upper = [] ∨
      ∃ u, s.types.superclass m.owner = some u ∧ s.types.Supers u upper) :
    s.superMethod? (m.frame args block) receiver = (s.definers true m.name upper ++
      s.definers false m.name (s.types.ancestors (s.typeOf receiver))).head? := by
  rw [superMethod?, instanceMethod?, methodAmong_eq, List.head?_append]
  simp only [Method.frame, hm, if_true]
  obtain ⟨hu, rfl⟩ | ⟨u, hu, hc⟩ := hup
  · rw [hu]
    rfl
  · rw [hu, Option.bind_some, classMethod?_eq hc]

theorem drop_dropWhile {l₁ l₂ : List TypeId} (h : (l₁ ++ t :: l₂).Nodup) :
    ((l₁ ++ t :: l₂).dropWhile (· != t)).drop 1 = l₂ := by
  have hne : ∀ u ∈ l₁, (u != t) = true := by
    intro u hu
    rw [bne_iff_ne]
    rintro rfl
    exact (List.nodup_append.mp h).2.2 u hu u List.mem_cons_self rfl
  rw [List.dropWhile_append_of_pos hne, List.dropWhile_cons_of_neg (by simp), List.drop_one,
    List.tail_cons]

end State

end Quill
