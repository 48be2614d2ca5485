import Mathlib.Data.List.Induction
import Quill.Proofs.Evaluation

/-!
# Overload sets

The clauses of a method come from definitions made one after the other. `overload_set` tells which
clauses these leave behind: definitions with a guard stay as they are, and of those without one that
take the same arguments only the last stays, at the place of the first.
-/

namespace Quill

/-- What a pattern matches, whatever it binds and wherever it stands. -/
inductive Shape where
  | any
  | typed (path : String)
  | const (path : String)
  | literal (value : Literal)
  | list (items : List Shape)
  | rest

namespace Literal

def isFloat : Literal → Bool
  | float _ => true
  | _ => false

theorem beq_iff {a : Literal} (ha : a.isFloat = false) (b : Literal) : a == b ↔ a = b := by
  cases a <;> cases b <;> simp_all [BEq.beq, instBEqLiteral.beq, isFloat]

end Literal

namespace Pattern

def shape : Pattern → Shape
  | wildcard _ | bind _ none => .any
  | bind _ (some path) => .typed path.text
  | const path => .const path.text
  | literal value _ => .literal value
  | list items _ => .list (shapes items)
  | splat .. => .rest
where
  shapes : List Pattern → List Shape
    | [] => []
    | p :: ps => shape p :: shapes ps

def floatFree : Pattern → Bool
  | literal value _ => !value.isFloat
  | list items _ => all items
  | _ => true
where
  /-- None of the items has. -/
  all : List Pattern → Bool
    | [] => true
    | p :: ps => floatFree p && all ps

mutual

theorem sameShape_iff : ∀ {p : Pattern}, p.floatFree → ∀ q, p.sameShape q ↔ p.shape = q.shape
  | wildcard _, _, q | bind _ none, _, q | bind _ (some _), _, q | const _, _, q
  | splat .., _, q => by
    rcases q with _ | ⟨_, _ | _⟩ | _ | _ | _ | _ <;> simp [sameShape, shape]
  | literal value _, hp, q => by
    have hvalue : value.isFloat = false := by simpa [floatFree] using hp
    rcases q with _ | ⟨_, _ | _⟩ | _ | other | _ | _ <;> simp [sameShape, shape]
    simpa using Literal.beq_iff hvalue other
  | list items _, hp, q => by
    have hitems : floatFree.all items := by simpa [floatFree] using hp
    rcases q with _ | ⟨_, _ | _⟩ | _ | _ | others | _ <;> simp [sameShape, shape]
    simpa using same_iff hitems others

theorem same_iff : ∀ {ps : List Pattern}, floatFree.all ps →
    ∀ qs, sameShape.same ps qs ↔ shape.shapes ps = shape.shapes qs
  | [], _, qs => by cases qs <;> simp [sameShape.same, shape.shapes]
  | p :: ps, hps, qs => by
    obtain ⟨hp, hrest⟩ : p.floatFree ∧ floatFree.all ps := by simpa [floatFree.all] using hps
    cases qs with
    | nil => simp [sameShape.same, shape.shapes]
    | cons q qs =>
      simp [sameShape.same, shape.shapes, sameShape_iff hp q, same_iff hrest qs]

end

end Pattern

namespace Params

def shape (p : Params) : List Shape := Pattern.shape.shapes p.items

def floatFree (p : Params) : Bool := Pattern.floatFree.all p.items

theorem sameShape_iff {p : Params} (hp : p.floatFree) (q : Params) :
    p.sameShape q ↔ p.shape = q.shape :=
  Pattern.same_iff hp q.items

theorem sameShape_equivalence :
    Equivalence fun p q : { p : Params // p.floatFree } ↦ p.1.sameShape q.1 = true where
  refl p := by simp [sameShape_iff p.2]
  symm {p q} h := by
    rw [sameShape_iff p.2] at h
    simp [sameShape_iff q.2, h]
  trans {p q r} h h' := by
    rw [sameShape_iff p.2] at h
    rw [sameShape_iff q.2] at h'
    simp [sameShape_iff p.2, h, h']

end Params

namespace MethodDef

/-- Both take the same arguments and have no guard. -/
def rivals (d e : MethodDef) : Bool :=
  d.guard.isNone && e.guard.isNone && d.params.sameShape e.params

variable {d e f : MethodDef}

theorem rivals_iff (hd : d.params.floatFree) :
    d.rivals e ↔ d.guard.isNone ∧ e.guard.isNone ∧ d.params.shape = e.params.shape := by
  simp [rivals, Params.sameShape_iff hd, and_assoc]

theorem rivals_self (hd : d.params.floatFree) : d.rivals d = d.guard.isNone := by
  rw [Bool.eq_iff_iff, rivals_iff hd]
  simp

theorem rivals_left (hd : d.params.floatFree) (he : e.params.floatFree) (h : d.rivals e) :
    d.rivals f = e.rivals f := by
  obtain ⟨hd', he', hshape⟩ := (rivals_iff hd).mp h
  rw [Bool.eq_iff_iff, rivals_iff hd, rivals_iff he, hshape]
  simp [hd', he']

theorem rivals_right (hd : d.params.floatFree) (hf : f.params.floatFree) (h : d.rivals e) :
    f.rivals d = f.rivals e := by
  obtain ⟨hd', he', hshape⟩ := (rivals_iff hd).mp h
  rw [Bool.eq_iff_iff, rivals_iff hf, rivals_iff hf, hshape]
  simp [hd', he']

/-- The last of the definitions that take the same arguments as one without a guard. -/
def latest (d : MethodDef) (ds : List MethodDef) : Option MethodDef := (ds.filter d.rivals).getLast?

@[simp] theorem latest_nil : d.latest [] = none := rfl

@[simp] theorem latest_snoc {ds : List MethodDef} :
    d.latest (ds ++ [e]) = if d.rivals e then some e else d.latest ds := by
  cases h : d.rivals e <;> simp [latest, h]

/-- What stands in the place of `e` once `d` is defined. -/
def instead (d e : MethodDef) : MethodDef := if d.rivals e then d else e

theorem instead_of_rivals (h : d.rivals e) : d.instead e = d := if_pos h

theorem instead_of_not_rivals (h : d.rivals e = false) : d.instead e = e := by simp [instead, h]

end MethodDef

variable {d e f : MethodDef} {ds es set : List MethodDef}

/-- The definitions that stay when one more is made. -/
def redefine (set : List MethodDef) (d : MethodDef) : List MethodDef :=
  if set.any d.rivals then set.map d.instead else set ++ [d]

/-- The definitions that stay when all are made one after the other. -/
def overloads (ds : List MethodDef) : List MethodDef := ds.foldl redefine []

@[simp] theorem overloads_nil : overloads [] = [] := rfl

@[simp] theorem overloads_snoc : overloads (ds ++ [d]) = redefine (overloads ds) d := by
  simp [overloads]

theorem redefine_cases (set : List MethodDef) (d : MethodDef) :
    (∃ e ∈ set, d.rivals e) ∧ redefine set d = set.map d.instead ∨
      (∀ e ∈ set, d.rivals e = false) ∧ redefine set d = set ++ [d] := by
  unfold redefine
  split
  case isTrue h => exact .inl ⟨by simpa using h, rfl⟩
  case isFalse h => exact .inr ⟨by simpa using h, rfl⟩

theorem mem_redefine (h : e ∈ redefine set d) : e ∈ set ∨ e = d := by
  rcases redefine_cases set d with ⟨-, heq⟩ | ⟨-, heq⟩ <;> rw [heq] at h
  · obtain ⟨e', he', rfl⟩ := List.mem_map.mp h
    unfold MethodDef.instead
    split <;> simp [he']
  · simpa using h

theorem mem_overloads (h : e ∈ overloads ds) : e ∈ ds := by
  induction ds using List.reverseRecOn with
  | nil => simp at h
  | append_singleton ds d ih =>
    rw [overloads_snoc] at h
    rcases mem_redefine h with h | rfl
    · simp [ih h]
    · simp

theorem filter_instead {q : MethodDef → Bool} (h : ∀ e ∈ set, d.rivals e → q d = q e) :
    (set.map d.instead).filter q = (set.filter q).map d.instead := by
  rw [List.filter_map]
  congr 1
  apply List.filter_congr
  intro e he
  cases hde : d.rivals e with
  | true => simp [MethodDef.instead_of_rivals hde, h e he hde]
  | false => simp [MethodDef.instead_of_not_rivals hde]

/-- Definitions with a guard neither go nor change places. -/
theorem filter_guarded : (overloads ds).filter (·.guard.isSome) = ds.filter (·.guard.isSome) := by
  induction ds using List.reverseRecOn with
  | nil => simp
  | append_singleton ds d ih =>
    rw [overloads_snoc, List.filter_append, ← ih]
    rcases redefine_cases (overloads ds) d with ⟨⟨e, -, he⟩, heq⟩ | ⟨-, heq⟩ <;> rw [heq]
    · have hrivals (e : MethodDef) (he : d.rivals e) :
          d.guard.isSome = false ∧ e.guard.isSome = false := by
        simp_all [MethodDef.rivals]
      rw [filter_instead fun e _ he ↦ (hrivals e he).1.trans (hrivals e he).2.symm]
      have hsame : ∀ e ∈ (overloads ds).filter (·.guard.isSome), d.instead e = e := by
        intro e he
        apply MethodDef.instead_of_not_rivals
        by_contra h
        simp_all
      simp [List.map_congr_left hsame, (hrivals e he).1]
    · simp

theorem filter_rivals (hf : f.params.floatFree) (hds : ∀ d ∈ ds, d.params.floatFree) :
    (overloads ds).filter f.rivals = (f.latest ds).toList := by
  induction ds using List.reverseRecOn with
  | nil => simp
  | append_singleton ds d ih =>
    have hd : d.params.floatFree := hds d (by simp)
    specialize ih fun e he ↦ hds e (by simp [he])
    rw [overloads_snoc, MethodDef.latest_snoc]
    -- The new definition stands in the place of its rival `e`, or at the end if it has none.
    rcases redefine_cases (overloads ds) d with ⟨⟨e, he, hde⟩, heq⟩ | ⟨hnone, heq⟩ <;> rw [heq]
    · rw [filter_instead fun e _ hde ↦ MethodDef.rivals_right hd hf hde, ih]
      cases hfd : f.rivals d with
      | true =>
        have hmem : e ∈ (f.latest ds).toList := by
          rw [← ih]
          simp [he, MethodDef.rivals_left hf hd hfd, hde]
        obtain hlatest : f.latest ds = some e := by simpa using hmem
        simp [hlatest, MethodDef.instead_of_rivals hde]
      | false =>
        have hsame : ∀ e ∈ (f.latest ds).toList, d.instead e = e := by
          intro e he
          have hfe : f.rivals e := by
            rw [← ih] at he
            simpa using (List.mem_filter.mp he).2
          apply MethodDef.instead_of_not_rivals
          by_contra h
          simp [← MethodDef.rivals_right hd hf (by simpa using h), hfd] at hfe
        simp [List.map_congr_left hsame]
    · cases hfd : f.rivals d with
      | true =>
        have hnil : (overloads ds).filter f.rivals = [] := by
          simpa [MethodDef.rivals_left hf hd hfd] using hnone
        simp [hnil, hfd]
      | false => simp [ih, hfd]

theorem overloads_pairwise (hds : ∀ d ∈ ds, d.params.floatFree) :
    (overloads ds).Pairwise fun d e ↦ d.rivals e = false := by
  rw [List.pairwise_iff_forall_sublist]
  intro d e hsub
  have hd : d.params.floatFree := hds d (mem_overloads (hsub.subset (by simp)))
  by_contra h
  have hde : d.rivals e := by simpa using h
  have hdd : d.rivals d := by
    rw [MethodDef.rivals_self hd]
    exact ((MethodDef.rivals_iff hd).mp hde).1
  have hle := (hsub.filter d.rivals).length_le
  rw [filter_rivals hd hds] at hle
  have := Option.length_toList_le (o := d.latest ds)
  simp [hdd, hde] at hle
  omega

/-- The guard of a definition and the arguments that it takes. -/
def MethodDef.pattern (d : MethodDef) : Option Expr × List Shape := (d.guard, d.params.shape)

theorem MethodDef.pattern_eq (hd : d.params.floatFree) (h : d.rivals e) :
    d.pattern = e.pattern := by
  obtain ⟨hd', he', hshape⟩ := (rivals_iff hd).mp h
  simp_all [pattern]

theorem MethodDef.rivals_of_pattern (hd : d.params.floatFree) (hg : d.guard.isNone)
    (h : d.pattern = e.pattern) : d.rivals e := by
  rw [rivals_iff hd]
  simp_all [pattern]

theorem redefine_patterns (hd : d.params.floatFree) :
    set.map (·.pattern) <+: (redefine set d).map (·.pattern) := by
  rcases redefine_cases set d with ⟨-, heq⟩ | ⟨-, heq⟩ <;> rw [heq]
  · have hsame : ∀ e ∈ set, (d.instead e).pattern = e.pattern := by
      intro e _
      cases hde : d.rivals e with
      | true => rw [MethodDef.instead_of_rivals hde, MethodDef.pattern_eq hd hde]
      | false => rw [MethodDef.instead_of_not_rivals hde]
    rw [List.map_map, ← List.map_congr_left hsame]
    exact List.prefix_rfl
  · simp

theorem overloads_patterns (ds : List MethodDef) (hes : ∀ d ∈ es, d.params.floatFree) :
    (overloads ds).map (·.pattern) <+: (overloads (ds ++ es)).map (·.pattern) := by
  induction es using List.reverseRecOn with
  | nil => simp
  | append_singleton es d ih =>
    rw [← List.append_assoc, overloads_snoc]
    exact (ih fun e he ↦ hes e (by simp [he])).trans (redefine_patterns (hes d (by simp)))

theorem exists_latest (hd : d.params.floatFree) (h : d ∈ ds) (hg : d.guard.isNone) :
    ∃ e, d.latest ds = some e := by
  have hmem : d ∈ ds.filter d.rivals := by simp [h, MethodDef.rivals_self hd, hg]
  exact ⟨_, List.getLast?_eq_some_getLast (List.ne_nil_of_mem hmem)⟩

theorem exists_rival (hds : ∀ d ∈ ds, d.params.floatFree) (hd : d ∈ ds) (hg : d.guard.isNone) :
    ∃ e ∈ overloads ds, d.rivals e := by
  obtain ⟨e, he⟩ := exists_latest (hds d hd) hd hg
  have hin := filter_rivals (hds d hd) hds
  refine ⟨e, List.mem_filter.mp ?_⟩
  simp [hin, he]

theorem overloads_again (hds : ∀ d ∈ ds, d.params.floatFree)
    (hes : ∀ d ∈ es, d ∈ ds ∧ d.guard.isNone) :
    (overloads (ds ++ es)).map (·.pattern) = (overloads ds).map (·.pattern) := by
  have hlength : (overloads (ds ++ es)).length = (overloads ds).length := by
    induction es using List.reverseRecOn with
    | nil => simp
    | append_singleton es d ih =>
      have hes' : ∀ e ∈ es, e ∈ ds ∧ e.guard.isNone := fun e he ↦ hes e (by simp [he])
      rw [← List.append_assoc, overloads_snoc, ← ih hes']
      obtain ⟨hd, hg⟩ := hes d (by simp)
      have hall : ∀ e ∈ ds ++ es, e.params.floatFree := by
        intro e he
        rcases List.mem_append.mp he with he | he
        · exact hds e he
        · exact hds e (hes' e he).1
      obtain ⟨e, he, hde⟩ := exists_rival hall (List.mem_append_left es hd) hg
      rcases redefine_cases (overloads (ds ++ es)) d with ⟨-, heq⟩ | ⟨hnone, -⟩
      · simp [heq]
      · simp [hnone e he] at hde
  have hkept := overloads_patterns ds fun d hd ↦ hds d (hes d hd).1
  exact (hkept.eq_of_length (by simp [hlength])).symm

theorem overloads_first (h : ∀ d ∈ ds, f.rivals d = false) :
    overloads (ds ++ [f]) = overloads ds ++ [f] := by
  rw [overloads_snoc]
  rcases redefine_cases (overloads ds) f with ⟨⟨d, hd, hfd⟩, -⟩ | ⟨-, heq⟩
  · simp [h d (mem_overloads hd)] at hfd
  · exact heq

/-- The last of the definitions that take the same arguments stands where the first was put. -/
theorem overloads_place {before after : List MethodDef}
    (hds : ∀ d ∈ before ++ f :: after, d.params.floatFree) (hg : f.guard.isNone)
    (hfirst : ∀ d ∈ before, f.rivals d = false) :
    (overloads (before ++ f :: after))[(overloads before).length]? =
      f.latest (before ++ f :: after) := by
  have hf : f.params.floatFree := hds f (by simp)
  obtain ⟨new, hnew⟩ := overloads_patterns (before ++ [f])
    fun d (hd : d ∈ after) ↦ hds d (by simp [hd])
  have hat : ((overloads (before ++ f :: after)).map (·.pattern))[(overloads before).length]? =
      some f.pattern := by
    have hsplit : before ++ f :: after = before ++ [f] ++ after := by simp
    rw [hsplit, ← hnew, overloads_first hfirst]
    simp
  rw [List.getElem?_map, Option.map_eq_some_iff] at hat
  obtain ⟨d, hd, hpattern⟩ := hat
  have hin : d ∈ (f.latest (before ++ f :: after)).toList := by
    rw [← filter_rivals hf hds, List.mem_filter]
    exact ⟨List.mem_of_getElem? hd, MethodDef.rivals_of_pattern hf hg hpattern.symm⟩
  rw [hd]
  exact (Option.mem_toList.mp hin).symm

theorem Clause.insert_users (hd : d.params.floatFree) (hset : ∀ e ∈ set, e.params.floatFree)
    (h : set.Pairwise fun e f ↦ e.rivals f = false) :
    (Clause.user d).insert (set.map .user) = (redefine set d).map .user := by
  induction set with
  | nil => simp [Clause.insert, redefine]
  | cons e rest ih =>
    obtain ⟨he, hrest⟩ := List.pairwise_cons.mp h
    have hreplaces : (Clause.user d).replaces (.user e) = d.rivals e := by
      simp [Clause.replaces, MethodDef.rivals]
    simp only [List.map_cons, Clause.insert, hreplaces]
    cases hde : d.rivals e with
    | true =>
      have hsame : ∀ f ∈ rest, d.instead f = f := by
        intro f hf
        apply MethodDef.instead_of_not_rivals
        rw [MethodDef.rivals_left hd (hset e (by simp)) hde, he f hf]
      simp [redefine, hde, MethodDef.instead_of_rivals hde, List.map_congr_left hsame]
    | false =>
      have hkept : redefine (e :: rest) d = e :: redefine rest d := by
        simp only [redefine, List.any_cons, hde, Bool.false_or]
        split <;> simp [MethodDef.instead_of_not_rivals hde]
      simp [hkept, ih (fun f hf ↦ hset f (by simp [hf])) hrest]

/-- The clauses of a type's own method, for its instances or for itself. -/
def Types.own? (ts : Types) (t : TypeId) (singleton : Bool) (name : String) :
    Option (List Clause) :=
  if singleton then ts.classMethod? t name else ts.method? t name

/-- The type that a definition adds a clause to. -/
def Context.home? (ctx : Context) (singleton : Bool) : Option TypeId :=
  if singleton then ctx.self.type? else some ctx.module

variable {s : State} {ctx : Context} {t : TypeId} {name : String} {singleton : Bool}

theorem Types.get?_modify (ts : Types) (t : TypeId) (f : TypeInfo → TypeInfo) :
    (ts.modify t f).get? t = (ts.get? t).map f := by
  simp [modify, get?, Array.getElem?_modify]

theorem Types.own?_addMethod {ts : Types} (ht : (ts.get? t).isSome) (c : Clause) :
    (ts.addMethod t name c).own? t false name =
      some (c.insert ((ts.own? t false name).getD [])) := by
  obtain ⟨info, hinfo⟩ := Option.isSome_iff_exists.mp ht
  simp [own?, method?, addMethod, get?_modify, hinfo, MethodTable.insert, Bindings.get?_set]

theorem Types.own?_addClassMethod {ts : Types} (ht : (ts.get? t).isSome) (c : Clause) :
    (ts.addClassMethod t name c).own? t true name =
      some (c.insert ((ts.own? t true name).getD [])) := by
  obtain ⟨info, hinfo⟩ := Option.isSome_iff_exists.mp ht
  simp [own?, classMethod?, addClassMethod, get?_modify, hinfo, MethodTable.insert,
    Bindings.get?_set]

theorem Eval.defineMethod_gives (hctx : ctx.home? d.singleton = some t)
    (ht : (s.types.get? t).isSome) :
    ∃ s', (Eval.defineMethod d ctx).Gives s (.ok (.symbol d.name.name)) s' ∧
      (s'.types.get? t).isSome ∧
      s'.types.own? t d.singleton d.name.name =
        some ((Clause.user d).insert ((s.types.own? t d.singleton d.name.name).getD [])) := by
  unfold Eval.defineMethod
  cases hside : d.singleton with
  | true =>
    obtain hself : ctx.self = .type t := by
      cases hself : ctx.self <;> simp_all [Context.home?, Value.type?]
    rw [hself]
    refine ⟨_, .bind (.change _ _) (.pure _ _), ?_, Types.own?_addClassMethod ht _⟩
    simpa [Types.addClassMethod, Types.get?_modify] using ht
  | false =>
    obtain rfl : ctx.module = t := by simpa [Context.home?, hside] using hctx
    refine ⟨_, .bind (.change _ _) (.pure _ _), ?_, Types.own?_addMethod ht _⟩
    simpa [Types.addMethod, Types.get?_modify] using ht

/-- Evaluates definitions one after the other; the last one gives the value. -/
def Eval.defineMethods (ctx : Context) (last : Value) : List MethodDef → Eval Value
  | [] => return last
  | d :: ds => do defineMethods ctx (← defineMethod d ctx) ds

theorem Eval.defineMethods_gives (ds : List MethodDef) (v : Value)
    (hctx : ctx.home? singleton = some t)
    (hnext : ∀ d ∈ es, d.name.name = name ∧ d.singleton = singleton)
    (hall : ∀ d ∈ ds ++ es, d.params.floatFree) (ht : (s.types.get? t).isSome)
    (hset : (s.types.own? t singleton name).getD [] = (overloads ds).map .user) :
    ∃ v' s', (Eval.defineMethods ctx v es).Gives s (.ok v') s' ∧ (es = [] → s' = s) ∧
      (es ≠ [] → s'.types.own? t singleton name = some ((overloads (ds ++ es)).map .user)) := by
  induction es generalizing ds s v with
  | nil => exact ⟨v, s, .pure v s, fun _ ↦ rfl, fun h ↦ absurd rfl h⟩
  | cons d es ih =>
    obtain ⟨rfl, rfl⟩ := hnext d (by simp)
    obtain ⟨s₁, hgives, ht₁, hset₁⟩ := Eval.defineMethod_gives hctx ht
    have hfree : ∀ e ∈ overloads ds, e.params.floatFree :=
      fun e he ↦ hall e (by simp [mem_overloads he])
    have hpairwise := overloads_pairwise fun e he ↦ hall e (List.mem_append_left _ he)
    rw [hset, Clause.insert_users (hall d (by simp)) hfree hpairwise, ← overloads_snoc] at hset₁
    obtain ⟨v', s', hgives', hnil, hcons⟩ := ih (ds ++ [d])
      (.symbol d.name.name) (fun e he ↦ hnext e (by simp [he])) (by simpa using hall) ht₁
      (by simp [hset₁])
    refine ⟨v', s', hgives.bind hgives', by simp, fun _ ↦ ?_⟩
    cases es with
    | nil => rw [hnil rfl, hset₁]
    | cons => simpa using hcons (by simp)

/-- The definitions of one name in a type that does not have it yet leave behind those with a guard
and, of those without one that take the same arguments, the last, at the place of the first. -/
theorem overload_set (hctx : ctx.home? singleton = some t) (ht : (s.types.get? t).isSome)
    (hnew : s.types.own? t singleton name = none) (hne : ds ≠ [])
    (hname : ∀ d ∈ ds, d.name.name = name ∧ d.singleton = singleton)
    (hfloat : ∀ d ∈ ds, d.params.floatFree) :
    (∃ v s', (Eval.defineMethods ctx .nil ds).Gives s (.ok v) s' ∧
      s'.types.own? t singleton name = some ((overloads ds).map .user)) ∧
    (overloads ds).filter (·.guard.isSome) = ds.filter (·.guard.isSome) ∧
    (∀ d ∈ ds, d.guard.isNone →
      ∃ last, d.latest ds = some last ∧ (overloads ds).filter d.rivals = [last]) ∧
    (∀ before f after, ds = before ++ f :: after → f.guard.isNone →
      (∀ d ∈ before, f.rivals d = false) →
        overloads (before ++ [f]) = overloads before ++ [f] ∧
        (overloads ds)[(overloads before).length]? = f.latest ds) ∧
    (overloads ds).Pairwise (fun d e ↦ d.rivals e = false) ∧
    (∀ es : List MethodDef, (∀ e ∈ es, e ∈ ds ∧ e.guard.isNone) →
      (overloads (ds ++ es)).map (·.pattern) = (overloads ds).map (·.pattern)) ∧
    (∀ p q : Params, p.floatFree → (p.sameShape q ↔ p.shape = q.shape)) ∧
    Equivalence fun p q : { p : Params // p.floatFree } ↦ p.1.sameShape q.1 = true := by
  refine ⟨?_, filter_guarded, fun d hd hg ↦ ?_, ?_, overloads_pairwise hfloat,
    fun es hes ↦ overloads_again hfloat hes, fun p q hp ↦ Params.sameShape_iff hp q,
    Params.sameShape_equivalence⟩
  · obtain ⟨v, s', hgives, -, hown⟩ := Eval.defineMethods_gives [] .nil hctx hname hfloat ht
      (by simp [hnew])
    exact ⟨v, s', hgives, hown hne⟩
  · obtain ⟨last, hlast⟩ := exists_latest (hfloat d hd) hd hg
    exact ⟨last, hlast, by simp [filter_rivals (hfloat d hd) hfloat, hlast]⟩
  · rintro before f after rfl hg hfirst
    exact ⟨overloads_first hfirst, overloads_place hfloat hg hfirst⟩

def oneParameter (p : Pattern) (guard : Option Expr) : MethodDef :=
  ⟨⟨"f", .origin⟩, false, ⟨[p], none⟩, guard, ⟨[], [], none, none, .origin⟩, none, .origin⟩

/-- Only the second of the two clauses that take anything stays, before the one with a guard. -/
theorem f_defined_thrice :
    let first := oneParameter (.bind ⟨"x", .origin⟩ none) none
    let guarded := oneParameter (.wildcard .origin) (some ⟨.self, .origin⟩)
    let last := oneParameter (.wildcard .origin) none
    let s : State := { State.initial .standard with types := ⟨#[.new "Object" .type none none]⟩ }
    ∃ v s', (Eval.defineMethods ⟨⟨0⟩, .nil, ⟨0⟩, none⟩ .nil [first, guarded, last]).Gives s
        (.ok v) s' ∧
      s'.types.own? ⟨0⟩ false "f" = some [.user last, .user guarded] := by
  intro first guarded last s
  have hname : ∀ d ∈ [first, guarded, last], d.name.name = "f" ∧ d.singleton = false := by
    simp [first, guarded, last, oneParameter]
  have hfloat : ∀ d ∈ [first, guarded, last], d.params.floatFree := by decide
  exact (overload_set (s := s) rfl rfl rfl (by simp) hname hfloat).1

end Quill
