import Quill.Proofs.Lookup

/-!
# Calls of `super`

One call of `super` after the other comes to each method that the first one hides. Main statement:
`super_visits_each_definer`.
-/

namespace Quill

open Eval

/-- The work ends with the error that nothing answers the message `name`. -/
def Step.IsMissing (x : Step Value) (f : Fault) (receiver : Value) (name : String) (span : Span)
    (s : State) : Prop :=
  ∃ error s', x = .done (.error (.raise ⟨.object error, span, s.frames⟩)) s' ∧
    s'.object error = ⟨CoreType.methodMissing.id,
      ⟨[("message", .str f.message), ("name", .symbol name), ("receiver", receiver)]⟩⟩

theorem Eval.missing_isMissing {f : Fault} {receiver : Value} {name : String} {span : Span}
    {s : State} (hf : f.type = .methodMissing) :
    (missing f receiver name span s).IsMissing f receiver name span s := by
  refine ⟨⟨s.objects.size⟩, _, rfl, ?_⟩
  simp [State.object, hf]

namespace State

/-- The types have the same supertypes, modules and methods, and the receiver is of the same
type. -/
structure SameLookup (receiver : Value) (s s' : State) : Prop where
  superclass : ∀ t, s'.types.superclass t = s.types.superclass t
  includes : ∀ t, s'.types.includes t = s.types.includes t
  own : ∀ t classSide name, s'.types.own? t classSide name = s.types.own? t classSide name
  typeOf : s'.typeOf receiver = s.typeOf receiver

variable {receiver : Value} {s s' : State} {m m' : Method} {ms : List Method} {t : TypeId}
  {chain : List TypeId} {name : String}

namespace SameLookup

variable (h : s.SameLookup receiver s')

include h

theorem ancestors (t : TypeId) : s'.types.ancestors t = s.types.ancestors t :=
  Types.ancestors_eq_of_bases (fun u ↦ by rw [Types.bases, Types.bases, h.superclass, h.includes]) t

theorem definers (classSide : Bool) (name : String) (l : List TypeId) :
    s'.definers classSide name l = s.definers classSide name l := by
  simp only [State.definers, h.own]

theorem supers (hc : s.types.Supers t chain) : s'.types.Supers t chain :=
  hc.congr fun u _ ↦ h.superclass u

end SameLookup

/-- As long as nothing is different about the types, `super` in a body of `m` runs `next`, or raises
an error if there is nothing. -/
def SuperFinds (s : State) (receiver : Value) (m : Method) (next : Option Method) : Prop :=
  ∀ s', s.SameLookup receiver s' → ∀ args block,
    s'.superMethod? (m.frame args block) receiver = next ∧
    ∀ c : Call, c.receiver = receiver →
      match next with
      | some m' => deliverSuper (m.frame args block) c s' = invoke m' c s'
      | none => (deliverSuper (m.frame args block) c s').IsMissing (.noSuper m.name) receiver
          m.name c.span s'

theorem superFinds_of_superMethod? {next : Option Method}
    (h : ∀ s', s.SameLookup receiver s' → ∀ args block,
      s'.superMethod? (m.frame args block) receiver = next) :
    s.SuperFinds receiver m next := by
  intro s' hs' args block
  have hm := h s' hs' args block
  refine ⟨hm, fun c hc ↦ ?_⟩
  subst hc
  cases next with
  | some m' =>
    change (read (·.superMethod? (m.frame args block) c.receiver) >>= _) s' = _
    rw [read_bind, hm]
  | none =>
    change ((read (·.superMethod? (m.frame args block) c.receiver) >>= _) s').IsMissing ..
    rw [read_bind, hm]
    exact missing_isMissing rfl

/-- One call of `super` after the other, the first in a body of `m`, comes to just these
methods. -/
inductive SuperCalls (s : State) (receiver : Value) : Method → List Method → Prop
  | last {m : Method} : s.SuperFinds receiver m none → SuperCalls s receiver m []
  | next {m m' : Method} {ms : List Method} : s.SuperFinds receiver m (some m') →
      SuperCalls s receiver m' ms → SuperCalls s receiver m (m' :: ms)

theorem SuperCalls.unique {ms' : List Method} (h : s.SuperCalls receiver m ms)
    (h' : s.SuperCalls receiver m ms') : ms = ms' := by
  have hsame : s.SameLookup receiver s := ⟨fun _ ↦ rfl, fun _ ↦ rfl, fun _ _ _ ↦ rfl, rfl⟩
  induction h generalizing ms' with
  | last hf =>
    cases h' with
    | last => rfl
    | next hf' _ => cases (hf s hsame [] none).1.symm.trans (hf' s hsame [] none).1
  | next hf _ ih =>
    cases h' with
    | last hf' => cases (hf s hsame [] none).1.symm.trans (hf' s hsame [] none).1
    | next hf' hc =>
      cases (hf s hsame [] none).1.symm.trans (hf' s hsame [] none).1
      rw [ih hc]

/-- The methods for instances that come after `m`, if `l₂` are the types behind its owner. -/
theorem superCalls_instance (l₁ l₂ : List TypeId) (hm : m.classSide = false)
    (hl : s.types.ancestors (s.typeOf receiver) = l₁ ++ l₂)
    (hafter : ((l₁ ++ l₂).dropWhile (· != m.owner)).drop 1 = l₂) :
    s.SuperCalls receiver m (s.definers false m.name l₂) := by
  induction hlen : l₂.length using Nat.strong_induction_on generalizing m l₁ l₂ with
  | _ n ih =>
    subst hlen
    have hfinds : s.SuperFinds receiver m (s.definers false m.name l₂).head? := by
      refine superFinds_of_superMethod? fun s' h args block ↦ ?_
      rw [superMethod?_instance hm, h.typeOf, h.ancestors, hl, hafter, h.definers]
    cases hd : s.definers false m.name l₂ with
    | nil => exact .last (by simpa [hd] using hfinds)
    | cons m' ms =>
      refine .next (by simpa [hd] using hfinds) ?_
      obtain ⟨before, after, rfl, rfl, hname, hm'⟩ := definers_cons hd
      have hl' : s.types.ancestors (s.typeOf receiver) =
          (l₁ ++ before ++ [m'.owner]) ++ after := by simpa using hl
      have hnd : (s.types.ancestors (s.typeOf receiver)).Nodup := Types.ancestors_nodup _
      rw [hl', List.append_assoc, List.singleton_append] at hnd
      have hafter' : (((l₁ ++ before ++ [m'.owner]) ++ after).dropWhile (· != m'.owner)).drop 1 =
          after := by simpa using drop_dropWhile hnd
      rw [← hname]
      exact ih after.length (by simp; omega) _ _ hm' hl' hafter' rfl

theorem superCalls_of_first
    (h : s.definers false name (s.types.ancestors (s.typeOf receiver)) = m :: ms) :
    s.SuperCalls receiver m ms := by
  obtain ⟨before, after, hl, rfl, rfl, hm⟩ := definers_cons h
  have hnd : (s.types.ancestors (s.typeOf receiver)).Nodup := Types.ancestors_nodup _
  rw [hl] at hnd
  refine superCalls_instance (before ++ [m.owner]) after hm (by simpa using hl) ?_
  simpa using drop_dropWhile hnd

/-- The methods that come after a method of the type itself, if `upper` are the supertypes of its
owner: first theirs, then those for instances. -/
theorem superCalls_class {upper : List TypeId} (hm : m.classSide = true)
    (hup : s.types.superclass m.owner = none ∧ upper = [] ∨
      ∃ u, s.types.superclass m.owner = some u ∧ s.types.Supers u upper) :
    s.SuperCalls receiver m (s.definers true m.name upper ++
      s.definers false m.name (s.types.ancestors (s.typeOf receiver))) := by
  induction hlen : upper.length using Nat.strong_induction_on generalizing m upper with
  | _ n ih =>
    subst hlen
    have hfinds : s.SuperFinds receiver m (s.definers true m.name upper ++
        s.definers false m.name (s.types.ancestors (s.typeOf receiver))).head? := by
      refine superFinds_of_superMethod? fun s' h args block ↦ ?_
      have hup' : s'.types.superclass m.owner = none ∧ upper = [] ∨
          ∃ u, s'.types.superclass m.owner = some u ∧ s'.types.Supers u upper := by
        rw [h.superclass]
        exact hup.imp_right fun ⟨u, hu, hc⟩ ↦ ⟨u, hu, h.supers hc⟩
      rw [superMethod?_class hm hup', h.typeOf, h.ancestors, h.definers, h.definers]
    cases hd : s.definers true m.name upper with
    | nil =>
      rw [List.nil_append]
      cases hi : s.definers false m.name (s.types.ancestors (s.typeOf receiver)) with
      | nil => exact .last (by simpa [hd, hi] using hfinds)
      | cons m' ms => exact .next (by simpa [hd, hi] using hfinds) (superCalls_of_first hi)
    | cons m' ms =>
      refine .next (by simpa [hd] using hfinds) ?_
      obtain ⟨before, after, rfl, rfl, hname, hm'⟩ := definers_cons hd
      obtain ⟨-, hnil⟩ | ⟨u, -, hc⟩ := hup
      · exact absurd hnil (by simp)
      · rw [← hname]
        exact ih after.length (by simp; omega) hm' hc.after rfl

theorem exists_superCalls (hs : s.types.Rooted) (receiver : Value) (m : Method) :
    ∃ ms, s.SuperCalls receiver m ms := by
  cases hm : m.classSide with
  | false =>
    let rest := (s.types.ancestors (s.typeOf receiver)).dropWhile (· != m.owner)
    have hl : s.types.ancestors (s.typeOf receiver) =
        ((s.types.ancestors (s.typeOf receiver)).takeWhile (· != m.owner) ++ rest.take 1) ++
          rest.drop 1 := by
      rw [List.append_assoc, List.take_append_drop, List.takeWhile_append_dropWhile]
    exact ⟨_, superCalls_instance _ _ hm hl (by rw [← hl])⟩
  | true =>
    cases hu : s.types.superclass m.owner with
    | none => exact ⟨_, superCalls_class hm (.inl ⟨hu, rfl⟩)⟩
    | some u =>
      obtain ⟨upper, hc⟩ := hs.exists_supers u
      exact ⟨_, superCalls_class hm (.inr ⟨u, hu, hc⟩)⟩

/-- A method that a message finds is the first of the type itself along its supertypes, or else the
first for its instances. -/
theorem answer_method {bare : Bool} (hs : s.types.Rooted)
    (h : s.answer receiver name bare = .method m) :
    (∃ t chain ms, receiver = .type t ∧ s.types.Supers t chain ∧
      s.definers true name chain = m :: ms) ∨
    ∃ ms, s.instanceSide receiver name = m :: ms := by
  obtain ⟨a, ha⟩ := exists_finds hs receiver name bare
  obtain rfl := ha.answer_eq.symm.trans h
  cases ha with
  | own ht hc hms => exact .inl ⟨_, _, _, ht, hc, hms⟩
  | inherited _ hms => exact .inr ⟨_, hms⟩

theorem deliver_eq (name : String) (c : Call) (s : State) : deliver name c s =
    match s.answer c.receiver name (c.args.isEmpty && c.block.isNone) with
    | .method m => invoke m c s
    | .constant v => .done (.ok v) s
    | .nothing => missing (.undefinedMethod name (s.describe c.receiver)) c.receiver name c.span
        s := by
  unfold deliver
  rw [read_bind]
  cases s.answer c.receiver name (c.args.isEmpty && c.block.isNone) <;> rfl

theorem deliver_method {c : Call}
    (h : s.answer c.receiver name (c.args.isEmpty && c.block.isNone) = .method m) :
    deliver name c s = invoke m c s := by
  rw [deliver_eq, h]

/-- A message runs the first method that has its name, and then one call of `super` after the other
runs the next: on the instance side those of all ancestors that have one, and from a method of the
type itself first those along its supertypes. None comes twice, the call after the last raises an
error, and wherever calls of `super` start, they come to an end. -/
theorem super_visits_each_definer (hs : s.types.Rooted) (receiver : Value) (name : String) :
    (∀ c m, c.receiver = receiver →
      s.answer receiver name (c.args.isEmpty && c.block.isNone) = .method m →
      deliver name c s = invoke m c s ∧
      ((m.classSide = false ∧ ∃ ms, s.instanceSide receiver name = m :: ms ∧
        s.SuperCalls receiver m ms) ∨
      (m.classSide = true ∧ ∃ t chain ms, receiver = .type t ∧ s.types.Supers t chain ∧
        s.definers true name chain ++ s.instanceSide receiver name = m :: ms ∧
        s.SuperCalls receiver m ms))) ∧
    ((s.instanceSide receiver name).map (·.owner) = (s.types.ancestors (s.typeOf receiver)).filter
        (fun t ↦ (s.types.method? t name).isSome) ∧
      ((s.instanceSide receiver name).map (·.owner)).Nodup) ∧
    (∀ t chain, s.types.Supers t chain →
      (s.definers true name chain).map (·.owner) =
        chain.filter (fun t ↦ (s.types.classMethod? t name).isSome) ∧
      ((s.definers true name chain).map (·.owner)).Nodup) ∧
    ∀ m, ∃! ms, s.SuperCalls receiver m ms := by
  refine ⟨fun c m hc h ↦ ?_, ⟨owners_definers .., ?_⟩, fun t chain hc ↦ ⟨owners_definers .., ?_⟩,
    fun m ↦ ?_⟩
  · subst hc
    refine ⟨deliver_method h, ?_⟩
    obtain ⟨t, chain, ms, ht, hc, hms⟩ | ⟨ms, hms⟩ := answer_method hs h
    · obtain ⟨before, after, rfl, rfl, rfl, hm⟩ := definers_cons hms
      exact .inr ⟨hm, t, _, _, ht, hc, by rw [hms]; rfl, superCalls_class hm hc.after⟩
    · obtain ⟨-, -, -, -, -, hm⟩ := definers_cons hms
      exact .inl ⟨hm, ms, hms, superCalls_of_first hms⟩
  · rw [instanceSide, owners_definers]
    exact (Types.ancestors_nodup _).filter _
  · rw [owners_definers]
    exact hc.nodup.filter _
  · obtain ⟨ms, hms⟩ := exists_superCalls hs receiver m
    exact ⟨ms, hms, fun _ h ↦ h.unique hms⟩

/-- A type `D` below `Base` that includes `M`, all of which have a method `f`, as `Object` has. -/
def manyF : Types :=
  let base := Types.core.fresh
  let m : TypeId := ⟨base.index + 1⟩
  let d : TypeId := ⟨base.index + 2⟩
  let types := ((Types.core.add (.new "Base" .type (some CoreType.object.id) none)).add
    (.new "M" .module none none)).add (.new "D" .type (some base) none)
  let types := types.includeModule d m
  let f := fun types t ↦ Types.modify types t fun info ↦ { info with
    methods := info.methods.set "f" [], classMethods := info.classMethods.set "f" [] }
  [d, m, base, CoreType.object.id].foldl f types

def manyFState : State :=
  { initial default with types := manyF, objects := #[⟨⟨Types.core.all.size + 2⟩, .empty⟩] }

theorem manyF_rooted : manyF.Rooted := by
  refine Types.rooted_of_lt ?_
  decide +kernel

theorem super_visits_manyF :
    manyFState.types.Rooted ∧
    (∃ m ms, manyFState.SuperCalls (.object ⟨0⟩) m ms ∧
      (m :: ms).map (·.owner.index) = [21, 20, 19, 0]) ∧
    ∃ m ms, manyFState.SuperCalls (.type ⟨21⟩) m ms ∧
      (m :: ms).map (fun m ↦ (m.owner.index, m.classSide)) =
        [(21, true), (19, true), (0, true), (0, false)] := by
  refine ⟨manyF_rooted, ⟨⟨"f", ⟨21⟩, false, []⟩, ?_⟩, ⟨⟨"f", ⟨21⟩, true, []⟩, ?_⟩⟩
  · obtain ⟨hstart, -⟩ := super_visits_each_definer (s := manyFState) manyF_rooted (.object ⟨0⟩) "f"
    obtain ⟨-, ⟨-, ms, hms, hc⟩ | ⟨hside, -⟩⟩ :=
      hstart ⟨.object ⟨0⟩, [], none, .origin⟩ ⟨"f", ⟨21⟩, false, []⟩ rfl
        (show manyFState.answer (.object ⟨0⟩) "f" true = _ by cbv)
    · refine ⟨ms, hc, ?_⟩
      rw [← hms]
      decide +kernel
    · cases hside
  · obtain ⟨hstart, -⟩ := super_visits_each_definer (s := manyFState) manyF_rooted (.type ⟨21⟩) "f"
    obtain ⟨-, ⟨hside, -⟩ | ⟨-, t, chain, ms, ht, hchain, hms, hc⟩⟩ :=
      hstart ⟨.type ⟨21⟩, [], none, .origin⟩ ⟨"f", ⟨21⟩, true, []⟩ rfl
        (show manyFState.answer (.type ⟨21⟩) "f" true = _ by cbv)
    · cases hside
    · cases ht
      have hto : manyFState.types.Supers ⟨21⟩ [⟨21⟩, ⟨19⟩, ⟨0⟩] :=
        .above (by decide +kernel) (.above (by decide +kernel) (.last (by decide +kernel)))
      obtain rfl := hchain.unique hto
      refine ⟨ms, hc, ?_⟩
      rw [← hms]
      decide +kernel

end State

end Quill
