import Quill.Proofs.Installed
import Quill.Proofs.Naming.Runs

/-!
# What is listed

The description of a type or module lists what is defined in it once for every name that it has
there as a constant, and so does the list of all that is at top level. Other constants that refer to
it are listed as constants. So nothing is listed twice as long as constants are only made by
definitions.
Main statements: `listed_per_name` and `aliased_twice`.
-/

namespace Quill

namespace Bindings

variable {α : Type} {name : String} {v : α} {l : List (String × α)}

theorem lookup_of_mem (h : (l.map (·.1)).Nodup) (hm : (name, v) ∈ l) : lookup name l = some v := by
  induction l with
  | nil => cases hm
  | cons e rest ih =>
    rw [List.map_cons, List.nodup_cons] at h
    cases hm with
    | head => simp [lookup]
    | tail _ hm =>
      have hne : e.1 ≠ name := fun he ↦ h.1 (he ▸ List.mem_map_of_mem hm)
      rw [lookup, if_neg hne]
      exact ih h.2 hm

end Bindings

theorem length_eq_one_of_nodup {α : Type} [DecidableEq α] {l : List α} (h : l.Nodup) :
    l.length = 1 ↔ ∃! a, a ∈ l := by
  constructor
  · intro hl
    obtain ⟨a, rfl⟩ := List.length_eq_one_iff.mp hl
    exact ⟨a, List.mem_singleton_self a, fun b hb ↦ List.mem_singleton.mp hb⟩
  · rintro ⟨a, ha, hall⟩
    have hcount : l.length = l.count a :=
      (List.count_eq_length.mpr fun b hb ↦ (hall b hb).symm).symm
    rw [hcount, List.count_eq_one_of_mem h ha]

namespace Types

variable {ts : Types} {t u container : TypeId} {name : String} {v : Value}

/-- The constants of a type or module, in the order they were made. -/
def constants (ts : Types) (t : TypeId) : List (String × Value) :=
  ((ts.get? t).getD default).constants.entries

/-- The names of the constants of `container` that are the type or module `t`. -/
def namesFor (ts : Types) (container t : TypeId) : List String :=
  ((ts.constants container).filter (·.2.type? == some t)).map (·.1)

theorem constants_of_not_made (h : ¬ ts.Made t) : ts.constants t = [] := by
  have hnone : ts.get? t = none := by
    rw [← Option.not_isSome_iff_eq_none, Option.isSome_iff_exists]
    exact mt made_iff.mpr h
  rw [constants, hnone]
  rfl

theorem constant?_eq (ts : Types) (t : TypeId) (name : String) :
    ts.constant? t name = Bindings.lookup name (ts.constants t) := by
  unfold constant? constants
  cases ts.get? t <;> rfl

def NamesApart (ts : Types) : Prop := ts.Every (·.constants.names.Nodup)

theorem TypeInfo.namesApart_lasting : TypeInfo.Lasting (·.constants.names.Nodup) where
  new _ _ _ _ := List.nodup_nil
  constant name v h := by
    rw [Bindings.names_set]
    exact addNew_nodup h
  attr _ _ h := h
  includes _ h := h
  doc _ h := h
  orphan h := h

theorem namesApart_enduring :
    State.Enduring fun s s' ↦ s.types.NamesApart → s'.types.NamesApart :=
  every_enduring TypeInfo.namesApart_lasting (fun _ _ h ↦ h) fun _ _ h ↦ h

theorem standard_namesApart : standard.NamesApart := by
  unfold standard
  exact (every_core TypeInfo.namesApart_lasting).foldl fun _ h e _ ↦
    h.addNative e.classSide (fun _ _ ht _ ↦ ht) fun _ _ ht _ ↦ ht

namespace NamesApart

theorem nodup (h : ts.NamesApart) (t : TypeId) : ((ts.constants t).map (·.1)).Nodup := by
  by_cases ht : ts.Made t
  · obtain ⟨info, hinfo⟩ := made_iff.mp ht
    rw [constants, hinfo]
    exact h t info hinfo
  · rw [constants_of_not_made ht]
    exact List.nodup_nil

theorem mem_constants (h : ts.NamesApart) : (name, v) ∈ ts.constants t ↔
    ts.constant? t name = some v := by
  rw [constant?_eq]
  exact ⟨Bindings.lookup_of_mem (h.nodup t), Bindings.mem_of_lookup⟩

theorem mem_namesFor (h : ts.NamesApart) : name ∈ ts.namesFor container t ↔
    ts.constant? container name = some (.type t) := by
  rw [namesFor, List.mem_map, ← h.mem_constants]
  constructor
  · rintro ⟨⟨name, v⟩, he, rfl⟩
    obtain ⟨hmem, htype⟩ := List.mem_filter.mp he
    obtain rfl : v = .type t := by
      cases v <;> simp_all [Value.type?]
    exact hmem
  · intro hmem
    exact ⟨(name, .type t), List.mem_filter.mpr ⟨hmem, by simp [Value.type?]⟩, rfl⟩

theorem length_namesFor (h : ts.NamesApart) (container t : TypeId) :
    (ts.namesFor container t).length = 1 ↔
      ∃! name, ts.constant? container name = some (.type t) := by
  have hnodup : (ts.namesFor container t).Nodup :=
    (h.nodup container).sublist (List.filter_sublist.map _)
  simp only [length_eq_one_of_nodup hnodup, h.mem_namesFor]

end NamesApart

end Types

namespace State

variable {s : State} {t u : TypeId}

def nestedIn (s : State) (t : TypeId) : List TypeId := s.nestedTypes t (s.types.constants t)

def topTypes (s : State) : List TypeId :=
  ((s.types.constants CoreType.object.id).filterMap (·.2.type?)).filter fun t ↦
    !(s.types.parent t).any s.isRetained

theorem count_filterMap_type? (l : List (String × Value)) (t : TypeId) :
    (l.filterMap (·.2.type?)).count t = (l.filter (·.2.type? == some t)).length := by
  rw [List.count_filterMap, List.countP_eq_length_filter]

/-- What is defined in `t` is listed once for each of its names there, and nothing else is. -/
theorem count_nestedIn (s : State) (t u : TypeId) : (s.nestedIn t).count u =
    if s.types.parent u = some t then (s.types.namesFor t u).length else 0 := by
  unfold nestedIn nestedTypes
  split
  · rename_i hp
    rw [List.count_filter, count_filterMap_type?, Types.namesFor, List.length_map]
    exact beq_iff_eq.mpr hp
  · rename_i hp
    refine List.count_eq_zero.mpr fun hu ↦ hp ?_
    exact beq_iff_eq.mp (List.mem_filter.mp hu).2

/-- The same holds at top level for all that is not defined in something that is still there. -/
theorem count_topTypes (s : State) (u : TypeId) : s.topTypes.count u =
    if (s.types.parent u).any s.isRetained then 0
    else (s.types.namesFor CoreType.object.id u).length := by
  unfold topTypes
  split
  · rename_i hp
    refine List.count_eq_zero.mpr fun hu ↦ ?_
    have hnot := (List.mem_filter.mp hu).2
    rw [hp] at hnot
    cases hnot
  · rename_i hp
    rw [List.count_filter, count_filterMap_type?, Types.namesFor, List.length_map]
    rw [Bool.not_eq_true] at hp
    rw [hp]
    rfl

theorem typeSummaries_eq (s : State) : s.typeSummaries = s.topTypes.map s.typeSummary := rfl

theorem nested_within (s : State) (n : Nat) (t : TypeId) :
    (s.typeSummaryWithin (n + 1) t).nested = (s.nestedIn t).map (s.typeSummaryWithin n) := rfl

theorem mem_constants (s : State) (n : Nat) (t : TypeId) (c : ConstantSummary) :
    c ∈ (s.typeSummaryWithin n t).constants ↔ ∃ name v, (name, v) ∈ s.types.constants t ∧
      (∀ u, v = .type u → s.types.parent u ≠ some t) ∧ c = ⟨name, s.inspectText? v⟩ := by
  have hconstants : (s.typeSummaryWithin n t).constants =
      (s.types.constants t).filterMap (s.constantSummary? t) := by
    cases n <;> rfl
  rw [hconstants, List.mem_filterMap]
  constructor
  · rintro ⟨⟨name, v⟩, hmem, hc⟩
    by_cases hany : v.type?.any (s.types.parent · == some t) = true
    · rw [constantSummary?, if_pos hany] at hc
      cases hc
    · rw [constantSummary?, if_neg hany] at hc
      refine ⟨name, v, hmem, ?_, (Option.some.inj hc).symm⟩
      rintro u rfl hp
      exact hany (by simp [Value.type?, hp])
  · rintro ⟨name, v, hmem, hno, rfl⟩
    refine ⟨(name, v), hmem, if_neg fun hany ↦ ?_⟩
    obtain ⟨u, hu, hp⟩ := (Option.any_eq_true _ _).mp hany
    obtain rfl : v = .type u := by
      cases v <;> cases hu
      rfl
    exact hno u rfl (beq_iff_eq.mp hp)

theorem name_within (s : State) (n : Nat) (t : TypeId) :
    (s.typeSummaryWithin n t).name = s.types.name t := by
  have hname : (s.typeSummaryWithin n t).name = ((s.types.get? t).getD default).name := by
    cases n <;> rfl
  rw [hname, Types.name]
  cases s.types.get? t <;> rfl

theorem nestedIn_of_not_made (h : ¬ s.types.Made t) : s.nestedIn t = [] := by
  rw [nestedIn, Types.constants_of_not_made h]
  rfl

theorem typeSummaryWithin_of_not_made (h : ¬ s.types.Made t) (n : Nat) :
    s.typeSummaryWithin (n + 1) t = s.typeSummaryWithin 0 t := by
  have hnone : s.nestedTypes t ((s.types.get? t).getD default).constants.entries = [] :=
    nestedIn_of_not_made h
  simp only [typeSummaryWithin, hnone, List.map_nil]

theorem parent_of_mem_nestedIn (h : u ∈ s.nestedIn t) : s.types.parent u = some t :=
  beq_iff_eq.mp (List.mem_filter.mp h).2

section

variable (hbefore : ∀ t u, s.types.parent u = some t → t.index < u.index)
include hbefore

/-- If what is around something was made before it, no more levels are asked for than there are. -/
theorem typeSummaryWithin_same {n m : Nat} (hn : s.types.all.size ≤ n + t.index)
    (hm : s.types.all.size ≤ m + t.index) : s.typeSummaryWithin n t = s.typeSummaryWithin m t := by
  induction n generalizing m t with
  | zero =>
    cases m with
    | zero => rfl
    | succ m => exact (typeSummaryWithin_of_not_made (Nat.not_lt.mpr (by omega)) m).symm
  | succ n ih =>
    cases m with
    | zero => exact typeSummaryWithin_of_not_made (Nat.not_lt.mpr (by omega)) n
    | succ m =>
      have hsame : ∀ u ∈ s.nestedTypes t ((s.types.get? t).getD default).constants.entries,
          s.typeSummaryWithin n u = s.typeSummaryWithin m u := by
        intro u hu
        have hlt := hbefore t u (parent_of_mem_nestedIn hu)
        exact ih (by omega) (by omega)
      simp only [typeSummaryWithin, List.map_congr_left hsame]

theorem typeSummary_nested (t : TypeId) :
    (s.typeSummary t).nested = (s.nestedIn t).map s.typeSummary := by
  have hdeep : s.typeSummary t = s.typeSummaryWithin (s.types.all.size + 1) t :=
    typeSummaryWithin_same hbefore (by omega) (by omega)
  rw [hdeep, nested_within]
  rfl

end

namespace Reached

theorem namesApart (h : s.Reached) : s.types.NamesApart := by
  have hR := Types.namesApart_enduring
  induction h with
  | initial config => exact Types.standard_namesApart
  | working _ hr ih => exact hr.evolves_start hR ih
  | ran _ hrun ih => exact Interpreter.run_spans hR hrun ih
  | host _ htypes ih => exact htypes ▸ ih

end Reached

theorem Proceeds.reached {s' : State} (h : s.Proceeds s') (hs : s.Reached) : s'.Reached := by
  cases h with
  | @runs i _ _ _ _ _ hr =>
    have hrested : i.rested.state.Reached := .host hs rfl
    exact .working hrested hr
  | ran _ _ hrun => exact .ran hs hrun
  | asked _ hr => exact .working hs hr
  | host htypes _ => exact .host hs htypes

theorem Arises.reached (h : s.Arises) : s.Reached := by
  obtain ⟨config, h⟩ := h
  induction h with
  | refl => exact .initial config
  | tail _ hstep ih => exact hstep.reached ih

end State

namespace Types

variable {ts : Types} {t u container : TypeId} {short : String}

theorem Named.index_lt_of_parent (h : ts.Named) (hp : ts.parent u = some t) :
    t.index < u.index := by
  obtain ⟨info, hinfo, -⟩ := Option.bind_eq_some_iff.mp hp
  obtain ⟨container, short, hdef, hbefore⟩ := h.placed u (made_iff.mpr ⟨info, hinfo⟩)
  have hparent := hdef.parent
  rw [hp] at hparent
  split at hparent
  · cases hparent
  · rename_i hne
    cases hparent
    exact hbefore.resolve_left hne

theorem Named.length_namesFor (h : ts.Named) (hapart : ts.NamesApart)
    (hdef : ts.DefinedIn container short t) : (ts.namesFor container t).length = 1 := by
  obtain ⟨info, hinfo⟩ := made_iff.mp hdef.made
  refine (hapart.length_namesFor container t).mpr ⟨short, hdef.constant, fun name hname ↦ ?_⟩
  obtain ⟨u, heq, hdef'⟩ := h.constants container name _ hname
  cases heq
  rw [← hdef'.shortName hinfo, hdef.shortName hinfo]

theorem Named.made_of_constants (h : ts.Named) (hapart : ts.NamesApart)
    (hu : u ∈ (ts.constants container).filterMap (·.2.type?)) : ts.Made u := by
  obtain ⟨⟨name, v⟩, hmem, htype⟩ := List.mem_filterMap.mp hu
  obtain ⟨t, rfl, hdef⟩ := h.constants container name v (hapart.mem_constants.mp hmem)
  cases htype
  exact hdef.made

theorem constant?_of_follow (h : ts.follow container [short] = some t) :
    ts.constant? container short = some (.type t) := by
  unfold follow at h
  split at h
  · rename_i u hu
    cases h
    exact hu
  · cases h

theorem Named.count_name (h : ts.Named) (ht : ts.Made t) {l : List TypeId}
    (hl : ∀ u ∈ l, ts.Made u) : (l.map ts.name).count (ts.name t) = l.count t := by
  rw [List.count, List.countP_map, List.count]
  refine List.countP_congr fun u hu ↦ ?_
  rw [Function.comp_apply, beq_iff_eq, beq_iff_eq]
  exact ⟨h.eq_of_name (hl u hu) ht, congrArg ts.name⟩

end Types

namespace State

variable {s : State} {t container : TypeId} {short : String}

theorem typeSummary_name (s : State) : (fun t ↦ (s.typeSummary t).name) = s.types.name :=
  funext fun t ↦ s.name_within _ t

theorem Arises.count_nested (h : s.Arises) (hdef : s.types.DefinedIn container short t)
    (hne : container ≠ CoreType.object.id) :
    ((s.typeSummary container).nested.map (·.name)).count (s.types.name t) = 1 := by
  have hnamed := h.named.types
  have hapart := h.reached.namesApart
  have hparent : s.types.parent t = some container := by rw [hdef.parent, if_neg hne]
  rw [typeSummary_nested fun _ _ ↦ hnamed.index_lt_of_parent, List.map_map]
  change ((s.nestedIn container).map fun u ↦ (s.typeSummary u).name).count _ = 1
  rw [typeSummary_name, hnamed.count_name hdef.made, count_nestedIn, if_pos hparent,
    hnamed.length_namesFor hapart hdef]
  exact fun u hu ↦ hnamed.made_of_constants hapart (List.mem_filter.mp hu).1

theorem Arises.count_top (h : s.Arises) (hdef : s.types.DefinedIn CoreType.object.id short t) :
    (s.typeSummaries.map (·.name)).count (s.types.name t) = 1 := by
  have hnamed := h.named.types
  have hapart := h.reached.namesApart
  have hparent : s.types.parent t = none := by rw [hdef.parent, if_pos rfl]
  rw [typeSummaries_eq, List.map_map]
  change (s.topTypes.map fun u ↦ (s.typeSummary u).name).count _ = 1
  rw [typeSummary_name, hnamed.count_name hdef.made, count_topTypes, hparent, Option.any_none,
    if_neg Bool.false_ne_true, hnamed.length_namesFor hapart hdef]
  exact fun u hu ↦ hnamed.made_of_constants hapart (List.mem_filter.mp hu).1

end State

/-- Descriptions list what is defined in a type or module, and what is at top level, once for each
of its names there, and every other constant with its name and text. In states that programs come
to, that is once if and only if there is one such name; and there is exactly one as long as no
program assigns a constant. -/
theorem listed_per_name (s : State) :
    (∀ (n : Nat) (t : TypeId),
      (s.typeSummaryWithin (n + 1) t).nested = (s.nestedIn t).map (s.typeSummaryWithin n) ∧
      (∀ u, (s.nestedIn t).count u =
        if s.types.parent u = some t then (s.types.namesFor t u).length else 0) ∧
      ∀ c, c ∈ (s.typeSummaryWithin n t).constants ↔ ∃ name v, (name, v) ∈ s.types.constants t ∧
        (∀ u, v = .type u → s.types.parent u ≠ some t) ∧ c = ⟨name, s.inspectText? v⟩) ∧
    (s.typeSummaries = s.topTypes.map s.typeSummary ∧
      ∀ u, s.topTypes.count u = if (s.types.parent u).any s.isRetained then 0
        else (s.types.namesFor CoreType.object.id u).length) ∧
    (s.Reached → ∀ t u, (s.types.namesFor t u).length = 1 ↔
      ∃! name, s.types.constant? t name = some (.type u)) ∧
    (s.Arises →
      (∀ t, (s.typeSummary t).nested = (s.nestedIn t).map s.typeSummary) ∧
      ∀ container short t, s.types.DefinedIn container short t →
        ((if container = CoreType.object.id then s.typeSummaries
          else (s.typeSummary container).nested).map (·.name)).count (s.types.name t) = 1) := by
  refine ⟨fun n t ↦ ⟨s.nested_within n t, s.count_nestedIn t, s.mem_constants n t⟩,
    ⟨s.typeSummaries_eq, s.count_topTypes⟩,
    fun hs ↦ hs.namesApart.length_namesFor, fun hs ↦ ⟨?_, fun container short t hdef ↦ ?_⟩⟩
  · exact fun t ↦ State.typeSummary_nested (fun _ _ ↦ hs.named.types.index_lt_of_parent) t
  · split
    · rename_i htop
      subst htop
      exact hs.count_top hdef
    · rename_i hne
      exact hs.count_nested hdef hne

/-- Without assigned constants: the module is listed once, and so is the type in it. -/
theorem geometry_listed : ∃ (i : Interpreter) (geo point : TypeId),
    i.state.types.DefinedIn CoreType.object.id "Geo" geo ∧
    i.state.types.DefinedIn geo "Point" point ∧
    (i.state.typeSummaries.map (·.name)).count "Geo" = 1 ∧
    ((i.state.typeSummary geo).nested.map (·.name)).count "Geo.Point" = 1 ∧
    ∃! name, i.state.types.constant? geo name = some (.type point) := by
  let geo : TypeId := ⟨CoreType.all.length⟩
  let point : TypeId := ⟨CoreType.all.length + 1⟩
  obtain ⟨-, i, -, -, harises, hi⟩ := Interpreter.arises_of_check geometry
    (fun _ i ↦ decide (i.state.types.follow CoreType.object.id ["Geo"] = some geo ∧
      i.state.types.follow geo ["Point"] = some point ∧
      (i.state.types.name geo = "Geo" ∧ i.state.types.name point = "Geo.Point") ∧
      (i.state.types.namesFor geo point).length = 1)) (by decide +kernel)
  obtain ⟨hgeo, hpoint, ⟨hgeoName, hpointName⟩, hsingle⟩ := of_decide_eq_true hi
  have defined {container t : TypeId} {name : String}
      (h : i.state.types.follow container [name] = some t) :
      i.state.types.DefinedIn container name t := by
    have hconstant := Types.constant?_of_follow h
    obtain ⟨u, heq, hdef⟩ := harises.named.types.constants _ _ _ hconstant
    cases heq
    exact hdef
  obtain ⟨-, -, hone, hlisted⟩ := listed_per_name i.state
  obtain ⟨-, hcount⟩ := hlisted harises
  have hgeoCount := hcount _ _ geo (defined hgeo)
  have hpointCount := hcount _ _ point (defined hpoint)
  rw [if_pos rfl, hgeoName] at hgeoCount
  rw [if_neg (by decide), hpointName] at hpointCount
  exact ⟨i, geo, point, defined hgeo, defined hpoint, hgeoCount, hpointCount,
    (hone harises.reached geo point).mp hsingle⟩

/-- A module and a type in it, each with a second name beside the first. -/
def aliased : String := "\n".intercalate [
  "module Shop",
  "  type Cart",
  "  end",
  "  Basket = Cart",
  "end",
  "Market = Shop"]

/-- Both are listed twice, and no constant is listed. -/
theorem aliased_twice : ∃ (i : Interpreter) (r : Result) (shop : TypeId),
    (Interpreter.mk (.initial .standard)).runText aliased 100 = some (r, i) ∧
    i.state.types.follow CoreType.object.id ["Shop"] = some shop ∧
    (i.state.typeSummary shop).nested.map (·.name) = ["Shop.Cart", "Shop.Cart"] ∧
    (i.state.typeSummary shop).constants = [] ∧
    (i.state.typeSummaries.map (·.name)).count "Shop" = 2 := by
  let shop : TypeId := ⟨CoreType.all.length⟩
  have checked : ((Interpreter.mk (.initial .standard)).runText aliased 100).any (fun p ↦
      decide (p.2.state.types.follow CoreType.object.id ["Shop"] = some shop ∧
        (p.2.state.typeSummary shop).nested.map (·.name) = ["Shop.Cart", "Shop.Cart"] ∧
        (p.2.state.typeSummary shop).constants = [] ∧
        (p.2.state.typeSummaries.map (·.name)).count "Shop" = 2)) = true := by
    decide +kernel
  obtain ⟨⟨r, i⟩, hrun, hi⟩ := (Option.any_eq_true _ _).mp checked
  exact ⟨i, r, shop, hrun, of_decide_eq_true hi⟩

end Quill
