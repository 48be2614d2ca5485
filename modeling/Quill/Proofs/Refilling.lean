import Quill.Proofs.Effects
import Quill.Proofs.Matching

/-!
# What a match takes apart

The values that a match has found, put back into the pattern, make up the value again. Main
statement: `matchPattern_refills`.
-/

namespace Quill

open Eval

/-- A pattern with values in the places of its names. -/
inductive Mold where
  | hole
  | value (v : Value)
  | list (parts : List Mold)
  /-- The items that a splat without a name took. -/
  | gap
  /-- The items that a splat took are those of a list. -/
  | items (v : Value)

namespace Pattern

mutual

/-- The pattern with the first of the values in the places of its names, and the other values. -/
def refill : Pattern → List Value → Option (Mold × List Value)
  | .bind .., v :: vs | .splat (some _) _, v :: vs => some (.value v, vs)
  | .bind .., [] | .splat (some _) _, [] => none
  | .list items _, vs => (refillAll items vs).map fun (parts, vs) ↦ (.list parts, vs)
  | .wildcard _, vs | .const _, vs | .literal .., vs | .splat none _, vs => some (.hole, vs)

/-- The same for the parts of a list. -/
def refillAll : List Pattern → List Value → Option (List Mold × List Value)
  | [], vs => some ([], vs)
  | .splat (some _) _ :: ps, v :: vs =>
    (refillAll ps vs).map fun (parts, vs) ↦ (.items v :: parts, vs)
  | .splat (some _) _ :: _, [] => none
  | .splat none _ :: ps, vs => (refillAll ps vs).map fun (parts, vs) ↦ (.gap :: parts, vs)
  | p :: ps, vs =>
    (refill p vs).bind fun (part, vs) ↦
      (refillAll ps vs).map fun (parts, vs) ↦ (part :: parts, vs)

end

theorem refillAll_cons {p : Pattern} (hp : ¬ p.isSplat = true) (ps : List Pattern)
    (vs : List Value) : refillAll (p :: ps) vs = (refill p vs).bind fun (part, vs) ↦
      (refillAll ps vs).map fun (parts, vs) ↦ (part :: parts, vs) := by
  cases p with
  | splat => exact absurd rfl hp
  | _ => cases vs <;> simp only [refillAll]

end Pattern

abbrev Lists := Array (Array Value)

def Lists.items (a : Lists) (l : ListId) : List Value := ((a[l.index]?).getD #[]).toList

/-- Only in the tasks are lists changed or made. -/
def Follows : Lists → List Episode → Lists → Prop
  | a, [], b => b = a
  | a, e :: es, b => e.before.lists = a ∧ Follows e.after.lists es b

theorem Along.follows {s s' : State} {es : List Episode} (h : Along State.Looks s es s') :
    Follows s.lists es s'.lists := by
  induction es generalizing s with
  | nil => exact h.lists
  | cons e es ih => exact ⟨h.1.lists, ih h.2⟩

theorem Follows.append {a b c : Lists} {es es' : List Episode} (h : Follows a es b)
    (h' : Follows b es' c) : Follows a (es ++ es') c := by
  induction es generalizing a with
  | nil => exact h ▸ h'
  | cons e es ih => exact ⟨h.1, ih h.2⟩

mutual

/-- The mold makes up the value, by what lists held when the match came to them: at first the lists
are `a`, and in the end `b`. -/
inductive Rebuilds : Lists → List Episode → Lists → Mold → Value → Prop
  | hole {a b : Lists} {es : List Episode} {v : Value} :
      Follows a es b → Rebuilds a es b .hole v
  | value {a b : Lists} {es : List Episode} {v : Value} :
      Follows a es b → Rebuilds a es b (.value v) v
  | list {a b : Lists} {es : List Episode} {l : ListId} {parts : List Mold} :
      RebuildsAll a es b parts (a.items l) → Rebuilds a es b (.list parts) (.list l)

/-- The parts make up the values one after the other. The list of a splat with a name is new, and
holds just what the splat took. -/
inductive RebuildsAll : Lists → List Episode → Lists → List Mold → List Value → Prop
  | nil {a : Lists} : RebuildsAll a [] a [] []
  | one {a b c : Lists} {es es' : List Episode} {m : Mold} {ms : List Mold} {v : Value}
      {vs : List Value} : Rebuilds a es b m v → RebuildsAll b es' c ms vs →
      RebuildsAll a (es ++ es') c (m :: ms) (v :: vs)
  | gap {a b : Lists} {es : List Episode} {ms : List Mold} {vs : List Value}
      (taken : List Value) : RebuildsAll a es b ms vs →
      RebuildsAll a es b (.gap :: ms) (taken ++ vs)
  | items {a b : Lists} {es : List Episode} {ms : List Mold} {vs : List Value}
      (taken : List Value) : RebuildsAll (a.push taken.toArray) es b ms vs →
      RebuildsAll a es b (.items (.list ⟨a.size⟩) :: ms) (taken ++ vs)

end

theorem countP_of_not_any {ps : List Pattern} (h : ps.any (·.isSplat) = false) :
    ps.countP (!·.isSplat) = ps.length := by
  rw [List.countP_eq_length]
  simpa using h

theorem length_of_countFits {ps : List Pattern} {n : Nat} (h : countFits ps n = true)
    (hany : ps.any (·.isSplat) = false) : n = ps.length := by
  simpa [countFits, hany, countP_of_not_any hany] using h

/-- If there is no other splat, just as many items are left as there are patterns after one. -/
theorem length_splatItems {after : List Pattern} {values : List Value}
    (h : after.countP (!·.isSplat) ≤ values.length) (hany : after.any (·.isSplat) = false) :
    (splatItems after values).2.length = after.length := by
  rw [countP_of_not_any hany] at h
  rw [splatItems, List.splitAt_eq, List.length_drop]
  omega

/-- What was collected after `acc`: values for the names, which put back make up what was
matched. -/
def Refills {μ : Type} (names : List String) (refill : List Value → Option (μ × List Value))
    (rebuilds : μ → Prop) (acc found : Matched) : Prop :=
  ∃ (new : Matched) (mold : μ), found = new.reverse ++ acc ∧ new.map (·.1) = names ∧
    (∀ rest, refill (new.map (·.2) ++ rest) = some (mold, rest)) ∧ rebuilds mold

namespace Refills

variable {ps : List Pattern} {p : Pattern} {v : Value} {vs : List Value} {a b c : Lists}
  {es es' : List Episode} {acc mid found : Matched}

theorem items {name : Ident} {taken : List Value} (span : Span)
    (h : Refills (Pattern.names.all ps) (Pattern.refillAll ps)
      (RebuildsAll (a.push taken.toArray) es b · vs) ((name.name, .list ⟨a.size⟩) :: acc) found) :
    Refills (Pattern.names.all (.splat (some name) span :: ps))
      (Pattern.refillAll (.splat (some name) span :: ps)) (RebuildsAll a es b · (taken ++ vs))
      acc found := by
  obtain ⟨new, parts, rfl, hnames, hrefill, hparts⟩ := h
  refine ⟨(name.name, .list ⟨a.size⟩) :: new, .items (.list ⟨a.size⟩) :: parts, by simp, ?_,
    fun rest ↦ ?_, .items taken hparts⟩
  · simp [Pattern.names.all, Pattern.names, hnames]
  · simp [Pattern.refillAll, hrefill rest]

theorem gap (taken : List Value) (span : Span)
    (h : Refills (Pattern.names.all ps) (Pattern.refillAll ps) (RebuildsAll a es b · vs)
      acc found) :
    Refills (Pattern.names.all (.splat none span :: ps))
      (Pattern.refillAll (.splat none span :: ps)) (RebuildsAll a es b · (taken ++ vs))
      acc found := by
  obtain ⟨new, parts, rfl, hnames, hrefill, hparts⟩ := h
  refine ⟨new, .gap :: parts, rfl, ?_, fun rest ↦ ?_, .gap taken hparts⟩
  · simp [Pattern.names.all, Pattern.names, hnames]
  · simp [Pattern.refillAll, hrefill rest]

theorem one (hp : ¬ p.isSplat = true)
    (h : Refills p.names p.refill (Rebuilds a es b · v) acc mid)
    (h' : Refills (Pattern.names.all ps) (Pattern.refillAll ps) (RebuildsAll b es' c · vs)
      mid found) :
    Refills (Pattern.names.all (p :: ps)) (Pattern.refillAll (p :: ps))
      (RebuildsAll a (es ++ es') c · (v :: vs)) acc found := by
  obtain ⟨new₁, part, rfl, hnames₁, hrefill₁, hpart⟩ := h
  obtain ⟨new₂, parts, rfl, hnames₂, hrefill₂, hparts⟩ := h'
  refine ⟨new₁ ++ new₂, part :: parts, by simp, ?_, fun rest ↦ ?_, .one hpart hparts⟩
  · rw [List.map_append, hnames₁, hnames₂]
    rfl
  · simp [Pattern.refillAll_cons hp, hrefill₁, hrefill₂]

end Refills

theorem found_course {s s' : State} {es : List Episode} {found : Matched} {test : Eval Bool}
    {r : Matched} (ht : test.Asks (fun _ ↦ True) State.Looks)
    (h : ((test >>= fun b ↦ if b then return some r else return none) s).Course es
      (.ok (some found)) s') : found = r ∧ Follows s.lists es s'.lists := by
  rw [bind_apply] at h
  obtain ⟨u, hu, -⟩ | ⟨b, es₁, es₂, s₁, rfl, hb, hrest⟩ := h.bind
  · cases hu
  · cases b with
    | false =>
      obtain ⟨-, ho, -⟩ := hrest.of_done
      cases ho
    | true =>
      obtain ⟨rfl, ho, rfl⟩ := hrest.of_done
      cases ho
      rw [List.append_nil]
      exact ⟨rfl, ((ht s).along hb).1.follows⟩

mutual

theorem matchPattern_refills {s s' : State} {es : List Episode} {acc found : Matched}
    {ctx : Context} (p : Pattern) (v : Value)
    (h : (matchPattern ctx acc p v s).Course es (.ok (some found)) s') :
    Refills p.names p.refill (Rebuilds s.lists es s'.lists · v) acc found := by
  cases p with
  | wildcard span =>
    unfold matchPattern at h
    obtain ⟨rfl, ho, rfl⟩ := h.of_done
    cases ho
    exact ⟨[], .hole, rfl, rfl, fun _ ↦ rfl, .hole rfl⟩
  | bind name path =>
    cases path with
    | none =>
      unfold matchPattern at h
      obtain ⟨rfl, ho, rfl⟩ := h.of_done
      cases ho
      exact ⟨[(name.name, v)], .value v, rfl, rfl, fun _ ↦ rfl, .value rfl⟩
    | some path =>
      unfold matchPattern at h
      rw [bind_apply] at h
      obtain ⟨u, hu, -⟩ | ⟨t, es₁, es₂, s₁, rfl, ht, hrest⟩ := h.bind
      · cases hu
      · obtain ⟨rfl, hf⟩ := found_course (.read _) hrest
        have looked : Asks (fun _ ↦ True) State.Looks (holding acc.values (typeAt path ctx)) :=
          .holding _ (.typeAt path ctx)
        have hf₁ := ((looked s).along ht).1.follows
        exact ⟨[(name.name, v)], .value v, rfl, rfl, fun _ ↦ rfl, .value (hf₁.append hf)⟩
  | const path =>
    unfold matchPattern at h
    obtain ⟨rfl, hf⟩ := found_course (.holding _ (.fitsPath path v ctx fun _ _ ↦ trivial)) h
    exact ⟨[], .hole, rfl, rfl, fun _ ↦ rfl, .hole hf⟩
  | literal value span =>
    unfold matchPattern at h
    obtain ⟨rfl, hf⟩ := found_course (.holding _ (.valuesEqual _ v fun _ _ ↦ trivial)) h
    exact ⟨[], .hole, rfl, rfl, fun _ ↦ rfl, .hole hf⟩
  | list items span =>
    cases v with
    | list l =>
      unfold matchPattern at h
      change ((if countFits items (s.items l).toList.length then
        holding (s.items l).toList (matchAll ctx acc items (s.items l).toList)
        else return none) s).Course es _ s' at h
      split at h
      · rename_i hfits
        obtain ⟨s₁, hall, rfl⟩ := Step.Course.restoring h
        obtain ⟨new, parts, hfound, hnames, hrefill, hparts⟩ := matchAll_refills items
          (s.items l).toList (countP_le_of_countFits hfits) (length_of_countFits hfits) hall
        refine ⟨new, .list parts, hfound, hnames, fun rest ↦ ?_, .list hparts⟩
        simp [Pattern.refill, hrefill rest]
      · cases h.of_done.2.1
    | _ =>
      unfold matchPattern at h
      cases h.of_done.2.1
  | splat name span =>
    cases name with
    | some name =>
      unfold matchPattern at h
      obtain ⟨rfl, ho, rfl⟩ := h.of_done
      cases ho
      exact ⟨[(name.name, v)], .value v, rfl, rfl, fun _ ↦ rfl, .value rfl⟩
    | none =>
      unfold matchPattern at h
      obtain ⟨rfl, ho, rfl⟩ := h.of_done
      cases ho
      exact ⟨[], .hole, rfl, rfl, fun _ ↦ rfl, .hole rfl⟩

theorem matchAll_refills {s s' : State} {es : List Episode} {acc found : Matched}
    {ctx : Context} (ps : List Pattern) (vs : List Value)
    (hcount : ps.countP (!·.isSplat) ≤ vs.length)
    (hexact : ps.any (·.isSplat) = false → vs.length = ps.length)
    (h : (matchAll ctx acc ps vs s).Course es (.ok (some found)) s') :
    Refills (Pattern.names.all ps) (Pattern.refillAll ps) (RebuildsAll s.lists es s'.lists · vs)
      acc found := by
  -- `matchAll` ends silently with the shorter of the two lists; the counts rule that out.
  cases ps with
  | nil =>
    obtain rfl := List.eq_nil_of_length_eq_zero (hexact rfl)
    unfold matchAll at h
    obtain ⟨rfl, ho, rfl⟩ := h.of_done
    cases ho
    exact ⟨[], [], rfl, rfl, fun _ ↦ rfl, .nil⟩
  | cons p ps =>
    by_cases hp : p.isSplat = true
    · cases p with
      | splat name span =>
        rw [List.countP_cons_of_neg (by simp [Pattern.isSplat])] at hcount
        -- The splat leaves enough for the patterns behind it, so no value is lost between the two.
        have hleft := countP_le_splatItems hcount
        have hcover : (splatItems ps vs).1 ++ (splatItems ps vs).2 = vs := by
          rw [splatItems, List.splitAt_eq, List.take_append_drop]
        have hrest := length_splatItems hcount
        unfold matchAll at h
        cases name with
        | some name =>
          change (matchAll ctx ((name.name, .list ⟨s.lists.size⟩) :: acc) ps (splatItems ps vs).2
            { s with lists := s.lists.push (splatItems ps vs).1.toArray }).Course es _ s' at h
          have items := Refills.items span (matchAll_refills ps _ hleft hrest h)
          rwa [hcover] at items
        | none =>
          have gap := Refills.gap (splatItems ps vs).1 span (matchAll_refills ps _ hleft hrest h)
          rwa [hcover] at gap
      | _ => cases hp
    · cases vs with
      | nil => simp [hp] at hcount
      | cons v vs =>
        rw [matchAll_cons ctx acc ps v vs hp, bind_apply] at h
        obtain ⟨u, hu, -⟩ | ⟨r, es₁, es₂, s₁, rfl, hfirst, hrest⟩ := h.bind
        · cases hu
        · cases r with
          | none => cases hrest.of_done.2.1
          | some found₁ =>
            have hcount' : ps.countP (!·.isSplat) ≤ vs.length := by simpa [hp] using hcount
            have hexact' : ps.any (·.isSplat) = false → vs.length = ps.length := by
              simpa [hp] using hexact
            exact .one hp (matchPattern_refills p v hfirst)
              (matchAll_refills ps vs hcount' hexact' hrest)

end

end Quill
