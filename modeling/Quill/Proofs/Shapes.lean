import Mathlib.Data.List.DropRight
import Quill.Proofs.Refilling

/-!
# Patterns and the lengths of lists

A list pattern gives its values to its parts one by one, and what is left over in the middle to a
splat. Patterns of names alone fit just the values whose lists have enough items. Main statement:
`matching_loses_nothing`.
-/

namespace Quill

open Eval

namespace Lists

variable {a b c : Lists}

def Keeps (a b : Lists) : Prop :=
  ∀ (i : Nat) (items : Array Value), a[i]? = some items → b[i]? = some items

/-- The value is no list, or one of these. -/
def Knows (a : Lists) : Value → Prop
  | .list l => l.index < a.size
  | _ => True

/-- Lists hold no other lists than these. -/
def Closed (a : Lists) : Prop :=
  ∀ (i : Nat) (items : Array Value), a[i]? = some items → ∀ v ∈ items.toList, a.Knows v

namespace Keeps

theorem refl (a : Lists) : a.Keeps a := fun _ _ h ↦ h

theorem trans (h : a.Keeps b) (h' : b.Keeps c) : a.Keeps c :=
  fun i items hi ↦ h' i items (h i items hi)

theorem push (a : Lists) (items : Array Value) : a.Keeps (a.push items) := by
  intro i old h
  have hlt : i < a.size := (Array.getElem?_eq_some_iff.mp h).1
  rw [Array.getElem?_push, if_neg (by omega), h]

theorem items_eq (h : a.Keeps b) {l : ListId} (hl : a.Knows (.list l)) : b.items l = a.items l := by
  have hfound : a[l.index]? = some a[l.index] := Array.getElem?_eq_getElem hl
  rw [items, items, hfound, h _ _ hfound]

end Keeps

theorem Closed.items (h : a.Closed) (l : ListId) : ∀ v ∈ a.items l, a.Knows v := by
  intro v hv
  rw [Lists.items] at hv
  cases hfound : a[l.index]? with
  | none => simp [hfound] at hv
  | some items =>
    rw [hfound] at hv
    exact h _ _ hfound v hv

theorem items_push (a : Lists) (taken : List Value) :
    Lists.items (a.push taken.toArray) ⟨a.size⟩ = taken := by
  simp [items]

end Lists

namespace Mold

mutual

/-- The mold makes up the value, by what the lists hold. -/
def Makes (a : Lists) : Mold → Value → Prop
  | .hole, _ => True
  | .value w, v => w = v
  | .list parts, .list l => MakesAll a parts (a.items l)
  | _, _ => False

def MakesAll (a : Lists) : List Mold → List Value → Prop
  | [], vs => vs = []
  | .gap :: parts, vs => ∃ taken rest, vs = taken ++ rest ∧ MakesAll a parts rest
  | .items (.list l) :: parts, vs => ∃ rest, vs = a.items l ++ rest ∧ MakesAll a parts rest
  | part :: parts, v :: vs => Makes a part v ∧ MakesAll a parts vs
  | _, _ => False

end

end Mold

theorem Mold.MakesAll.cons {a : Lists} {part : Mold} {parts : List Mold} {v : Value}
    {vs : List Value} (h : part.Makes a v) (hrest : Mold.MakesAll a parts vs) :
    Mold.MakesAll a (part :: parts) (v :: vs) := by
  cases part with
  | gap | items => exact False.elim h
  | _ => exact ⟨h, hrest⟩

theorem Follows.keeps {a b : Lists} {es : List Episode} (h : Follows a es b)
    (hes : ∀ e ∈ es, Lists.Keeps e.before.lists e.after.lists) : a.Keeps b := by
  induction es generalizing a with
  | nil => exact h ▸ .refl a
  | cons e es ih =>
    have hfirst := hes e List.mem_cons_self
    rw [h.1] at hfirst
    exact hfirst.trans (ih h.2 fun e' he' ↦ hes e' (List.mem_cons_of_mem e he'))

mutual

theorem Rebuilds.makes {a₀ a b : Lists} {es : List Episode} {v : Value} (closed : a₀.Closed)
    (m : Mold) (h : Rebuilds a es b m v) (ha : a₀.Keeps a) (hv : a₀.Knows v)
    (hes : ∀ e ∈ es, Lists.Keeps e.before.lists e.after.lists) :
    a.Keeps b ∧ ∀ c, b.Keeps c → m.Makes c v := by
  match m, h with
  | .hole, .hole hf => exact ⟨hf.keeps hes, fun c _ ↦ by simp [Mold.Makes]⟩
  | .value w, .value hf => exact ⟨hf.keeps hes, fun c _ ↦ by simp [Mold.Makes]⟩
  | .list parts, .list (l := l) hparts =>
    have hitems : ∀ w ∈ a.items l, a₀.Knows w := by
      rw [ha.items_eq hv]
      exact closed.items l
    obtain ⟨hkeeps, hmakes⟩ := RebuildsAll.makes closed parts hparts ha hitems hes
    refine ⟨hkeeps, fun c hc ↦ ?_⟩
    have hc₀ := ha.trans (hkeeps.trans hc)
    rw [Mold.Makes, hc₀.items_eq hv, ← ha.items_eq hv]
    exact hmakes c hc

theorem RebuildsAll.makes {a₀ a b : Lists} {es : List Episode} {vs : List Value}
    (closed : a₀.Closed) (parts : List Mold) (h : RebuildsAll a es b parts vs) (ha : a₀.Keeps a)
    (hvs : ∀ v ∈ vs, a₀.Knows v)
    (hes : ∀ e ∈ es, Lists.Keeps e.before.lists e.after.lists) :
    a.Keeps b ∧ ∀ c, b.Keeps c → Mold.MakesAll c parts vs := by
  match parts, h with
  | [], .nil => exact ⟨.refl a, fun c _ ↦ rfl⟩
  | .gap :: parts, .gap taken hrest =>
    have hleft : ∀ v ∈ _, a₀.Knows v := fun v hv ↦ hvs v (List.mem_append_right taken hv)
    obtain ⟨hkeeps, hmakes⟩ := RebuildsAll.makes closed parts hrest ha hleft hes
    exact ⟨hkeeps, fun c hc ↦ ⟨taken, _, rfl, hmakes c hc⟩⟩
  | .items (.list ⟨_⟩) :: parts, .items taken hrest =>
    have hleft : ∀ v ∈ _, a₀.Knows v := fun v hv ↦ hvs v (List.mem_append_right taken hv)
    have hpush := Lists.Keeps.push a taken.toArray
    obtain ⟨hkeeps, hmakes⟩ := RebuildsAll.makes closed parts hrest (ha.trans hpush) hleft hes
    refine ⟨hpush.trans hkeeps, fun c hc ↦ ⟨_, ?_, hmakes c hc⟩⟩
    -- The new list still holds what the splat took.
    have hnew : Lists.Knows (a.push taken.toArray) (.list ⟨a.size⟩) := by simp [Lists.Knows]
    rw [(hkeeps.trans hc).items_eq hnew, Lists.items_push]
  | part :: parts, .one hpart hparts =>
    obtain ⟨hkeeps, hmakes⟩ := Rebuilds.makes closed part hpart ha (hvs _ List.mem_cons_self)
      fun e he ↦ hes e (List.mem_append_left _ he)
    obtain ⟨hkeeps', hmakes'⟩ := RebuildsAll.makes closed parts hparts (ha.trans hkeeps)
      (fun v hv ↦ hvs v (List.mem_cons_of_mem _ hv)) fun e he ↦ hes e (List.mem_append_right _ he)
    exact ⟨hkeeps.trans hkeeps', fun c hc ↦
      .cons (hmakes c (hkeeps'.trans hc)) (hmakes' c hc)⟩

end

namespace Pattern

mutual

/-- The parts of each of the lists in a pattern. -/
def levels : Pattern → List (List Pattern)
  | .list items _ => items :: levelsAll items
  | _ => []

def levelsAll : List Pattern → List (List Pattern)
  | [] => []
  | p :: ps => p.levels ++ levelsAll ps

end

def OneSplat (p : Pattern) : Prop := ∀ items ∈ p.levels, items.countP (·.isSplat) ≤ 1

end Pattern

namespace Eval

/-- Matches each of the values against its own pattern. -/
def matchEach (ctx : Context) (acc : Matched) : List (Pattern × Value) → Eval (Option Matched)
  | [] => return some acc
  | (p, v) :: rest => do
    match ← matchPattern ctx acc p v with
    | some acc => matchEach ctx acc rest
    | none => return none

/-- Adds the items that a splat takes to what was collected. -/
def collect (name : Option Ident) (taken : List Value) (acc : Matched) : Eval Matched := do
  match name with
  | some name => return (name.name, ← newList taken) :: acc
  | none => return acc

variable {ctx : Context} {acc : Matched}

theorem matchAll_eq_matchEach {ps : List Pattern} {vs : List Value}
    (hps : ps.any (·.isSplat) = false) (hlen : vs.length = ps.length) :
    matchAll ctx acc ps vs = matchEach ctx acc (ps.zip vs) := by
  induction ps generalizing acc vs with
  | nil => simp [matchAll, matchEach]
  | cons p ps ih =>
    cases vs with
    | nil => simp at hlen
    | cons v vs =>
      simp only [List.any_cons, Bool.or_eq_false_iff] at hps
      rw [matchAll_cons ctx acc ps v vs (by simp [hps.1]), List.zip_cons_cons, matchEach]
      congr 1
      funext r
      cases r with
      | none => rfl
      | some acc => exact ih hps.2 (by simpa using hlen)

theorem matchAll_sliced {before after : List Pattern} {name : Option Ident} {span : Span}
    {front taken back : List Value} (hbefore : before.any (·.isSplat) = false)
    (hafter : after.any (·.isSplat) = false) (hfront : front.length = before.length)
    (hback : back.length = after.length) :
    matchAll ctx acc (before ++ .splat name span :: after) (front ++ (taken ++ back)) = (do
      match ← matchEach ctx acc (before.zip front) with
      | some acc => matchEach ctx (← collect name taken acc) (after.zip back)
      | none => return none) := by
  induction before generalizing acc front with
  | nil =>
    obtain rfl := List.eq_nil_of_length_eq_zero hfront
    have hsplit : splatItems after (taken ++ back) = (taken, back) := by
      simp [splatItems, ← hback]
    simp only [List.nil_append, matchAll, hsplit, matchAll_eq_matchEach hafter hback]
    funext s
    cases name <;> rfl
  | cons p ps ih =>
    cases front with
    | nil => simp at hfront
    | cons v vs =>
      simp only [List.any_cons, Bool.or_eq_false_iff] at hbefore
      rw [List.cons_append, List.cons_append, matchAll_cons ctx acc _ v _ (by simp [hbefore.1]),
        List.zip_cons_cons, matchEach, bind_bind]
      congr 1
      funext r
      cases r with
      | none => rfl
      | some acc => exact ih hbefore.2 (by simpa using hfront)

theorem countFits_even {items : List Pattern} (h : items.any (·.isSplat) = false) (n : Nat) :
    countFits items n = true ↔ n = items.length := by
  refine ⟨fun hn ↦ length_of_countFits hn h, fun hn ↦ ?_⟩
  simp [countFits, h, countP_of_not_any h, hn]

theorem countFits_around {before after : List Pattern} {name : Option Ident} {span : Span}
    (hbefore : before.any (·.isSplat) = false) (hafter : after.any (·.isSplat) = false) (n : Nat) :
    countFits (before ++ .splat name span :: after) n = true ↔
      before.length + after.length ≤ n := by
  have hcount : (before ++ .splat name span :: after).countP (!·.isSplat) =
      before.length + after.length := by
    rw [List.countP_append, List.countP_cons_of_neg (by simp [Pattern.isSplat]),
      countP_of_not_any hbefore, countP_of_not_any hafter]
  have hany : (before ++ .splat name span :: after).any (·.isSplat) = true := by
    simp [Pattern.isSplat]
  unfold countFits
  rw [hany, hcount]
  simp

theorem exists_slices {values : List Value} {m n : Nat} (h : m + n ≤ values.length) :
    ∃ front taken back, values = front ++ (taken ++ back) ∧ front.length = m ∧ back.length = n := by
  refine ⟨values.take m, (values.drop m).take (values.length - m - n),
    (values.drop m).drop (values.length - m - n), ?_, ?_, ?_⟩
  · rw [List.take_append_drop, List.take_append_drop]
  · rw [List.length_take]
    omega
  · rw [List.length_drop, List.length_drop]
    omega

/-- How a list is given to the parts of a pattern. Without a splat there are as many items as parts.
With one, the parts before it have the first and those after it the last, and the splat has all that
is between. -/
def Slices (items : List Pattern) : Prop :=
  (items.any (·.isSplat) = false ∧ ∀ values : List Value,
    (countFits items values.length = true ↔ values.length = items.length) ∧
    (values.length = items.length → ∀ ctx acc,
      matchAll ctx acc items values = matchEach ctx acc (items.zip values))) ∨
  ∃ before name span after, items = before ++ .splat name span :: after ∧
    before.any (·.isSplat) = false ∧ after.any (·.isSplat) = false ∧ ∀ values : List Value,
    (countFits items values.length = true ↔ before.length + after.length ≤ values.length) ∧
    (before.length + after.length ≤ values.length → ∃ front taken back,
      values = front ++ (taken ++ back) ∧ front.length = before.length ∧
      back.length = after.length ∧ ∀ ctx acc, matchAll ctx acc items values = (do
        match ← matchEach ctx acc (before.zip front) with
        | some acc => matchEach ctx (← collect name taken acc) (after.zip back)
        | none => return none))

theorem slices {items : List Pattern} (h : items.countP (·.isSplat) ≤ 1) : Slices items := by
  cases hany : items.any (·.isSplat) with
  | false =>
    refine .inl ⟨hany, fun values ↦ ⟨countFits_even hany _, fun hlen ctx acc ↦ ?_⟩⟩
    exact matchAll_eq_matchEach hany hlen
  | true =>
    obtain ⟨p, hmem, hp⟩ := List.any_eq_true.mp hany
    obtain ⟨before, after, rfl⟩ := List.append_of_mem hmem
    rw [List.countP_append, List.countP_cons, if_pos hp] at h
    have hbefore : before.any (·.isSplat) = false := by
      have hzero : before.countP (·.isSplat) = 0 := by omega
      simpa [List.countP_eq_zero] using hzero
    have hafter : after.any (·.isSplat) = false := by
      have hzero : after.countP (·.isSplat) = 0 := by omega
      simpa [List.countP_eq_zero] using hzero
    cases p with
    | splat name span =>
      refine .inr ⟨before, name, span, after, rfl, hbefore, hafter, fun values ↦
        ⟨countFits_around hbefore hafter _, fun hlen ↦ ?_⟩⟩
      obtain ⟨front, taken, back, rfl, hfront, hback⟩ := exists_slices hlen
      exact ⟨front, taken, back, rfl, hfront, hback, fun ctx acc ↦
        matchAll_sliced hbefore hafter hfront hback⟩
    | _ => cases hp

end Eval

namespace Pattern

mutual

/-- There are only lists, names without a type, wildcards and splats. -/
def isPlain : Pattern → Bool
  | .wildcard _ | .bind _ none | .splat .. => true
  | .list items _ => isPlainAll items
  | _ => false

def isPlainAll : List Pattern → Bool
  | [] => true
  | p :: ps => p.isPlain && isPlainAll ps

end

/-- There are as many, or if one of the parts is a splat, enough for the others. -/
def LengthFits (items : List Pattern) (n : Nat) : Prop :=
  if items.any (·.isSplat) then items.countP (!·.isSplat) ≤ n else n = items.length

mutual

/-- Wherever the pattern has a list, so has the value, and of a length that fits. -/
def Fits (a : Lists) : Pattern → Value → Prop
  | .list items _, .list l => LengthFits items (a.items l).length ∧ FitsAll a items (a.items l)
  | .list .., _ => False
  | _, _ => True

/-- The same for the parts of a list. After a splat come the last items. -/
def FitsAll (a : Lists) : List Pattern → List Value → Prop
  | .splat .. :: ps, vs => FitsAll a ps (vs.rtake ps.length)
  | p :: ps, v :: vs => p.Fits a v ∧ FitsAll a ps vs
  | _, _ => True

end

theorem fitsAll_cons {a : Lists} {p : Pattern} {ps : List Pattern} {v : Value} {vs : List Value}
    (hp : ¬ p.isSplat = true) : FitsAll a (p :: ps) (v :: vs) ↔ p.Fits a v ∧ FitsAll a ps vs := by
  cases p with
  | splat => exact absurd rfl hp
  | _ => rfl

theorem fitsAll_nil {a : Lists} {p : Pattern} {ps : List Pattern} (hp : ¬ p.isSplat = true) :
    FitsAll a (p :: ps) [] := by
  cases p with
  | splat => exact absurd rfl hp
  | _ => trivial

end Pattern

namespace Eval

theorem lengthFits_iff {items : List Pattern} {n : Nat} :
    Pattern.LengthFits items n ↔ countFits items n = true := by
  unfold Pattern.LengthFits countFits
  cases hany : items.any (·.isSplat) with
  | false => simp [countP_of_not_any hany]
  | true => simp

theorem matchAll_nil (ctx : Context) (acc : Matched) {p : Pattern} (ps : List Pattern)
    (hp : ¬ p.isSplat = true) : matchAll ctx acc (p :: ps) [] = return some acc := by
  cases p with
  | splat => exact absurd rfl hp
  | _ =>
    rw [matchAll]
    all_goals simp

/-- The work ends at once, waiting for nothing, and tells whether something is so. -/
def Decides {α : Type} (a : Lists) (x : Eval (Option α)) (s : State) (P : Prop) : Prop :=
  ∃ r s', x s = .done (.ok r) s' ∧ a.Keeps s'.lists ∧ (r.isSome = true ↔ P)

mutual

theorem matchPattern_decides {a : Lists} {ctx : Context} (closed : a.Closed) (p : Pattern)
    (hp : p.isPlain = true) (v : Value) (hv : a.Knows v) (acc : Matched) {s : State}
    (hs : a.Keeps s.lists) :
    Decides a (matchPattern ctx acc p v) s (p.Fits a v) := by
  cases p with
  | wildcard span =>
    unfold matchPattern
    exact ⟨_, s, rfl, hs, by simp [Pattern.Fits]⟩
  | bind name path =>
    cases path with
    | none =>
      unfold matchPattern
      exact ⟨_, s, rfl, hs, by simp [Pattern.Fits]⟩
    | some path => cases hp
  | const | literal => cases hp
  | splat name span =>
    cases name <;>
    · unfold matchPattern
      exact ⟨_, s, rfl, hs, by simp [Pattern.Fits]⟩
  | list items span =>
    cases v with
    | list l =>
      unfold matchPattern
      have hitems : (s.items l).toList = a.items l := hs.items_eq hv
      unfold Decides
      simp only [read_bind, hitems, Pattern.Fits, lengthFits_iff]
      by_cases hfits : countFits items (a.items l).length = true
      · rw [if_pos hfits]
        obtain ⟨r, s', hall, hkeeps, hr⟩ := matchAll_decides closed items hp (a.items l)
          (closed.items l) acc (s := { s with held := ⟨a.items l, none⟩ :: s.held }) hs
        have hend : holding (a.items l) (matchAll ctx acc items (a.items l)) s =
            .done (.ok r) { s' with held := s.held } :=
          congrArg (Step.restoring s.held) hall
        exact ⟨r, _, hend, hkeeps, by rw [hr]; simp [hfits]⟩
      · rw [if_neg hfits]
        exact ⟨none, s, rfl, hs, by simp [hfits]⟩
    | _ =>
      unfold matchPattern
      exact ⟨none, s, rfl, hs, by simp [Pattern.Fits]⟩

theorem matchAll_decides {a : Lists} {ctx : Context} (closed : a.Closed) (ps : List Pattern)
    (hps : Pattern.isPlainAll ps = true) (vs : List Value) (hvs : ∀ v ∈ vs, a.Knows v)
    (acc : Matched) {s : State} (hs : a.Keeps s.lists) :
    Decides a (matchAll ctx acc ps vs) s (Pattern.FitsAll a ps vs) := by
  cases ps with
  | nil =>
    unfold matchAll
    exact ⟨_, s, rfl, hs, by simp [Pattern.FitsAll]⟩
  | cons p ps =>
    obtain ⟨hp, hrest⟩ : p.isPlain = true ∧ Pattern.isPlainAll ps = true := by
      simpa [Pattern.isPlainAll] using hps
    by_cases hsplat : p.isSplat = true
    · cases p with
      | splat name span =>
        have hsplit : splatItems ps vs =
            (vs.take (vs.length - ps.length), vs.rtake ps.length) := by
          rw [splatItems, List.splitAt_eq, List.rtake]
        have hknown : ∀ v ∈ vs.rtake ps.length, a.Knows v :=
          fun v hv ↦ hvs v (List.mem_of_mem_drop hv)
        unfold matchAll
        rw [hsplit]
        cases name with
        | some name => exact matchAll_decides closed ps hrest _ hknown _ (hs.trans (.push _ _))
        | none => exact matchAll_decides closed ps hrest _ hknown _ hs
      | _ => cases hsplat
    · cases vs with
      | nil =>
        rw [matchAll_nil ctx acc ps hsplat]
        exact ⟨_, s, rfl, hs, by simp [Pattern.fitsAll_nil hsplat]⟩
      | cons v vs =>
        unfold Decides
        rw [matchAll_cons ctx acc ps v vs hsplat, bind_apply, Pattern.fitsAll_cons hsplat]
        obtain ⟨r, s', hfirst, hkeeps, hr⟩ :=
          matchPattern_decides closed p hp v (hvs v List.mem_cons_self) acc hs
        rw [hfirst]
        cases r with
        | none => exact ⟨none, s', rfl, hkeeps, by simp [← hr]⟩
        | some found =>
          obtain ⟨r, s'', hall, hkeeps', hr'⟩ := matchAll_decides closed ps hrest vs
            (fun w hw ↦ hvs w (List.mem_cons_of_mem v hw)) found hkeeps
          exact ⟨r, s'', hall, hkeeps', by rw [hr']; simp [← hr]⟩

end

end Eval

/-- A match that succeeds has values for just the names of the pattern, and put back in their places
they make up the value. A list is given to the parts of a pattern without gaps or overlaps. Patterns
without tests fit the values whose lists are long enough. -/
theorem matching_loses_nothing (p : Pattern) (hp : p.OneSplat) (ctx : Context) (v : Value) :
    (∀ s es found s', (matchPattern ctx [] p v s).Course es (.ok (some found)) s' →
      found.reverse.map (·.1) = p.names ∧
      ∃ mold, p.refill (found.reverse.map (·.2)) = some (mold, []) ∧
        Rebuilds s.lists es s'.lists mold v ∧
        (Lists.Closed s.lists → Lists.Knows s.lists v →
          (∀ e ∈ es, Lists.Keeps e.before.lists e.after.lists) → mold.Makes s'.lists v)) ∧
    (∀ items ∈ p.levels, Slices items) ∧
    (p.isPlain = true → ∀ s, Lists.Closed s.lists → Lists.Knows s.lists v →
      Decides s.lists (matchPattern ctx [] p v) s (p.Fits s.lists v)) := by
  refine ⟨fun s es found s' h ↦ ?_, fun items hitems ↦ slices (hp items hitems),
    fun hplain s closed hv ↦ matchPattern_decides closed p hplain v hv [] (.refl s.lists)⟩
  obtain ⟨new, mold, rfl, hnames, hrefill, hrebuilds⟩ := matchPattern_refills p v h
  have hback : (new.reverse ++ []).reverse = new := by simp
  rw [hback]
  refine ⟨hnames, mold, by simpa using hrefill [], hrebuilds, fun closed hv hes ↦ ?_⟩
  exact (hrebuilds.makes closed mold (.refl s.lists) hv hes).2 s'.lists (.refl s'.lists)

namespace Pattern

def name (name : String) : Pattern := .bind ⟨name, .origin⟩ none

/-- `[x, *ys, [z, _]]` -/
def nested : Pattern :=
  .list [name "x", .splat (some ⟨"ys", .origin⟩) .origin,
    .list [name "z", .wildcard .origin] .origin] .origin

end Pattern

def twoLists : State :=
  { State.initial .standard with lists := #[#[.int 4, .int 5],
    #[.int 1, .int 2, .int 3, .list ⟨0⟩]] }

theorem nested_oneSplat : Pattern.nested.OneSplat := by
  simp [Pattern.OneSplat, Pattern.nested, Pattern.name, Pattern.levels, Pattern.levelsAll,
    Pattern.isSplat]

theorem nested_course : (matchPattern State.topContext [] Pattern.nested (.list ⟨1⟩)
    twoLists).Course [] (.ok (some [("z", .int 4), ("ys", .list ⟨2⟩), ("x", .int 1)]))
    { twoLists with lists := twoLists.lists.push #[.int 2, .int 3] } := by
  have hmatch : matchPattern State.topContext [] Pattern.nested (.list ⟨1⟩) twoLists =
      .done (.ok (some [("z", .int 4), ("ys", .list ⟨2⟩), ("x", .int 1)]))
        { twoLists with lists := twoLists.lists.push #[.int 2, .int 3] } := by
    rfl
  rw [hmatch]
  exact .done

theorem twoLists_closed : Lists.Closed twoLists.lists := by
  intro i items h v hv
  match i with
  | 0 | 1 =>
    cases h
    revert v
    simp [Lists.Knows, twoLists]
  | i + 2 => simp [twoLists] at h

theorem nested_taken_apart :
    ∃ mold, Pattern.nested.refill [.int 1, .list ⟨2⟩, .int 4] = some (mold, []) ∧
      mold.Makes (twoLists.lists.push #[.int 2, .int 3]) (.list ⟨1⟩) := by
  obtain ⟨-, mold, hrefill, -, hmakes⟩ := (matching_loses_nothing Pattern.nested nested_oneSplat
    State.topContext (.list ⟨1⟩)).1 _ _ _ _ nested_course
  have hknown : Lists.Knows twoLists.lists (.list ⟨1⟩) := by simp [Lists.Knows, twoLists]
  exact ⟨mold, hrefill, hmakes twoLists_closed hknown (by simp)⟩

end Quill
