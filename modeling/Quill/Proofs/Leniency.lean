import Quill.Proofs.Dispatching
import Quill.Proofs.Shapes

/-!
# Blocks take any arguments

A method has to be called with as many arguments as it asks for. A block makes do with those that
there are, if its parameters are names without types, wildcards and splats. Main statement:
`blocks_bind_leniently`.
-/

namespace Quill

open Eval

/-- What a parameter gets: a value, or if it is a splat, all values that remain. -/
inductive Share where
  | one (v : Value)
  | rest (vs : List Value)

def Share.value (made : ListId) : Share → Value
  | one v => v
  | rest _ => .list made

/-- What the parameters get of the values given to a block. -/
inductive Shares (given : List Value) : List Pattern → List Share → Prop
  /-- Without a splat each gets the value in its place, or `nil` if there are fewer. -/
  | each {ps : List Pattern} (hps : ps.any (·.isSplat) = false) :
      Shares given ps ((List.range ps.length).map fun i ↦ .one (given[i]?.getD .nil))
  /-- With a splat the values go on with `nil` until there are enough for the other parameters.
  Those before it get the first values, those after it the last ones, and the splat what is
  between. -/
  | around {before after : List Pattern} {name : Option Ident} {span : Span}
      {front taken back : List Value} (hbefore : before.any (·.isSplat) = false)
      (hafter : after.any (·.isSplat) = false) (hfront : front.length = before.length)
      (hback : back.length = after.length)
      (hgiven : given ++ List.replicate (before.length + after.length - given.length) .nil =
        front ++ (taken ++ back)) :
      Shares given (before ++ .splat name span :: after)
        (front.map .one ++ .rest taken :: back.map .one)

theorem around_inj {before before' after after' : List Pattern} {p p' : Pattern}
    (hp : p.isSplat = true) (hp' : p'.isSplat = true) (hbefore : before.any (·.isSplat) = false)
    (hbefore' : before'.any (·.isSplat) = false)
    (h : before ++ p :: after = before' ++ p' :: after') :
    before = before' ∧ p = p' ∧ after = after' := by
  induction before generalizing before' with
  | nil =>
    cases before' with
    | nil =>
      obtain ⟨hhead, htail⟩ := List.cons_eq_cons.mp h
      exact ⟨rfl, hhead, htail⟩
    | cons q qs =>
      obtain ⟨rfl, -⟩ := List.cons_eq_cons.mp h
      simp [hp] at hbefore'
  | cons q qs ih =>
    cases before' with
    | nil =>
      obtain ⟨rfl, -⟩ := List.cons_eq_cons.mp h
      simp [hp'] at hbefore
    | cons q' qs' =>
      obtain ⟨rfl, htail⟩ := List.cons_eq_cons.mp h
      rw [List.any_cons, Bool.or_eq_false_iff] at hbefore hbefore'
      obtain ⟨rfl, hp, hafter⟩ := ih hbefore.2 hbefore'.2 htail
      exact ⟨rfl, hp, hafter⟩

theorem Shares.unique {given : List Value} {ps : List Pattern} {shares shares' : List Share}
    (h : Shares given ps shares) (h' : Shares given ps shares') : shares' = shares := by
  have splat_any (before after : List Pattern) (name : Option Ident) (span : Span) :
      (before ++ .splat name span :: after).any (·.isSplat) = true := by
    simp [Pattern.isSplat]
  generalize hps : ps = qs at h'
  cases h with
  | each hany =>
    subst hps
    cases h' with
    | each => rfl
    | around => simp [splat_any] at hany
  | @around before after name span front taken back hbefore _ hfront hback hgiven =>
    cases h' with
    | each hany => simp [← hps, splat_any] at hany
    | @around before' after' name' span' front' taken' back' hbefore' _ hfront' hback' hgiven' =>
      -- There is one place for the splat, so the slices are of the same lengths.
      obtain ⟨rfl, -, rfl⟩ := around_inj rfl rfl hbefore hbefore' hps
      have hall := hgiven'.symm.trans hgiven
      obtain ⟨rfl, htail⟩ := List.append_inj hall (hfront'.trans hfront.symm)
      obtain ⟨rfl, rfl⟩ := List.append_inj' htail (hback'.trans hback.symm)
      rfl

/-- The values that are given to a block: its arguments, or the elements of a list that is the only
one, if there are several parameters. -/
def State.spread (s : State) (p : Params) (args : List Value) : List Value :=
  match args with
  | [.list l] => if 1 < p.items.length then (s.items l).toList else args
  | args => args

theorem State.blockArgs_eq (s : State) (p : Params) (args : List Value) :
    s.blockArgs p args = p.fit (s.spread p args) := by
  unfold blockArgs
  split
  · rfl
  · rename_i hargs
    rw [spread.eq_2 s p args hargs]

namespace Params

variable {p : Params}

theorem fit_each (h : p.items.any (·.isSplat) = false) (given : List Value) :
    p.fit given = (List.range p.items.length).map fun i ↦ given[i]?.getD .nil := by
  have hrequired : p.required = p.items.length := countP_of_not_any h
  rw [fit, isVariadic, h, hrequired]
  refine List.ext_getElem ?_ fun i hi hi' ↦ ?_
  · simp only [Bool.false_eq_true, if_false, List.length_take, List.length_append,
      List.length_replicate, List.length_map, List.length_range]
    omega
  · simp only [Bool.false_eq_true, if_false, List.getElem_take, List.getElem_map,
      List.getElem_range, List.getElem_append, List.getElem_replicate]
    by_cases hlt : i < given.length
    · rw [dif_pos hlt, List.getElem?_eq_getElem hlt, Option.getD_some]
    · rw [dif_neg hlt, List.getElem?_eq_none (by omega), Option.getD_none]

theorem fit_around {before after : List Pattern} {name : Option Ident} {span : Span}
    (h : p.items = before ++ .splat name span :: after)
    (hbefore : before.any (·.isSplat) = false) (hafter : after.any (·.isSplat) = false)
    (given : List Value) :
    p.fit given =
      given ++ List.replicate (before.length + after.length - given.length) .nil := by
  have hrequired : p.required = before.length + after.length := by
    rw [required, h, List.countP_append, List.countP_cons_of_neg (by simp [Pattern.isSplat]),
      countP_of_not_any hbefore, countP_of_not_any hafter]
  have hany : p.isVariadic = true := by
    rw [isVariadic, h]
    simp [Pattern.isSplat]
  rw [fit, hany, hrequired, if_pos rfl]

end Params

/-- Whether the pattern is a name without a type, a wildcard or a splat. -/
def Pattern.isLenient : Pattern → Bool
  | .wildcard _ | .bind _ none | .splat .. => true
  | _ => false

/-- The parameters match every value, and at most one is a splat. -/
structure Params.Lenient (p : Params) : Prop where
  items : ∀ q ∈ p.items, q.isLenient = true
  splats : p.items.countP (·.isSplat) ≤ 1

/-- The names of parameters in order, each with the share of its parameter. -/
def shared (made : ListId) (gs : List (Pattern × Share)) : List (String × Value) :=
  gs.flatMap fun g ↦ g.1.names.map fun name ↦ (name, g.2.value made)

theorem shared_cons (made : ListId) (q : Pattern) (share : Share) (gs : List (Pattern × Share)) :
    shared made ((q, share) :: gs) =
      (q.names.map fun name ↦ (name, share.value made)) ++ shared made gs := by
  rw [shared, List.flatMap_cons, shared]

theorem shared_append (made : ListId) (gs hs : List (Pattern × Share)) :
    shared made (gs ++ hs) = shared made gs ++ shared made hs := by
  rw [shared, List.flatMap_append, shared, shared]

namespace Eval

variable {ctx : Context} {acc : Matched}

theorem matchPattern_lenient {q : Pattern} (hq : q.isLenient = true) (v : Value) :
    matchPattern ctx acc q v =
      return some ((q.names.map fun name ↦ (name, v)).reverse ++ acc) := by
  cases q with
  | wildcard => simp [matchPattern, Pattern.names]
  | bind name type =>
    cases type with
    | none => simp [matchPattern, Pattern.names]
    | some => cases hq
  | splat name => cases name <;> simp [matchPattern, Pattern.names]
  | _ => cases hq

theorem matchEach_lenient {ps : List Pattern} (hps : ∀ q ∈ ps, q.isLenient = true)
    (made : ListId) (vs : List Value) :
    matchEach ctx acc (ps.zip vs) =
      return some ((shared made (ps.zip (vs.map .one))).reverse ++ acc) := by
  induction ps generalizing acc vs with
  | nil => rfl
  | cons q ps ih =>
    cases vs with
    | nil => rfl
    | cons v vs =>
      obtain ⟨hq, hps⟩ := List.forall_mem_cons.mp hps
      rw [List.zip_cons_cons, List.map_cons, List.zip_cons_cons, shared_cons, matchEach,
        matchPattern_lenient hq, List.reverse_append, List.append_assoc]
      exact ih hps vs

/-- The match finds the names of the parameters with their shares. A splat that has a name gets a
new list. -/
structure Deals (p : Params) (given : List Value) (ctx : Context) (s : State)
    (shares : List Share) (lists : Lists) : Prop where
  fair : Shares given p.items shares
  found : matchSequence ctx p.items (p.fit given) s =
    .done (.ok (some (shared ⟨s.lists.size⟩ (p.items.zip shares)).reverse)) { s with lists }
  keeps : Lists.Keeps s.lists lists
  taken : ∀ name span vs, (.splat (some name) span, .rest vs) ∈ p.items.zip shares →
    Lists.items lists ⟨s.lists.size⟩ = vs

variable {p : Params}

theorem Deals.names {given : List Value} {s : State} {shares : List Share} {lists : Lists}
    (h : Deals p given ctx s shares lists) :
    (shared ⟨s.lists.size⟩ (p.items.zip shares)).reverse.map (·.1) =
      (Pattern.names.all p.items).reverse := by
  have quiet : Quiet id (Collects (Pattern.names.all p.items) []) _ :=
    matchSequence_quiet ctx p.items (p.fit given)
  have hall := quiet s [] _ _ (by rw [h.found]; exact .done)
  simpa using hall.2 _ rfl _ rfl

theorem deals_each (hp : ∀ q ∈ p.items, q.isLenient = true)
    (hany : p.items.any (·.isSplat) = false) (given : List Value) (ctx : Context) (s : State) :
    ∃ shares, Deals p given ctx s shares s.lists := by
  have hlen : (p.fit given).length = p.items.length := by simp [p.fit_each hany]
  refine ⟨_, .each hany, ?_, .refl s.lists, fun name span vs hmem ↦ ?_⟩
  · rw [matchSequence, if_pos ((countFits_even hany _).mpr hlen),
      matchAll_eq_matchEach hany hlen, matchEach_lenient hp ⟨s.lists.size⟩, p.fit_each hany,
      List.map_map, List.append_nil]
    rfl
  · exact absurd rfl (List.any_eq_false.mp hany _ (List.of_mem_zip hmem).1)

theorem matchSequence_around {before after : List Pattern} {front back : List Value}
    (hp : ∀ q ∈ before, q.isLenient = true) (hbefore : before.any (·.isSplat) = false)
    (hafter : after.any (·.isSplat) = false) (hfront : front.length = before.length)
    (hback : back.length = after.length) (ctx : Context) (name : Option Ident) (span : Span)
    (taken : List Value) (made : ListId) :
    matchSequence ctx (before ++ .splat name span :: after) (front ++ (taken ++ back)) = (do
      let found := (shared made (before.zip (front.map .one))).reverse
      matchEach ctx (← collect name taken found) (after.zip back)) := by
  have hlen : before.length + after.length ≤ (front ++ (taken ++ back)).length := by
    rw [List.length_append, List.length_append]
    omega
  rw [matchSequence, if_pos ((countFits_around hbefore hafter _).mpr hlen),
    matchAll_sliced hbefore hafter hfront hback, matchEach_lenient hp made, List.append_nil]
  rfl

theorem deals_around {before after : List Pattern} {name : Option Ident} {span : Span}
    (hp : ∀ q ∈ p.items, q.isLenient = true)
    (hitems : p.items = before ++ .splat name span :: after)
    (hbefore : before.any (·.isSplat) = false) (hafter : after.any (·.isSplat) = false)
    (given : List Value) (ctx : Context) (s : State) :
    ∃ shares lists, Deals p given ctx s shares lists := by
  rw [hitems, List.forall_mem_append, List.forall_mem_cons] at hp
  have hfit := p.fit_around hitems hbefore hafter given
  have hlen : before.length + after.length ≤ (p.fit given).length := by
    rw [hfit, List.length_append, List.length_replicate]
    omega
  obtain ⟨front, taken, back, hgiven, hfront, hback⟩ := exists_slices hlen
  let shares : List Share := front.map .one ++ .rest taken :: back.map .one
  have hshares : Shares given p.items shares := by
    rw [hitems]
    exact .around hbefore hafter hfront hback (hfit.symm.trans hgiven)
  have hzip : p.items.zip shares = before.zip (front.map .one) ++
      (.splat name span, .rest taken) :: after.zip (back.map .one) := by
    rw [hitems, List.zip_append (by rw [List.length_map, hfront]), List.zip_cons_cons]
  -- Only the splat has more than one value.
  have htaken : ∀ name' span' vs, (.splat (some name') span', .rest vs) ∈ p.items.zip shares →
      name = some name' ∧ taken = vs := by
    intro name' span' vs hmem
    rw [hzip, List.mem_append, List.mem_cons] at hmem
    obtain hmem | hmem | hmem := hmem
    · exact absurd rfl (List.any_eq_false.mp hbefore _ (List.of_mem_zip hmem).1)
    · cases hmem
      exact ⟨rfl, rfl⟩
    · exact absurd rfl (List.any_eq_false.mp hafter _ (List.of_mem_zip hmem).1)
  have hfound := matchSequence_around hp.1 hbefore hafter hfront hback ctx name span taken
    ⟨s.lists.size⟩
  rw [← hitems, ← hgiven] at hfound
  cases name with
  | none =>
    refine ⟨shares, s.lists, hshares, ?_, .refl s.lists, fun name' span' vs hmem ↦ ?_⟩
    · rw [hfound, hzip, shared_append, shared_cons]
      change matchEach ctx _ (after.zip back) s = _
      rw [matchEach_lenient hp.2.2 ⟨s.lists.size⟩, ← List.reverse_append]
      rfl
    · cases (htaken name' span' vs hmem).1
  | some name =>
    refine ⟨shares, s.lists.push taken.toArray, hshares, ?_, .push _ _,
      fun name' span' vs hmem ↦ ?_⟩
    · rw [hfound, hzip, shared_append, shared_cons]
      change matchEach ctx _ (after.zip back) (s.newList taken.toArray).2 = _
      rw [matchEach_lenient hp.2.2 ⟨s.lists.size⟩, List.reverse_append, List.reverse_append,
        List.append_assoc]
      rfl
    · rw [← (htaken name' span' vs hmem).2]
      exact Lists.items_push _ _

theorem exists_deals (hp : p.Lenient) (given : List Value) (ctx : Context) (s : State) :
    ∃ shares lists, Deals p given ctx s shares lists := by
  obtain ⟨hany, -⟩ | ⟨before, name, span, after, hitems, hbefore, hafter, -⟩ := slices hp.splats
  · obtain ⟨shares, h⟩ := deals_each hp.items hany given ctx s
    exact ⟨shares, s.lists, h⟩
  · exact deals_around hp.items hitems hbefore hafter given ctx s

end Eval

theorem Scopes.get?_of_bindings {α : Type} {s : Scopes α} {id : ScopeId} {name : String} {v : α}
    (h : (s.bindings id).get? name = some v) : s.get? id name = some v := by
  have howner : s.owner id name = some id := by rw [owner, ownerWithin, h]
  rw [get?, howner]
  exact h

theorem Bindings.get?_foldr_set {α : Type} (found : List (String × α)) (bs : Bindings α)
    (name : String) :
    (found.foldr (fun b bs ↦ bs.set b.1 b.2) bs).get? name =
      (found.lookup name).or (bs.get? name) := by
  induction found with
  | nil => rfl
  | cons b found ih =>
    rw [List.foldr_cons, get?_set, ih, List.lookup_cons]
    by_cases hb : b.1 = name
    · rw [if_pos hb, hb, beq_self_eq_true]
      rfl
    · rw [if_neg hb, beq_false_of_ne (Ne.symm hb)]

namespace Params

variable {p : Params} {found : Matched} {name : String} {v : Value}

theorem get?_bound (h : found.lookup name = some v) (hblock : p.block.map (·.name) ≠ some name)
    (block : Option Value) : (p.bound found block).get? name = some v := by
  have hfold := Bindings.get?_foldr_set found .empty name
  rw [h, Option.some_or] at hfold
  unfold bound
  cases hb : p.block with
  | none => exact hfold
  | some b =>
    rw [hb, Option.map_some, ne_eq, Option.some_inj] at hblock
    dsimp only
    rw [Bindings.get?_set, if_neg hblock, hfold]

theorem get?_bound_block {b : Ident} (h : p.block = some b) (found : Matched)
    (block : Option Value) : (p.bound found block).get? b.name = some (block.getD .nil) := by
  rw [bound, h]
  exact Bindings.get?_set_self _ _ _

end Params

namespace State

theorem defined_eq (id : ScopeId) (found : Matched) (s : State) :
    defined id found s = { s with scopes := (defined id found s).scopes } := by
  induction found with
  | nil => rfl
  | cons b found ih =>
    change (defined id found s).define id b.1 b.2 = _
    rw [ih]
    rfl

theorem definedBlock_eq (p : Params) (block : Option Value) (id : ScopeId) (s : State) :
    definedBlock p block id s = { s with scopes := (definedBlock p block id s).scopes } := by
  unfold definedBlock
  cases p.block <;> rfl

end State

section

variable {made : ListId} {late early : List (Pattern × Share)} {q : Pattern}
  {share : Share} {name : String}

theorem lookup_shared (hname : name ∈ q.names) (hlate : ∀ g ∈ late, name ∉ g.1.names) :
    (shared made (early ++ (q, share) :: late)).reverse.lookup name =
      some (share.value made) := by
  -- Reversed the later parameters come first, and none of them has the name.
  have hnone : (shared made late).reverse.lookup name = none := by
    rw [List.lookup_eq_none_iff]
    intro b hb
    obtain ⟨g, hg, hb⟩ := List.mem_flatMap.mp (List.mem_reverse.mp hb)
    obtain ⟨other, hother, rfl⟩ := List.mem_map.mp hb
    simp only [bne_iff_ne, ne_eq]
    rintro rfl
    exact hlate g hg hother
  have hsome : ∀ names : List String, name ∈ names →
      (names.map fun other ↦ (other, share.value made)).lookup name =
        some (share.value made) := by
    intro names h
    induction names with
    | nil => simp at h
    | cons other names ih =>
      rw [List.map_cons, List.lookup_cons]
      by_cases heq : name = other
      · rw [heq, beq_self_eq_true]
      · rw [beq_false_of_ne heq]
        exact ih (List.mem_of_ne_of_mem heq h)
  rw [shared_append, shared_cons, List.reverse_append, List.reverse_append, List.lookup_append,
    List.lookup_append, hnone, ← List.map_reverse, hsome _ (List.mem_reverse.mpr hname)]
  rfl

end

/-- The parameters are bound to their shares in a new scope inside of `outer`, and so is the name
for the block. Of several parameters with one name the last counts. Nothing else is new but the list
that a splat gets, and what is held. -/
structure BoundIn (outer : ScopeId) (p : Params) (shares : List Share) (block : Option Value)
    (s s' : State) : Prop where
  parameters : ∀ early q share late name, p.items.zip shares = early ++ (q, share) :: late →
    name ∈ q.names → (∀ g ∈ late, name ∉ g.1.names) → p.block.map (·.name) ≠ some name →
    s'.scopes.get? s.scopes.fresh name = some (share.value ⟨s.lists.size⟩)
  block : ∀ name, p.block = some name →
    s'.scopes.get? s.scopes.fresh name.name = some (block.getD .nil)
  names : ∀ name, name ∈ s'.scopes.names s.scopes.fresh ↔ name ∈ p.names
  parent : s'.scopes.parent s.scopes.fresh = some outer
  taken : ∀ name span vs, (.splat (some name) span, .rest vs) ∈ p.items.zip shares →
    Lists.items s'.lists ⟨s.lists.size⟩ = vs
  lists : Lists.Keeps s.lists s'.lists
  older : s'.scopes.older s.scopes.all.size = s.scopes.older s.scopes.all.size
  rest : s' = { s with scopes := s'.scopes, lists := s'.lists, held := s'.held }

theorem boundIn_of_deals {p : Params} {given : List Value} {ctx : Context} {s s₁ s' : State}
    {shares : List Share} {lists : Lists} {held : List Held} {outer : ScopeId}
    {block : Option Value} {found : Matched}
    (h : Deals p given ctx { (s.newScope outer).2 with held } shares lists)
    (hfound : found = (shared ⟨s.lists.size⟩ (p.items.zip shares)).reverse)
    (hs₁ : s₁ = { (s.newScope outer).2 with held, lists })
    (hs' : s' = State.definedBlock p block s.scopes.fresh (State.defined s.scopes.fresh found s₁)) :
    BoundIn outer p shares block s s' := by
  -- The new scope is empty after the match, which touches no scope.
  have hnew : s₁.scopes.all[s.scopes.fresh.index]? = some ⟨.empty, some outer⟩ := by
    rw [hs₁]
    simp [State.newScope, Scopes.child, Scopes.fresh]
  have hscope : s'.scopes.all[s.scopes.fresh.index]? =
      some ⟨p.bound found block, some outer⟩ := by
    rw [hs']
    exact State.getElem?_definedBlock hnew p found block
  have hbindings : s'.scopes.bindings s.scopes.fresh = p.bound found block := by
    rw [Scopes.bindings, hscope]
  have hrest : s' = { s₁ with scopes := s'.scopes } := by
    rw [hs', State.definedBlock_eq, State.defined_eq]
  have hlists : s'.lists = lists := by
    rw [hrest, hs₁]
  have hnames : found.map (·.1) = (Pattern.names.all p.items).reverse := by
    rw [hfound]
    exact h.names
  have hfresh : s.scopes.all.size ≤ s.scopes.fresh.index := Nat.le_refl _
  refine ⟨fun early q share late name hsplit hname hlate hblock ↦ ?_, fun name hname ↦ ?_,
    fun name ↦ ?_, ?_, ?_, ?_, ?_, ?_⟩
  · have hlookup : found.lookup name = some (share.value ⟨s.lists.size⟩) := by
      rw [hfound, hsplit]
      exact lookup_shared hname hlate
    exact Scopes.get?_of_bindings (hbindings ▸ Params.get?_bound hlookup hblock block)
  · exact Scopes.get?_of_bindings (hbindings ▸ Params.get?_bound_block hname found block)
  · rw [Scopes.names, hbindings, Params.mem_names_bound hnames]
  · rw [Scopes.parent, hscope]
  · rw [hlists]
    exact h.taken
  · rw [hlists]
    exact h.keeps
  · rw [hs', State.older_definedBlock hfresh, State.older_defined hfresh, hs₁]
    exact Scopes.older_child _ _
  · rw [hrest, hs₁]
    rfl

namespace Eval

theorem runBlock_of_match {id : LambdaId} {l : Lambda} {args given : List Value}
    {block : Option Value} {span : Span} {s s₁ : State} {ctx : Context} {found : Matched}
    (hctx : { l.home with scope := s.scopes.fresh } = ctx)
    (hgiven : s.blockArgs l.block.params args = given)
    (h : matchSequence ctx l.block.params.items given
      { (s.newScope l.home.scope).2 with held := ⟨block.toList ++ given, some ctx⟩ :: s.held } =
      .done (.ok (some found)) s₁) :
    ∃ resume, runBlock id l args block span s =
      .wait (.framed ⟨blockLabel l.home, span⟩ (.statements l.block.body ctx))
        (State.definedBlock l.block.params block ctx.scope (State.defined ctx.scope found s₁))
        resume := by
  subst hctx hgiven
  change ∃ resume, Step.restoring s.held (Step.andThen
    (matchSequence { l.home with scope := s.scopes.fresh } l.block.params.items
      (s.blockArgs l.block.params args)
      { (s.newScope l.home.scope).2 with
        held := ⟨block.toList ++ s.blockArgs l.block.params args,
          some { l.home with scope := s.scopes.fresh }⟩ :: s.held }) _) = _
  rw [h]
  unfold State.definedBlock defineBlock
  cases l.block.params.block <;> exact ⟨_, rfl⟩

theorem callLambda_of_found {id : LambdaId} {l : Lambda} {s : State} (hl : s.lambda? id = some l)
    (args : List Value) (block : Option Value) (span : Span) :
    callLambda id args block span s = runBlock id l args block span s := by
  have hread (k : Option Lambda → Eval Value) :
      (read (·.lambda? id) >>= k) s = k (some l) s := by
    rw [← hl]
    rfl
  exact hread _

end Eval

/-- A block whose parameters are names without types, wildcards and at most one splat comes to its
body whatever its arguments are. The parameters are bound to their shares of the arguments. A list
that is the only argument is spread over several parameters. -/
theorem blocks_bind_leniently {s : State} {id : LambdaId} {l : Lambda}
    (hl : s.lambda? id = some l) (hp : l.block.params.Lenient) (args : List Value)
    (block : Option Value) (span : Span) :
    ∃! shares, Shares (s.spread l.block.params args) l.block.params.items shares ∧
      ∃ s' resume, callLambda id args block span s =
        .wait (.framed ⟨blockLabel l.home, span⟩
          (.statements l.block.body { l.home with scope := s.scopes.fresh })) s' resume ∧
        BoundIn l.home.scope l.block.params shares block s s' := by
  let ctx : Context := { l.home with scope := s.scopes.fresh }
  obtain ⟨shares, lists, hdeals⟩ := exists_deals hp (s.spread l.block.params args) ctx
    { (s.newScope l.home.scope).2 with
      held := ⟨block.toList ++ l.block.params.fit (s.spread l.block.params args), some ctx⟩ ::
        s.held }
  refine ⟨shares, ⟨hdeals.fair, ?_⟩, fun other hother ↦ hdeals.fair.unique hother.1⟩
  obtain ⟨resume, hrun⟩ := runBlock_of_match rfl (s.blockArgs_eq l.block.params args) hdeals.found
  exact ⟨_, resume, (callLambda_of_found hl args block span).trans hrun,
    boundIn_of_deals hdeals rfl rfl rfl⟩

/-- `{ |a, *rest, b, &k| }` -/
def threeParameters : Lambda :=
  ⟨⟨⟨[.name "a", .splat (some ⟨"rest", .origin⟩) .origin, .name "b"], some ⟨"k", .origin⟩⟩, [],
    .origin⟩, State.topContext⟩

/-- A program that has made the block and `[1, 2, 3, 4]`. -/
def fourItems : State :=
  { State.initial .standard with
    lists := #[#[.int 1, .int 2, .int 3, .int 4]], lambdas := #[threeParameters] }

theorem threeParameters_lenient : threeParameters.block.params.Lenient :=
  ⟨by simp [threeParameters, Pattern.name, Pattern.isLenient],
    by simp [threeParameters, Pattern.name, Pattern.isSplat]⟩

/-- The only argument is spread, and its last element is for the last parameter. -/
theorem fourItems_bound : ∃ s' resume,
    callLambda ⟨0⟩ [.list ⟨0⟩] none .origin fourItems =
      .wait (.framed ⟨"block", .origin⟩ (.statements []
        { State.topContext with scope := fourItems.scopes.fresh })) s' resume ∧
    s'.scopes.get? fourItems.scopes.fresh "a" = some (.int 1) ∧
    s'.scopes.get? fourItems.scopes.fresh "rest" = some (.list ⟨1⟩) ∧
    Lists.items s'.lists ⟨1⟩ = [.int 2, .int 3] ∧
    s'.scopes.get? fourItems.scopes.fresh "b" = some (.int 4) ∧
    s'.scopes.get? fourItems.scopes.fresh "k" = some .nil := by
  have hl : fourItems.lambda? ⟨0⟩ = some threeParameters := rfl
  obtain ⟨shares, ⟨hshares, s', resume, hrun, hbound⟩, -⟩ :=
    blocks_bind_leniently hl threeParameters_lenient [.list ⟨0⟩] none .origin
  have hbefore : [Pattern.name "a"].any (·.isSplat) = false := rfl
  have hafter : [Pattern.name "b"].any (·.isSplat) = false := rfl
  have hexpected : Shares (fourItems.spread threeParameters.block.params [.list ⟨0⟩])
      threeParameters.block.params.items
      ([Value.int 1].map .one ++ .rest [.int 2, .int 3] :: [Value.int 4].map .one) :=
    .around hbefore hafter rfl rfl rfl
  obtain rfl := hexpected.unique hshares
  refine ⟨s', resume, hrun, ?_, ?_, hbound.taken _ _ _ (.tail _ (.head _)), ?_,
    hbound.block _ rfl⟩
  · exact hbound.parameters [] (.name "a") (.one (.int 1)) _ "a" rfl (.head _)
      (by simp [Pattern.names, Pattern.name]) (by simp [threeParameters])
  · exact hbound.parameters [_] (.splat (some ⟨"rest", .origin⟩) .origin) (.rest _) [_] "rest" rfl
      (.head _) (by simp [Pattern.names, Pattern.name]) (by simp [threeParameters])
  · exact hbound.parameters [_, _] (.name "b") (.one (.int 4)) [] "b" rfl (.head _) (by simp)
      (by simp [threeParameters])

end Quill
