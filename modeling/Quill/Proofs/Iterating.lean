import Quill.Proofs.Answering
import Quill.Proofs.Fitting
import Quill.Proofs.Protection
import Quill.Proofs.Rounds
import Quill.Proofs.Sorting

/-!
# Methods that call a block again and again

Whatever the block does, also to the list, these methods do nothing but call it, each time for what
is then next. What unwinds in the block passes them by. Main statement: `iterators_let_pass`.
-/

namespace Quill

open Eval

/-- The answers of the tasks that have one. -/
def answersOf (es : List Episode) : List Value := es.filterMap (·.outcome.toOption)

theorem answersOf_cons {e : Episode} {a : Value} (ha : e.outcome = .ok a) (es : List Episode) :
    answersOf (e :: es) = a :: answersOf es := by
  unfold answersOf
  rw [List.filterMap_cons_some (by rw [ha]; rfl)]

namespace Visit

/-- The arguments of the block for an element, after it gave these answers. -/
def argsAfter (v : Visit) (answers : List Value) (index : Nat) (item : Value) : List Value :=
  match v with
  | eachWithIndex => [item, .int (Int64.ofNat index)]
  | reduce first => [answers.getLast?.getD first, item]
  | _ => [item]

def stops (v : Visit) (answer : Value) : Bool :=
  match v with
  | find => answer.isTruthy
  | decide wanted => answer.isTruthy == wanted
  | _ => false

section

variable {v v' : Visit} {item a r : Value}

theorem argsAfter_nil (v : Visit) (i : Nat) (item : Value) :
    v.argsAfter [] i item = v.args i item := by
  cases v <;> rfl

theorem stops_of_step_inr (h : v.step item a = .inr r) : v.stops a = true := by
  cases v <;> simp only [step, reduceCtorEq] at h
  all_goals
    split at h
    · assumption
    · cases h

theorem of_step_inl (h : v.step item a = .inl v') :
    v.stops a = false ∧ v'.stops = v.stops ∧
      ∀ answers i x, v'.argsAfter answers i x = v.argsAfter (a :: answers) i x := by
  cases v with
  | find | decide wanted =>
    simp only [step] at h
    split at h
    · cases h
    · rename_i hstops
      cases h
      exact ⟨Bool.eq_false_iff.mpr hstops, rfl, fun _ _ _ ↦ rfl⟩
  | reduce first =>
    cases h
    refine ⟨rfl, rfl, fun answers i x ↦ ?_⟩
    simp only [argsAfter, List.getLast?_cons, Option.getD_some]
  | _ =>
    cases h
    exact ⟨rfl, rfl, fun _ _ _ ↦ rfl⟩

end

/-- The calls of a visit that begins with the element at `i`. Each is about the element that is then
next, and none comes after an answer that ends the visit. -/
structure Orderly (v : Visit) (l : ListId) (b : Value) (span : Span) (i : Nat)
    (es : List Episode) : Prop where
  asks : ∀ k e, es[k]? = some e → ∃ item, (e.before.items l)[i + k]? = some item ∧
    e.task = blockCall b (v.argsAfter (answersOf (es.take k)) (i + k) item) span
  goesOn : ∀ k e a, es[k]? = some e → e.outcome = .ok a → v.stops a = true → k + 1 = es.length

section

variable {l : ListId} {b : Value} {span : Span} {p p' : (visiting l b span).Place} {e : Episode}
  {es : List Episode} {f : Value → (visiting l b span).Place ⊕ Value}

theorem asks_iff : (visiting l b span).Asks p e f ↔
    ∃ item, (e.before.items l)[p.2]? = some item ∧
      e.task = blockCall b (p.1.argsAfter [] p.2 item) span ∧
      f = fun a ↦ (p.1.step item a).map (·, p.2 + 1) id := by
  constructor
  · rintro ⟨args, hnext, htask⟩
    obtain ⟨item, hitem, hcall⟩ := Option.map_eq_some_iff.mp hnext
    cases hcall
    exact ⟨item, hitem, by rw [argsAfter_nil]; exact htask, rfl⟩
  · rintro ⟨item, hitem, htask, rfl⟩
    exact ⟨_, Option.map_eq_some_iff.mpr ⟨item, hitem, rfl⟩, by rw [← argsAfter_nil]; exact htask⟩

theorem Orderly.nil (v : Visit) (i : Nat) : v.Orderly l b span i [] where
  asks k e hk := by rw [List.getElem?_nil] at hk; cases hk
  goesOn k e a hk := by rw [List.getElem?_nil] at hk; cases hk

theorem Orderly.single (he : (visiting l b span).Asks p e f) : p.1.Orderly l b span p.2 [e] := by
  obtain ⟨item, hitem, htask, -⟩ := asks_iff.mp he
  have honly {k : Nat} {e' : Episode} (hk : [e][k]? = some e') : k = 0 ∧ e = e' := by
    cases k with
    | zero => exact ⟨rfl, Option.some.inj hk⟩
    | succ k =>
      rw [List.getElem?_cons_succ, List.getElem?_nil] at hk
      cases hk
  refine ⟨fun k e' hk ↦ ?_, fun k e' a hk _ _ ↦ ?_⟩
  · obtain ⟨rfl, rfl⟩ := honly hk
    exact ⟨item, hitem, htask⟩
  · rw [(honly hk).1]
    rfl

theorem step_of_asks {a : Value} {p₁ : (visiting l b span).Place}
    (he : (visiting l b span).Asks p e f) (hf : f a = .inl p₁) :
    ∃ item, (e.before.items l)[p.2]? = some item ∧
      e.task = blockCall b (p.1.argsAfter [] p.2 item) span ∧
      p.1.step item a = .inl p₁.1 ∧ p₁.2 = p.2 + 1 := by
  obtain ⟨item, hitem, htask, rfl⟩ := asks_iff.mp he
  refine ⟨item, hitem, htask, ?_⟩
  cases hstep : p.1.step item a with
  | inr r =>
    simp only [hstep, Sum.map_inr] at hf
    cases hf
  | inl v' =>
    simp only [hstep, Sum.map_inl] at hf
    cases hf
    exact ⟨rfl, rfl⟩

theorem Orderly.cons {a : Value} {p₁ : (visiting l b span).Place}
    (he : (visiting l b span).Asks p e f) (ha : e.outcome = .ok a) (hf : f a = .inl p₁)
    (h : p₁.1.Orderly l b span p₁.2 es) : p.1.Orderly l b span p.2 (e :: es) := by
  obtain ⟨item, hitem, htask, hstep, hplace⟩ := step_of_asks he hf
  obtain ⟨hgoes, hstops, hargs⟩ := of_step_inl hstep
  refine ⟨fun k e' hk ↦ ?_, fun k e' w hk hw hstop ↦ ?_⟩
  · cases k with
    | zero =>
      cases hk
      exact ⟨item, hitem, htask⟩
    | succ k =>
      rw [List.getElem?_cons_succ] at hk
      obtain ⟨x, hx, htask'⟩ := h.asks k e' hk
      have hindex : p₁.2 + k = p.2 + (k + 1) := by omega
      rw [hindex] at hx htask'
      refine ⟨x, hx, ?_⟩
      rw [List.take_succ_cons, answersOf_cons ha, ← hargs]
      exact htask'
  · cases k with
    | zero =>
      cases hk
      rw [ha] at hw
      cases hw
      rw [hgoes] at hstop
      cases hstop
    | succ k =>
      rw [List.getElem?_cons_succ] at hk
      have hlast := h.goesOn k e' w hk hw (by rwa [hstops])
      rw [List.length_cons, hlast]

theorem place_of_called (h : (visiting l b span).Called p es p') :
    p'.2 = p.2 + es.length ∧ p'.1.stops = p.1.stops := by
  induction h with
  | nil => exact ⟨rfl, rfl⟩
  | cons he _ hf _ ih =>
    obtain ⟨_, -, -, hstep, hplace⟩ := step_of_asks he hf
    refine ⟨?_, ih.2.trans (of_step_inl hstep).2.1⟩
    rw [ih.1, hplace, List.length_cons]
    omega

theorem orderly_of_called (h : (visiting l b span).Called p es p') :
    p.1.Orderly l b span p.2 es := by
  induction h with
  | nil => exact .nil _ _
  | cons he ha hf _ ih => exact .cons he ha hf ih

theorem orderly_of_last (h : (visiting l b span).Called p es p')
    (he : (visiting l b span).Asks p' e f) : p.1.Orderly l b span p.2 (es ++ [e]) := by
  induction h with
  | nil => exact .single he
  | cons he' ha hf _ ih => exact .cons he' ha hf (ih he)

theorem orderly_of_comes {s : State} {y : Step Reply} {t : Task} {v : Visit} {i : Nat}
    (h : Task.Comes (.visit v l (some b) span i) ((Task.visit v l (some b) span i).work s) es t y) :
    v.Orderly l b span i es := by
  cases BlockLoop.stage (L := visiting l b span) (p := (v, i)) h with
  | begins hcalled _ => exact orderly_of_called hcalled
  | ends hcalled he _ => exact orderly_of_last hcalled he

theorem over_of_ends {s s' : State} {a : Value} (h : (visiting l b span).Ends p s es (.ok a) s') :
    (∃ s₁, Along State.AsBefore s es s₁ ∧ (s₁.items l)[p.2 + es.length]? = none) ∨
      ∃ e w, es.getLast? = some e ∧ e.outcome = .ok w ∧ p.1.stops w = true := by
  cases h with
  | @finished _ p' s₁ _ _ hcalled halong hnext _ =>
    have hnone : (s₁.items l)[p'.2]? = none := Option.map_eq_none_iff.mp hnext
    rw [(place_of_called hcalled).1] at hnone
    exact .inl ⟨s₁, halong, hnone⟩
  | @decided _ p' e f _ w _ hcalled he hw hf _ =>
    obtain ⟨item, -, -, rfl⟩ := asks_iff.mp he
    refine .inr ⟨e, w, List.getLast?_concat, hw, ?_⟩
    rw [← (place_of_called hcalled).2]
    cases hstep : p'.1.step item w with
    | inl v' =>
      simp only [hstep, Sum.map_inl] at hf
      cases hf
    | inr r => exact stops_of_step_inr hstep

end

end Visit

section

variable {b : Value} {span : Span} {p p' : (counting b span).Place} {e : Episode}
  {es : List Episode} {f : Value → (counting b span).Place ⊕ Value}

theorem counts_asks (he : (counting b span).Asks p e f) :
    e.task = blockCall b [.int (Int64.ofNat p.2)] span ∧
      ∃ left, p.1 = left + 1 ∧ f = fun _ ↦ .inl (left, p.2 + 1) := by
  obtain ⟨args, hnext, htask⟩ := he
  obtain ⟨_ | left, i⟩ := p
  · cases hnext
  · cases hnext
    exact ⟨htask, left, rfl, rfl⟩

/-- The block was called with the numbers from `i` on. -/
def CallsUpward (b : Value) (span : Span) (i : Nat) (es : List Episode) : Prop :=
  ∀ k e, es[k]? = some e → e.task = blockCall b [.int (Int64.ofNat (i + k))] span

theorem CallsUpward.cons {i : Nat} (he : e.task = blockCall b [.int (Int64.ofNat i)] span)
    (h : CallsUpward b span (i + 1) es) : CallsUpward b span i (e :: es) := by
  intro k e' hk
  cases k with
  | zero =>
    cases hk
    exact he
  | succ k =>
    have hindex : i + 1 + k = i + (k + 1) := by omega
    have htask := h k e' hk
    rwa [hindex] at htask

theorem callsUpward_nil (b : Value) (span : Span) (i : Nat) : CallsUpward b span i [] := by
  intro k e hk
  rw [List.getElem?_nil] at hk
  cases hk

theorem counts_called (h : (counting b span).Called p es p') :
    p'.1 + es.length = p.1 ∧ CallsUpward b span p.2 es ∧
      ∀ e f, (counting b span).Asks p' e f → CallsUpward b span p.2 (es ++ [e]) := by
  induction h with
  | nil =>
    refine ⟨rfl, callsUpward_nil b span _, fun e f he ↦ ?_⟩
    exact .cons (counts_asks he).1 (callsUpward_nil b span _)
  | cons he _ hf _ ih =>
    obtain ⟨htask, left, hleft, rfl⟩ := counts_asks he
    cases hf
    obtain ⟨hlength, hcalls, hlast⟩ := ih
    refine ⟨?_, .cons htask hcalls, fun e f he' ↦ .cons htask (hlast e f he')⟩
    rw [List.length_cons, hleft]
    omega

theorem counts_ends {s s' : State} {o : Outcome Value} (h : (counting b span).Ends p s es o s') :
    CallsUpward b span p.2 es ∧ es.length ≤ p.1 ∧ ∀ a, o = .ok a → es.length = p.1 := by
  cases h with
  | @finished _ p' s₁ _ _ hcalled _ hnext _ =>
    obtain ⟨hlength, hcalls, -⟩ := counts_called hcalled
    obtain ⟨_ | left, i⟩ := p'
    · exact ⟨hcalls, by omega, fun _ _ ↦ by omega⟩
    · cases hnext
  | @decided _ p' e f _ w _ _ he _ hf _ =>
    obtain ⟨-, left, -, rfl⟩ := counts_asks he
    cases hf
  | @unwound _ p' e f _ u hcalled he _ _ =>
    obtain ⟨hlength, -, hlast⟩ := counts_called hcalled
    obtain ⟨-, left, hleft, -⟩ := counts_asks he
    refine ⟨hlast e f he, ?_, nofun⟩
    rw [List.length_append, List.length_singleton]
    omega

end

/-- Whether the task is a loop that a built-in method leaves its work to. -/
def Task.isLoop : Task → Bool
  | .visit .. | .times .. => true
  | _ => false

/-- All that the work waits for, itself or in the rounds of a loop that it leaves all to. -/
inductive Eval.Iterates (x : Eval Value) (s : State) : List Episode → Outcome Value → State → Prop
  | directly {es : List Episode} {o : Outcome Value} {s' : State} : (x s).Course es o s' →
      (∀ e ∈ es, e.task.isLoop = false) → Iterates x s es o s'
  | inRounds {es : List Episode} {o o₁ : Outcome Value} {s₀ s₁ s' : State} {t : Task} :
      (x s).Course [⟨t, s₀, o₁, s₁⟩] o s' → t.isLoop = true → t.Course s₀ es o₁ s₁ →
      Iterates x s es o s'

/-- The work does nothing but call the block, as often as it may be. Once a call unwinds, so does
the work, and all is left as the block left it. -/
structure Eval.OnlyCalls (x : Eval Value) (b : Value) (span : Span) (s : State) : Prop where
  gives : ∀ o s', x.Gives s o s' ↔ ∃ es, x.Iterates s es o s'
  calls : ∀ es o s', x.Iterates s es o s' → ∀ e ∈ es, ∃ args, e.task = blockCall b args span
  letsPass : ∀ es o s', x.Iterates s es o s' → LetsPass es o
  between : ∀ es o s', x.Iterates s es o s' → ∃ s₁, Along State.AsBefore s es s₁ ∧ s₁.Grows s' ∧
    ∀ u, o = .error u → s₁.AsBefore s'

section

variable {x : Eval Value} {b : Value} {span : Span} {s s₀ s' : State} {es : List Episode}
  {o : Outcome Value} {t : Task} {g : Outcome Value → Outcome Value} {held : List Held}

theorem blockCall_isLoop (b : Value) (args : List Value) (span : Span) :
    (blockCall b args span).isLoop = false := by
  cases b <;> rfl

theorem iterates_iff (hx : x s = .wait t s₀ fun o s₁ ↦ .done (g o) { s₁ with held })
    (ht : t.isLoop = true) : x.Iterates s es o s' ↔
      ∃ o₁ s₁, t.Course s₀ es o₁ s₁ ∧ o = g o₁ ∧ s' = { s₁ with held } := by
  constructor
  · intro h
    cases h with
    | directly hcourse hnone =>
      rw [hx] at hcourse
      cases hcourse with
      | wait _ _ =>
        have hfalse := hnone _ List.mem_cons_self
        rw [ht] at hfalse
        cases hfalse
    | inRounds hcourse _ hrounds =>
      rw [hx] at hcourse
      cases hcourse with
      | wait _ hrest =>
        obtain ⟨-, rfl, rfl⟩ := hrest.of_done
        exact ⟨_, _, hrounds, rfl, rfl⟩
  · rintro ⟨o₁, s₁, hrounds, rfl, rfl⟩
    obtain ⟨n, hrun⟩ := Task.gives_iff_course.mpr ⟨es, hrounds⟩
    have hcourse : (x s).Course [⟨t, s₀, o₁, s₁⟩] (g o₁) { s₁ with held } := by
      rw [hx]
      exact .wait hrun .done
    exact .inRounds hcourse ht hrounds

theorem gives_iff_iterates (hx : x s = .wait t s₀ fun o s₁ ↦ .done (g o) { s₁ with held })
    (ht : t.isLoop = true) : x.Gives s o s' ↔ ∃ es, x.Iterates s es o s' := by
  constructor
  · rintro ⟨es, hcourse⟩
    rw [hx] at hcourse
    cases hcourse with
    | wait hrun hrest =>
      obtain ⟨rfl, rfl, rfl⟩ := hrest.of_done
      obtain ⟨es, hrounds⟩ := Task.gives_iff_course.mp ⟨_, hrun⟩
      exact ⟨es, (iterates_iff hx ht).mpr ⟨_, _, hrounds, rfl, rfl⟩⟩
  · rintro ⟨es, h⟩
    cases h with
    | directly hcourse _ => exact ⟨_, hcourse⟩
    | inRounds hcourse _ _ => exact ⟨_, hcourse⟩

theorem onlyCalls_of_loop {L : BlockLoop b span} {p : L.Place}
    (hx : x s = .wait (L.task p) s₀ fun o s₁ ↦ .done (g o) { s₁ with held })
    (ht : (L.task p).isLoop = true) (hs : s.AsBefore s₀) (hok : ∀ v, ∃ w, g (.ok v) = .ok w)
    (herror : ∀ u, g (.error u) = .error u) : x.OnlyCalls b span s := by
  -- All that the work does is in the rounds, so its end is that of the loop.
  have hends {es : List Episode} {o : Outcome Value} {s' : State} (h : x.Iterates s es o s') :
      ∃ o₁ s₁, BlockLoop.Ends p s₀ es o₁ s₁ ∧ o = g o₁ ∧ s' = { s₁ with held } := by
    obtain ⟨o₁, s₁, hrounds, ho, hs'⟩ := (iterates_iff hx ht).mp h
    exact ⟨o₁, s₁, BlockLoop.ends hrounds, ho, hs'⟩
  refine ⟨fun o s' ↦ gives_iff_iterates hx ht, fun es o s' h ↦ ?_, fun es o s' h ↦ ?_,
    fun es o s' h ↦ ?_⟩
  · obtain ⟨o₁, s₁, hends, -, -⟩ := hends h
    exact hends.blockCalls
  · obtain ⟨o₁, s₁, hends, rfl, -⟩ := hends h
    have hpass := hends.letsPass
    cases o₁ with
    | ok v =>
      obtain ⟨w, hw⟩ := hok v
      rw [hw]
      exact hpass
    | error u =>
      rw [herror]
      exact hpass
  · obtain ⟨o₁, s₁, hends, rfl, rfl⟩ := hends h
    cases hends with
    | finished _ halong _ hgrows =>
      obtain ⟨w, hw⟩ := hok _
      refine ⟨_, .of_earlier hs halong, hgrows.held, fun u hu ↦ ?_⟩
      rw [hw] at hu
      cases hu
    | decided _ _ _ _ halong =>
      exact ⟨s₁, .of_earlier hs halong, (State.Grows.refl s₁).held, fun _ _ ↦ ⟨held, rfl⟩⟩
    | unwound _ _ _ halong =>
      exact ⟨s₁, .of_earlier hs halong, (State.Grows.refl s₁).held, fun _ _ ↦ ⟨held, rfl⟩⟩

theorem onlyCalls_of_value {v : Value} (hx : x s = .done (.ok v) s) : x.OnlyCalls b span s := by
  have hnothing {es : List Episode} {o : Outcome Value} {s' : State} (h : x.Iterates s es o s') :
      es = [] ∧ o = .ok v ∧ s' = s := by
    cases h with
    | directly hcourse _ =>
      rw [hx] at hcourse
      exact hcourse.of_done
    | inRounds hcourse _ _ =>
      rw [hx] at hcourse
      cases hcourse.of_done.1
  refine ⟨fun o s' ↦ ⟨?_, ?_⟩, fun es o s' h ↦ ?_, fun es o s' h ↦ ?_, fun es o s' h ↦ ?_⟩
  · rintro ⟨es, hcourse⟩
    have hempty := hcourse
    rw [hx] at hempty
    obtain ⟨rfl, -, -⟩ := hempty.of_done
    exact ⟨[], .directly hcourse (List.forall_mem_nil _)⟩
  · rintro ⟨es, h⟩
    obtain ⟨-, rfl, rfl⟩ := hnothing h
    exact ⟨[], by rw [hx]; exact .done⟩
  · rw [(hnothing h).1]
    exact List.forall_mem_nil _
  · obtain ⟨rfl, rfl, -⟩ := hnothing h
    exact List.forall_mem_nil _
  · obtain ⟨rfl, rfl, rfl⟩ := hnothing h
    exact ⟨s', State.Lax.refl s', .refl s', nofun⟩

end

namespace Routine

def iterates : Routine → Bool
  | .number .times => true
  | .list r => match r with
    | .each | .eachWithIndex | .map | .filter _ | .reduceFirst | .reduce | .find | .any | .all
    | .count | .sort => true
    | _ => false
  | _ => false

def iterators : List Entry := catalogue.filter (·.routine.iterates)

example : iterators.map (·.name) = ["times", "each", "each_with_index", "map", "select", "reject",
    "reduce", "reduce", "find", "any?", "all?", "count", "sort"] := by
  decide

end Routine

section

variable {r : ListRoutine} {c : Call} {l : ListId} {b : Value} {v : Visit} {i : Nat} {s : State}

theorem ListRoutine.run_visit (hc : c.receiver = .list l)
    (hb : (r.needsBlock && c.block.isNone) = false)
    (hv : r.visit? c (s.items l)[0]? = some (v, i)) :
    r.run c s = .wait (.visit v l c.block c.span i) { s with held := ⟨c.values, none⟩ :: s.held }
      fun o s₁ ↦ .done o { s₁ with held := s.held } := by
  have hr : r ≠ .newEmpty ∧ r ≠ .newFilled := by
    constructor <;> rintro rfl <;> cases hv
  rw [run_apply hr hc hb, hv]
  rfl

theorem ListRoutine.run_blockVisit (hc : c.receiver = .list l) (hb : c.block = some b)
    (hv : r.visit? c (s.items l)[0]? = some (v, i)) :
    r.run c s = .wait (.visit v l (some b) c.span i) { s with held := ⟨c.values, none⟩ :: s.held }
      fun o s₁ ↦ .done o { s₁ with held := s.held } := by
  rw [run_visit hc (by simp [hb]) hv, hb]

/-- Which visit a method is, and the index of the element that it begins with. Without a start,
`reduce` starts with the first element, and begins with the second. -/
inductive ListRoutine.Visits (c : Call) (first : Option Value) : ListRoutine → Visit → Nat → Prop
  | each : Visits c first .each .each 0
  | eachWithIndex : Visits c first .eachWithIndex .eachWithIndex 0
  | map : Visits c first .map (.map []) 0
  | select : Visits c first (.filter true) (.filter true []) 0
  | reject : Visits c first (.filter false) (.filter false []) 0
  | reduceFirst {start : Value} : first = some start →
      Visits c first .reduceFirst (.reduce start) 1
  | reduce {start : Value} : c.args = [start] → Visits c first .reduce (.reduce start) 0
  | find : Visits c first .find .find 0
  | any : Visits c first .any (.decide true) 0
  | all : Visits c first .all (.decide false) 0
  | count : Visits c first .count (.count 0) 0

theorem ListRoutine.exists_visits (hr : (Routine.list r).iterates = true) (hsort : r ≠ .sort)
    (hreduce : r = .reduce → ∃ start, c.args = [start]) (hb : c.block = some b)
    (first : Option Value) :
    (∃ v i, r.Visits c first v i ∧ r.visit? c first = some (v, i)) ∨
      r = .reduceFirst ∧ first = none := by
  cases r with
  | reduceFirst =>
    cases first with
    | some start => exact .inl ⟨_, _, .reduceFirst rfl, rfl⟩
    | none => exact .inr ⟨rfl, rfl⟩
  | reduce =>
    obtain ⟨start, hargs⟩ := hreduce rfl
    refine .inl ⟨_, _, .reduce hargs, ?_⟩
    simp [visit?, Call.arg, hargs]
  | count =>
    refine .inl ⟨_, _, .count, ?_⟩
    simp [visit?, hb]
  | filter keep =>
    cases keep with
    | true => exact .inl ⟨_, _, .select, rfl⟩
    | false => exact .inl ⟨_, _, .reject, rfl⟩
  | each => exact .inl ⟨_, _, .each, rfl⟩
  | eachWithIndex => exact .inl ⟨_, _, .eachWithIndex, rfl⟩
  | map => exact .inl ⟨_, _, .map, rfl⟩
  | find => exact .inl ⟨_, _, .find, rfl⟩
  | any => exact .inl ⟨_, _, .any, rfl⟩
  | all => exact .inl ⟨_, _, .all, rfl⟩
  | sort => exact absurd rfl hsort
  | _ => cases hr

theorem reduceFirst_of_empty (hc : c.receiver = .list l) (hb : c.block = some b)
    (hempty : (s.items l)[0]? = none) : ListRoutine.reduceFirst.run c s = .done (.ok .nil) s := by
  unfold ListRoutine.run
  rw [hc]
  dsimp only
  rw [if_neg (by simp [hb]), read_bind, hempty]
  rfl

theorem sort_onlyCalls {span : Span} :
    (ListRoutine.sort.run ⟨.list l, [], some b, span⟩).OnlyCalls b span s := by
  have hcalls {es : List Episode} {o : Outcome Value} {s' : State}
      (h : (ListRoutine.sort.run ⟨.list l, [], some b, span⟩ s).Course es o s') :
      ∀ e ∈ es, ∃ args, e.task = blockCall b args span := by
    intro e he
    obtain ⟨a, -, a', -, htask⟩ := (ListRoutine.sort_course h).2.1 e he
    refine ⟨[a, a'], htask.trans ?_⟩
    cases b <;> rfl
  -- Sorting leaves nothing to a loop: the method itself asks for all comparisons.
  have hnone {es : List Episode} {o : Outcome Value} {s' : State}
      (h : (ListRoutine.sort.run ⟨.list l, [], some b, span⟩ s).Course es o s') :
      ∀ e ∈ es, e.task.isLoop = false := by
    intro e he
    obtain ⟨args, htask⟩ := hcalls h e he
    rw [htask]
    exact blockCall_isLoop b args span
  have hcourse {es : List Episode} {o : Outcome Value} {s' : State}
      (h : (ListRoutine.sort.run ⟨.list l, [], some b, span⟩).Iterates s es o s') :
      (ListRoutine.sort.run ⟨.list l, [], some b, span⟩ s).Course es o s' := by
    cases h with
    | directly hcourse _ => exact hcourse
    | inRounds hcourse ht _ =>
      have hfalse := hnone hcourse _ (List.mem_singleton_self _)
      rw [ht] at hfalse
      cases hfalse
  refine ⟨fun o s' ↦ ⟨?_, ?_⟩, fun es o s' h ↦ hcalls (hcourse h),
    fun es o s' h ↦ (ListRoutine.sort_course (hcourse h)).2.2.1, fun es o s' h ↦ ?_⟩
  · rintro ⟨es, h⟩
    exact ⟨es, .directly h (hnone h)⟩
  · rintro ⟨es, h⟩
    exact ⟨es, hcourse h⟩
  · obtain ⟨-, -, -, s₁, halong, hends⟩ := ListRoutine.sort_course (hcourse h)
    cases o with
    | ok a =>
      obtain ⟨sorted, -, -, rfl⟩ := hends
      exact ⟨s₁, halong, (State.Grows.newList s₁ _).held, nofun⟩
    | error u =>
      cases hends
      exact ⟨s₁, halong, (State.Grows.refl s₁).held, fun _ _ ↦ ⟨s.held, rfl⟩⟩

theorem times_run {n : Int64} (hc : c.receiver = .int n) (hb : c.block = some b) :
    NumberRoutine.times.run c s = .wait (.times n.toInt.toNat 0 b c.span)
      { s with held := ⟨c.values, none⟩ :: s.held }
      fun o s₁ ↦ .done (o.map fun _ ↦ .int n) { s₁ with held := s.held } := by
  unfold NumberRoutine.run
  rw [hc, hb]
  refine congrArg (Step.wait _ _) (funext fun o ↦ funext fun s₁ ↦ ?_)
  cases o <;> rfl

theorem times_onlyCalls {n : Int64} (hc : c.receiver = .int n) (hb : c.block = some b) :
    (NumberRoutine.times.run c).OnlyCalls b c.span s :=
  onlyCalls_of_loop (L := counting b c.span) (p := (n.toInt.toNat, 0)) (times_run hc hb) rfl
    ⟨_, rfl⟩ (fun _ ↦ ⟨_, rfl⟩) fun _ ↦ rfl

theorem list_onlyCalls (hr : (Routine.list r).iterates = true) (hc : c.receiver = .list l)
    (hb : c.block = some b) (hargs : r = .sort → c.args = []) : (r.run c).OnlyCalls b c.span s := by
  cases hv : r.visit? c (s.items l)[0]? with
  | some found =>
    obtain ⟨v, i⟩ := found
    exact onlyCalls_of_loop (L := visiting l b c.span) (p := (v, i)) (g := id)
      (ListRoutine.run_blockVisit hc hb hv) rfl ⟨_, rfl⟩ (fun v ↦ ⟨v, rfl⟩) fun u ↦ rfl
  | none =>
    cases r with
    | reduceFirst =>
      exact onlyCalls_of_value (reduceFirst_of_empty hc hb (Option.map_eq_none_iff.mp hv))
    | sort =>
      obtain ⟨receiver, args, block, span⟩ := c
      cases hc
      cases hb
      cases hargs rfl
      exact sort_onlyCalls
    | each | eachWithIndex | map | filter keep | reduce | find | any | all => cases hv
    | count =>
      simp only [ListRoutine.visit?, hb] at hv
      cases hv
    | _ => cases hr

end

namespace Routine

theorem iterators_shape : ∀ e ∈ iterators,
    (∃ r ∈ [ListRoutine.each, .eachWithIndex, .map, .filter true, .filter false, .reduceFirst,
      .reduce, .find, .any, .all, .count, .sort], e.routine = .list r ∧ e.owner = .list ∧
        e.signature.receiver = .list ∧
        (r = .sort → e.signature.params = [] ∧ e.signature.rest = none) ∧
        (r = .reduce → e.signature.params = [.any] ∧ e.signature.rest = none)) ∨
      e.routine = .number .times ∧ e.owner = .int ∧ e.signature.receiver = .int := by
  decide +kernel

def reduceFirst : Entry :=
  withBlock (fixed .list .list "reduce" [] (.list .reduceFirst)) .required

def reduce : Entry :=
  withBlock (fixed .list .list "reduce" [.any] (.list .reduce)) .required

theorem iterators_offered : ∀ e ∈ iterators, ∃ before ∈ [[], [reduceFirst]],
    ∃ after ∈ [[], [reduce]],
      Types.standard.offersFirst e.owner e.name (before ++ e :: after) = true ∧
        ∀ p ∈ before, p.signature.rest = none ∧ e.signature.rest = none ∧
          p.signature.params.length ≠ e.signature.params.length := by
  decide +kernel

end Routine

section

variable {e : Routine.Entry} {c : Call} {s : State}

theorem iterators_receiver (he : e ∈ Routine.iterators) {hasBlock : Bool}
    (hfits : e.signature.mismatch s.types.sort c.receiver c.args hasBlock = none) :
    (∃ r l, e.routine = .list r ∧ c.receiver = .list l ∧ e.owner = .list ∧
        (r = .sort → c.args = []) ∧ (r = .reduce → ∃ start, c.args = [start])) ∨
      ∃ n, e.routine = .number .times ∧ c.receiver = .int n ∧ e.owner = .int := by
  obtain ⟨haccepts, hcount, -, -⟩ := Signature.mismatch_eq_none.mp hfits
  obtain ⟨r, -, hr, howner, hreceiver, hsort, hreduce⟩ | ⟨hr, howner, hreceiver⟩ :=
    Routine.iterators_shape e he
  · rw [hreceiver] at haccepts
    cases hc : c.receiver <;> rw [hc] at haccepts <;> try cases haccepts
    rename_i l
    refine .inl ⟨r, l, hr, rfl, howner, fun h ↦ ?_, fun h ↦ ?_⟩
    · obtain ⟨hparams, hrest⟩ := hsort h
      simpa [Signature.countFits, hparams, hrest] using hcount
    · obtain ⟨hparams, hrest⟩ := hreduce h
      refine List.length_eq_one_iff.mp ?_
      simpa [Signature.countFits, hparams, hrest] using hcount
  · rw [hreceiver] at haccepts
    cases hc : c.receiver <;> rw [hc] at haccepts <;> try cases haccepts
    rename_i n
    exact .inr ⟨n, hr, rfl, howner⟩

theorem iterators_callsFor (he : e ∈ Routine.iterators)
    (hfits : e.signature.mismatch s.types.sort c.receiver c.args c.block.isSome = none)
    (hfinds : s.types.FindsInstalled e.name [e.owner])
    (hroom : s.frames.size < s.config.maxCallDepth) :
    (Task.send e.name c).CallsFor (e.routine.run c) s := by
  obtain ⟨before, -, after, -, hoffered, hcounts⟩ := Routine.iterators_offered e he
  have htype : s.typeOf c.receiver = e.owner.id ∧ c.receiver.type? = none := by
    obtain ⟨r, l, -, hc, howner, -, -⟩ | ⟨n, -, hc, howner⟩ := iterators_receiver he hfits
    · rw [hc, howner]
      exact ⟨rfl, rfl⟩
    · rw [hc, howner]
      exact ⟨rfl, rfl⟩
  refine Task.CallsFor.first (hfinds.offersFirst (List.mem_singleton_self _) hoffered) htype.1
    htype.2 (fun p hp hnone ↦ ?_) hfits hroom
  -- The number of arguments that the one takes is not that of the other.
  obtain ⟨hrest, hrest', hlength⟩ := hcounts p hp
  have hcount := (Signature.mismatch_eq_none.mp hnone).2.1
  have hcount' := (Signature.mismatch_eq_none.mp hfits).2.1
  rw [Signature.countFits, hrest, beq_iff_eq] at hcount
  rw [Signature.countFits, hrest', beq_iff_eq] at hcount'
  exact hlength (hcount.symm.trans hcount')

end

/-- For a body around it the task raises `r` as if that was raised in its place, where the task has
led to the state `s₁`. -/
def Task.RaisesHere (t : Task) (s : State) (r : Raised) (s₁ : State) : Prop :=
  t.Gives s (.error (.raise r)) s₁ ∧ ∀ literal body ctx o s',
    (attempt (catchingBreak literal (perform t)) >>= afterStatements body ctx).Gives s o s' ↔
      (attempt (unwind (.raise r)) >>= afterStatements body ctx).Gives s₁ o s'

theorem gives_bind_iff {α β : Type} {x : Eval α} {f : α → Eval β} {s s₁ s' : State} {a : α}
    {o : Outcome β} (hx : x.Gives s (.ok a) s₁) :
    (x >>= f).Gives s o s' ↔ (f a).Gives s₁ o s' := by
  refine ⟨?_, hx.bind⟩
  rintro ⟨es, h⟩
  obtain ⟨es', hx⟩ := hx
  rw [bind_apply] at h
  obtain ⟨u, -, hu⟩ | ⟨a', es₁, es₂, s₂, -, ha, hf⟩ := h.bind
  · cases (hx.unique hu).2.1
  · obtain ⟨-, ho, rfl⟩ := hx.unique ha
    cases ho
    exact ⟨es₂, hf⟩

theorem Task.raisesHere {t : Task} {s s₁ : State} {r : Raised}
    (h : t.Gives s (.error (.raise r)) s₁) : t.RaisesHere s r s₁ := by
  refine ⟨h, fun literal body ctx o s' ↦ ?_⟩
  have hcaught : (catchingBreak literal (perform t)).Gives s (.error (.raise r)) s₁ :=
    .bind (.attempt (.perform h)) (.ofOutcome _ _)
  rw [gives_bind_iff hcaught.attempt, gives_bind_iff (Gives.unwind _ s₁).attempt]

theorem Along.asBefore_last {s s' : State} {es : List Episode} {last : Episode}
    (h : Along State.AsBefore s (es ++ [last]) s') : last.after.AsBefore s' := by
  induction es generalizing s with
  | nil => exact h.2
  | cons e es ih => exact ih h.2

/-- A method that calls a block again and again does nothing else, and lets pass what unwinds. Each
method of lists but sorting is one visit: the block is called for the elements of the list in their
order, as they then are, from the first one on, or from the second one if the first is the start of
`reduce`. The method of numbers calls it with the numbers from zero on. What the block raises is
raised where the message is sent, as far as a body around it is concerned. -/
theorem iterators_let_pass {e : Routine.Entry} (he : e ∈ Routine.iterators) {c : Call} {b : Value}
    (hb : c.block = some b) {s : State}
    (hfits : e.signature.mismatch s.types.sort c.receiver c.args true = none) :
    let x := e.routine.run c
    x.OnlyCalls b c.span s ∧
    (∀ l r, c.receiver = .list l → e.routine = .list r → r ≠ .sort →
      (∃ v i resume, r.Visits c (s.items l)[0]? v i ∧
        x s = .wait (.visit v l (some b) c.span i)
          { s with held := ⟨c.values, none⟩ :: s.held } resume ∧
        (∀ es o s', x.Iterates s es o s' → v.Orderly l b c.span i es ∧ ∀ a, o = .ok a →
          (∃ s₁, Along State.AsBefore s es s₁ ∧ (s₁.items l)[i + es.length]? = none) ∨
            ∃ last w, es.getLast? = some last ∧ last.outcome = .ok w ∧ v.stops w = true) ∧
        ∀ es t y, Task.Comes (.visit v l (some b) c.span i)
          ((Task.visit v l (some b) c.span i).work
            { s with held := ⟨c.values, none⟩ :: s.held }) es t y → v.Orderly l b c.span i es) ∨
      r = .reduceFirst ∧ (s.items l)[0]? = none ∧ x s = .done (.ok .nil) s) ∧
    (∀ n, c.receiver = .int n → ∀ es o s', x.Iterates s es o s' →
      CallsUpward b c.span 0 es ∧ es.length ≤ n.toInt.toNat ∧
        ∀ a, o = .ok a → es.length = n.toInt.toNat) ∧
    (s.types.FindsInstalled e.name [e.owner] → s.frames.size < s.config.maxCallDepth →
      ∃ held frame, (∀ o s', x.Gives { s with held, frames := s.frames.push frame } o s' →
          (Task.send e.name c).Gives s o { s' with frames := s'.frames.pop, held := s.held }) ∧
        ∀ es last r s', x.Iterates { s with held, frames := s.frames.push frame } (es ++ [last])
            (.error (.raise r)) s' →
          (Task.send e.name c).RaisesHere s r
            { last.after with frames := last.after.frames.pop, held := s.held }) := by
  intro x
  have hiterates : e.routine.iterates = true := (List.mem_filter.mp he).2
  have honly (s' : State) : x.OnlyCalls b c.span s' := by
    obtain ⟨r, l, hr, hc, -, hargs, -⟩ | ⟨n, hr, hc, -⟩ := iterators_receiver he hfits
    · rw [hr] at hiterates
      simp only [x, hr]
      exact list_onlyCalls hiterates hc hb hargs
    · simp only [x, hr]
      exact times_onlyCalls hc hb
  refine ⟨honly s, fun l r hc hr hsort ↦ ?_, fun n hc es o s' h ↦ ?_, fun hfinds hroom ↦ ?_⟩
  · have hreduce : r = .reduce → ∃ start, c.args = [start] := by
      obtain ⟨r', _, hr', -, -, -, hone⟩ | ⟨n, hr', -⟩ := iterators_receiver he hfits
      · cases hr.symm.trans hr'
        exact hone
      · cases hr.symm.trans hr'
    rw [hr] at hiterates
    obtain ⟨v, i, hvisits, hv⟩ | ⟨rfl, hnone⟩ :=
      ListRoutine.exists_visits hiterates hsort hreduce hb (s.items l)[0]?
    · have hx : x s = .wait (.visit v l (some b) c.span i)
          { s with held := ⟨c.values, none⟩ :: s.held }
          fun o s₁ ↦ .done o { s₁ with held := s.held } := by
        simp only [x, hr]
        exact ListRoutine.run_blockVisit hc hb hv
      refine .inl ⟨v, i, _, hvisits, hx, fun es o s' h ↦ ?_, fun es t y ↦ Visit.orderly_of_comes⟩
      obtain ⟨o₁, s₁, hcourse, rfl, -⟩ := (iterates_iff (g := id) hx rfl).mp h
      obtain ⟨t, hcomes⟩ := hcourse
      refine ⟨Visit.orderly_of_comes hcomes, fun a ha ↦ ?_⟩
      cases ha
      have hends := BlockLoop.ends (L := visiting l b c.span) (p := (v, i)) ⟨t, hcomes⟩
      refine (Visit.over_of_ends hends).imp_left ?_
      rintro ⟨s₂, halong, hnone⟩
      exact ⟨s₂, .of_earlier ⟨_, rfl⟩ halong, hnone⟩
    · refine .inr ⟨rfl, hnone, ?_⟩
      simp only [x, hr]
      exact reduceFirst_of_empty hc hb hnone
  · obtain ⟨r, l, -, hc', -⟩ | ⟨n', hr, hc', -⟩ := iterators_receiver he hfits
    · cases hc.symm.trans hc'
    · simp only [x, hr] at h
      obtain ⟨o₁, s₁, hcourse, rfl, -⟩ := (iterates_iff (times_run hc hb) rfl).mp h
      have hends := BlockLoop.ends (L := counting b c.span) (p := (n.toInt.toNat, 0)) hcourse
      obtain ⟨hcalls, hle, hall⟩ := counts_ends hends
      refine ⟨hcalls, hle, fun a ha ↦ ?_⟩
      cases o₁ with
      | ok v => exact hall v rfl
      | error u => cases ha
  · obtain ⟨held, frame, hsend⟩ := iterators_callsFor he (by rw [hb]; exact hfits) hfinds hroom
    refine ⟨held, frame, hsend, fun es last r s' h ↦ ?_⟩
    obtain ⟨s₁, halong, -, hleft⟩ := (honly _).between _ _ _ h
    obtain ⟨held', rfl⟩ := State.Lax.trans halong.asBefore_last (hleft _ rfl)
    have hsent := hsend _ _ (((honly _).gives _ _).mpr ⟨_, h⟩)
    exact Task.raisesHere hsent

/-- The message `each` to a list of two elements. -/
theorem iterators_let_pass_each :
    let s : State := { State.initial .standard with lists := #[#[.int 7, .int 8]] }
    let c : Call := ⟨.list ⟨0⟩, [], some (.lambda ⟨0⟩), .origin⟩
    (ListRoutine.each.run c).OnlyCalls (.lambda ⟨0⟩) .origin s ∧
      (∀ es o s', (ListRoutine.each.run c).Iterates s es o s' →
        Visit.each.Orderly ⟨0⟩ (.lambda ⟨0⟩) .origin 0 es ∧ ∀ a, o = .ok a →
          ∃ s₁, Along State.AsBefore s es s₁ ∧ (s₁.items ⟨0⟩)[es.length]? = none) ∧
      ∃ held frame, ∀ es last r s',
        (ListRoutine.each.run c).Iterates { s with held, frames := s.frames.push frame }
            (es ++ [last]) (.error (.raise r)) s' →
          (Task.send "each" c).RaisesHere s r
            { last.after with frames := last.after.frames.pop, held := s.held } := by
  intro s c
  let e : Routine.Entry :=
    Routine.withBlock (Routine.fixed .list .list "each" [] (.list .each)) .required
  have he : e ∈ Routine.iterators := by decide +kernel
  obtain ⟨honly, hvisits, -, hraises⟩ := iterators_let_pass he (c := c) rfl (s := s) rfl
  obtain ⟨held, frame, -, hraises⟩ := hraises (fun _ _ ↦ rfl) (by decide)
  refine ⟨honly, fun es o s' h ↦ ?_, held, frame, hraises⟩
  obtain ⟨v, i, _, heach, -, horder, -⟩ | ⟨hreduce, -⟩ := hvisits ⟨0⟩ .each rfl rfl nofun
  · cases heach
    obtain ⟨horderly, hends⟩ := horder es o s' h
    refine ⟨horderly, fun a ha ↦ ?_⟩
    obtain ⟨s₁, halong, hnone⟩ | ⟨_, _, -, -, hstops⟩ := hends a ha
    · rw [Nat.zero_add] at hnone
      exact ⟨s₁, halong, hnone⟩
    · cases hstops
  · cases hreduce

end Quill
