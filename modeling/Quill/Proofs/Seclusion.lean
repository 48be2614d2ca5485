import Quill.Proofs.Regime.Run

/-!
# Scopes that no code can come to

Code comes to a scope from the place where it runs, from the home of a lambda, and from a scope
inward of it. A scope to which none of these ways lead is left as it is by all that is done. With no
scope hidden at all this says that code runs only in scopes that have been made. Main statements:
`Regime.hiding` and `states_housed`.
-/

namespace Quill

/-- One of the first `n` scopes, and not a hidden one. -/
def ScopeId.Open (hidden : ScopeId → Prop) (n : Nat) (id : ScopeId) : Prop :=
  id.index < n ∧ ¬ hidden id

theorem ScopeId.Open.mono {hidden : ScopeId → Prop} {n k : Nat} {id : ScopeId}
    (h : id.Open hidden n) (hk : n ≤ k) : id.Open hidden k := ⟨Nat.lt_of_lt_of_le h.1 hk, h.2⟩

namespace State

variable {hidden : ScopeId → Prop} {s s' s'' : State}

/-- No lambda is at home in a hidden scope, and no scope is inside of one. All these scopes have
been made. -/
structure Hides (hidden : ScopeId → Prop) (s : State) : Prop where
  root : Scopes.root.Open hidden s.scopes.all.size
  made : ∀ id, hidden id → id.index < s.scopes.all.size
  homes : ∀ (i : Nat) (l : Lambda), s.lambdas[i]? = some l →
    l.home.scope.Open hidden s.scopes.all.size
  parents : ∀ (i : Nat) (scope : Scope Value) (outer : ScopeId), s.scopes.all[i]? = some scope →
    scope.parent = some outer → outer.Open hidden s.scopes.all.size

/-- The hidden scopes are as they were, and stay hidden. -/
structure Spares (hidden : ScopeId → Prop) (s s' : State) : Prop where
  hides : s'.Hides hidden
  size : s.scopes.all.size ≤ s'.scopes.all.size
  same : ∀ id, hidden id → s'.scopes.all[id.index]? = s.scopes.all[id.index]?

namespace Spares

theorem refl (h : s.Hides hidden) : s.Spares hidden s := ⟨h, Nat.le_refl _, fun _ _ ↦ rfl⟩

theorem trans (h : s.Spares hidden s') (h' : s'.Spares hidden s'') : s.Spares hidden s'' :=
  ⟨h'.hides, Nat.le_trans h.size h'.size, fun id hid ↦ (h'.same id hid).trans (h.same id hid)⟩

theorem of_same (h : s.Hides hidden) (hs : s'.scopes = s.scopes) (hl : s'.lambdas = s.lambdas) :
    s.Spares hidden s' := by
  refine ⟨⟨?_, ?_, ?_, ?_⟩, ?_, ?_⟩
  · rw [hs]
    exact h.root
  · rw [hs]
    exact h.made
  · rw [hs, hl]
    exact h.homes
  · rw [hs]
    exact h.parents
  · exact hs ▸ Nat.le_refl _
  · exact fun _ _ ↦ by rw [hs]

end Spares

namespace Hides

variable {id : ScopeId} {name : String}

theorem parent_open (h : s.Hides hidden) {outer : ScopeId} (ho : s.scopes.parent id = some outer) :
    outer.Open hidden s.scopes.all.size := by
  unfold Scopes.parent at ho
  split at ho
  · rename_i scope hscope
    exact h.parents _ scope outer hscope ho
  · cases ho

theorem owner_open (h : s.Hides hidden) (hid : id.Open hidden s.scopes.all.size)
    {there : ScopeId} (ht : s.scopes.owner id name = some there) :
    there.Open hidden s.scopes.all.size := by
  unfold Scopes.owner at ht
  generalize id.index + 1 = n at ht
  induction n generalizing id with
  | zero => cases ht
  | succ n ih =>
    unfold Scopes.ownerWithin at ht
    split at ht
    · cases ht
      exact hid
    · split at ht
      · rename_i outer houter
        exact ih (h.parent_open houter) ht
      · cases ht

theorem define_any (h : s.Hides hidden) (id : ScopeId) (name : String) (v : Value) :
    (s.define id name v).Hides hidden := by
  have hsize : (s.define id name v).scopes.all.size = s.scopes.all.size := Array.size_modify
  refine ⟨hsize ▸ h.root, hsize ▸ h.made, hsize ▸ h.homes, fun i scope outer hi ho ↦ ?_⟩
  rw [hsize]
  simp only [State.define, Scopes.define, Array.getElem?_modify] at hi
  split at hi
  · obtain ⟨old, hold, rfl⟩ := Option.map_eq_some_iff.mp hi
    exact h.parents i old outer hold ho
  · exact h.parents i scope outer hi ho

theorem define (h : s.Hides hidden) (hid : id.Open hidden s.scopes.all.size) (v : Value) :
    s.Spares hidden (s.define id name v) := by
  have hsize : (s.define id name v).scopes.all.size = s.scopes.all.size := Array.size_modify
  refine ⟨h.define_any id name v, hsize ▸ Nat.le_refl _, fun other hother ↦ ?_⟩
  have hne : id.index ≠ other.index := by
    intro heq
    obtain rfl : id = other := by
      cases id
      cases other
      exact congrArg ScopeId.mk heq
    exact hid.2 hother
  simp only [State.define, Scopes.define, Array.getElem?_modify, if_neg hne]

theorem assign (h : s.Hides hidden) (hid : id.Open hidden s.scopes.all.size) (v : Value) :
    s.Spares hidden (s.assign id name v) := by
  refine h.define ?_ v
  cases ho : s.scopes.owner id name with
  | some there => exact h.owner_open hid ho
  | none => exact hid

theorem newScope (h : s.Hides hidden) (hid : id.Open hidden s.scopes.all.size) :
    s.Spares hidden (s.newScope id).2 := by
  have hsize : (s.newScope id).2.scopes.all.size = s.scopes.all.size + 1 := Array.size_push _
  have hle : s.scopes.all.size ≤ (s.newScope id).2.scopes.all.size := by omega
  refine ⟨⟨h.root.mono hle, fun other ho ↦ ?_, fun i l hl ↦ (h.homes i l hl).mono hle, ?_⟩,
    hle, ?_⟩
  · exact Nat.lt_of_lt_of_le (h.made other ho) hle
  · intro i scope outer hi ho
    simp only [State.newScope, Scopes.child, Array.getElem?_push] at hi
    split at hi
    · cases hi
      cases ho
      exact hid.mono hle
    · exact (h.parents i scope outer hi ho).mono hle
  · intro other hother
    have hlt := h.made other hother
    simp only [State.newScope, Scopes.child, Array.getElem?_push, if_neg (Nat.ne_of_lt hlt)]

theorem fresh_open (h : s.Hides hidden) :
    s.scopes.fresh.Open hidden (s.scopes.all.size + 1) :=
  ⟨Nat.lt_succ_self _, fun hf ↦ Nat.lt_irrefl _ (h.made _ hf)⟩

theorem newLambda (h : s.Hides hidden) {l : Lambda}
    (hl : l.home.scope.Open hidden s.scopes.all.size) :
    s.Spares hidden (s.newLambda l).2 := by
  refine ⟨⟨h.root, h.made, ?_, h.parents⟩, Nat.le_refl _, fun _ _ ↦ rfl⟩
  intro i found hi
  simp only [State.newLambda, Array.getElem?_push] at hi
  split at hi
  · cases hi
    exact hl
  · exact h.homes i found hi

end Hides

end State

/-- Leaving hidden scopes as they are, code runs in the others only. -/
def Regime.hiding (hidden : ScopeId → Prop) : Regime where
  Fit s := s.Hides hidden
  Becomes s s' := s.Spares hidden s'
  Allows _ := True
  Around _ _ := True
  Open s id := id.Open hidden s.scopes.all.size
  Own s id := id.Open hidden s.scopes.all.size
  Near s id := id.Open hidden s.scopes.all.size
  refl := .refl
  trans := .trans
  fit h := h.hides
  child _ _ := trivial
  around_mono _ _ := trivial
  open_mono h hid := hid.mono h.size
  own_mono h hid := hid.mono h.size
  near_mono h hid := hid.mono h.size
  open_of_own := id
  near_of_open := id
  same h _ := .of_same h
  define _ v h hid := h.define hid v
  assign _ v h hid := h.assign hid v
  newScope h hid := h.newScope hid
  fresh h := by
    refine h.fresh_open.mono (Nat.le_of_eq ?_)
    exact (Array.size_push _).symm
  root h := h.root
  newLambda h hl _ _ := h.newLambda hl
  lambda h hl := ⟨⟨h.homes _ _ hl, trivial⟩, trivial⟩
  retype h _ := .of_same h rfl rfl
  declared _ _ _ _ _ := trivial
  opened _ _ := trivial
  method _ _ := ⟨trivial, fun _ _ ↦ trivial⟩

namespace State

/-- No lambda is at home in a scope that was not made, no scope is inside of one, and there is a
scope for the programs at top level. -/
structure Housed (s : State) : Prop extends s.Hides fun _ ↦ False where
  main : mainScope.index < s.scopes.all.size

theorem Housed.of_spares {s s' : State} (h : s.Housed) (hs : s.Spares (fun _ ↦ False) s') :
    s'.Housed := ⟨hs.hides, Nat.lt_of_lt_of_le h.main hs.size⟩

theorem housed_initial (config : Config) : (initial config).Housed where
  root := ⟨by simp [initial, Scopes.initial, Scopes.child, Scopes.root], nofun⟩
  made := nofun
  homes _ _ h := by simp [initial] at h
  parents i scope outer hi ho := by
    refine ⟨?_, nofun⟩
    match i with
    | 0 =>
      cases hi
      cases ho
    | 1 =>
      cases hi
      cases ho
      simp [initial, Scopes.initial, Scopes.child, Scopes.root]
    | i + 2 => simp [initial, Scopes.initial, Scopes.child] at hi
  main := by simp [initial, mainScope, Scopes.initial, Scopes.child]

end State

theorem State.Housed.top_open {s : State} (h : s.Housed) (p : Program) :
    (Task.statements p.body State.topContext).Open (.hiding fun _ ↦ False) s :=
  ⟨⟨⟨h.main, nofun⟩, trivial⟩, fun _ _ ↦ trivial⟩

/-- Whatever programs were run, and whatever messages were sent and blocks called by the host
between them, code runs only in scopes that have been made. -/
theorem states_housed :
    (∀ config, (State.initial config).Housed) ∧
    (∀ (i i' : Interpreter) p fuel r, i.state.Housed → i.run p fuel = some (r, i') →
      i'.state.Housed) ∧
    (∀ (i i' : Interpreter) t fuel o, i.state.Housed → t.kind ≠ .code →
      i.perform (Eval.perform t) fuel = some (o, i') → i'.state.Housed) ∧
    (∀ (i : Interpreter) p m, i.state.Housed → (i.machine p).Reaches m → m.work.state.Housed) ∧
    ∀ (s : State) (t : Task) (m : Machine), s.Housed → t.kind ≠ .code →
      (Machine.start t s).Reaches m → m.work.state.Housed := by
  refine ⟨State.housed_initial, ?_, ?_, ?_, ?_⟩
  · intro i i' p fuel r hi h
    exact hi.of_spares (Interpreter.run_becomes hi.toHides (hi.top_open p) h)
  · intro i i' t fuel o hi ht h
    have observes : (Eval.perform t).Observes (.hiding fun _ ↦ False) i.state (fun _ ↦ True) :=
      .perform (Task.open_of_kind _ _ ht)
    exact hi.of_spares (Interpreter.perform_becomes hi.toHides observes h)
  · intro i p m hi h
    exact hi.of_spares (Interpreter.machine_becomes hi.toHides (hi.top_open p) h)
  · intro s t m hs ht h
    have hopen := Task.open_of_kind (.hiding fun _ ↦ False) s ht
    exact hs.of_spares (h.becomes hs.toHides hopen)

end Quill
