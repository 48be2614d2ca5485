import Quill.Proofs.Asking
import Quill.Proofs.Course

/-!
# What work changes itself

Between the tasks that it waits for, work that looks at values and matches them changes next to
nothing, and work that tries the clauses of a method only makes new things.
-/

namespace Quill

namespace State

/-- One that changes of contents and writing respect, too, as built-in methods do. -/
class Plain (R : State → State → Prop) : Prop extends Making R where
  modifyList (s : State) (l : ListId) (f : Array Value → Array Value) : R s (s.modifyList l f)
  setObjectAttr (s : State) (o : ObjectId) (name : String) (v : Value) :
    R s (s.setObjectAttr o name v)
  write (s : State) (text : String) : R s (s.write text)

theorem ContentChange.plain {α : Type} {f : State → α × State} {R : State → State → Prop}
    [Plain R] (h : ContentChange f) (s : State) : R s (f s).2 := by
  cases h with
  | newList _ => exact Making.newList s _
  | newObject t attrs => exact Raising.newObject s t attrs
  | modifyList l f => exact Plain.modifyList s l f
  | setObjectAttr o name v => exact Plain.setObjectAttr s o name v
  | write text => exact Plain.write s text

end State

/-- Between the tasks the state changes as `R` says. -/
def Along (R : State → State → Prop) : State → List Episode → State → Prop
  | s, [], s' => R s s'
  | s, e :: es, s' => R s e.before ∧ Along R e.after es s'

theorem Along.through {R : State → State → Prop} [State.Lax R] {s s' : State} {es : List Episode}
    (h : Along R s es s') (he : ∀ e ∈ es, R e.before e.after) : R s s' := by
  induction es generalizing s with
  | nil => exact h
  | cons e es ih =>
    obtain ⟨hfirst, hrest⟩ := List.forall_mem_cons.mp he
    exact State.Lax.trans h.1 (State.Lax.trans hfirst (ih h.2 hrest))

theorem Step.Asks.along {α : Type} {A : Task → Prop} {R : State → State → Prop} {s s' : State}
    {x : Step α} {es : List Episode} {o : Outcome α} (hx : x.Asks A R s) (h : x.Course es o s') :
    Along R s es s' ∧ ∀ e ∈ es, A e.task := by
  induction h generalizing s with
  | done => exact ⟨hx, List.forall_mem_nil _⟩
  | wait _ _ ih =>
    obtain ⟨halong, htasks⟩ := ih (hx.2.2 _ _)
    exact ⟨⟨hx.1, halong⟩, List.forall_mem_cons.mpr ⟨hx.2.1, htasks⟩⟩

theorem Eval.Simple.asks {α : Type} {A : Task → Prop} {R : State → State → Prop} [State.Plain R]
    {x : Eval α} (hx : Simple x) (hA : ∀ t, t.fits .closed = true → A t) : Asks A R x := by
  induction hx with
  | pure a => exact .pure a
  | bind _ _ ihx ihf => exact .bind ihx ihf
  | read => exact .read _
  | change hf => exact .change hf.plain
  | raising r => exact .unwind _
  | perform ht => exact .perform (hA _ ht)
  | keeping h _ ih => exact .keeping h ih

namespace Types

/-- The types are the same, but some may have forgotten what they were defined in. -/
def Forgets (ts ts' : Types) : Prop :=
  ∀ t, (ts'.get? t).map (fun i ↦ { i with parent := none }) =
    (ts.get? t).map fun i ↦ { i with parent := none }

namespace Forgets

variable {ts ts' ts'' : Types}

theorem refl (ts : Types) : ts.Forgets ts := fun _ ↦ rfl

theorem trans (h : ts.Forgets ts') (h' : ts'.Forgets ts'') : ts.Forgets ts'' :=
  fun t ↦ (h' t).trans (h t)

theorem modify (ts : Types) (t : TypeId) :
    ts.Forgets (ts.modify t fun i ↦ { i with parent := none }) := by
  intro u
  simp only [Types.get?, Types.modify, Array.getElem?_modify]
  split
  · simp [Function.comp_def]
  · rfl

end Forgets

end Types

namespace State

/-- Nothing is different but that types may have forgotten what they were defined in, and that there
may be new objects. -/
structure Looks (s s' : State) : Prop where
  config : s'.config = s.config
  scopes : s'.scopes = s.scopes
  lists : s'.lists = s.lists
  lambdas : s'.lambdas = s.lambdas
  frames : s'.frames = s.frames
  rescuing : s'.rescuing = s.rescuing
  steps : s'.steps = s.steps
  output : s'.output = s.output
  types : s.types.Forgets s'.types
  objects : ∃ new, s'.objects = s.objects ++ new

theorem Looks.refl (s : State) : s.Looks s :=
  ⟨rfl, rfl, rfl, rfl, rfl, rfl, rfl, rfl, .refl _, #[], by simp⟩

theorem looks_letGoAround (s : State) (name : String) (t : TypeId) :
    s.Looks (s.letGoAround name t) := by
  obtain h | ⟨u, h⟩ := s.letGoAround_cases name t
  · rw [h]
    exact .refl s
  · rw [h]
    exact ⟨rfl, rfl, rfl, rfl, rfl, rfl, rfl, rfl, .modify s.types u, #[], by simp⟩

instance : Looking Looks where
  refl := .refl
  trans h h' := by
    obtain ⟨new, hnew⟩ := h.objects
    obtain ⟨new', hnew'⟩ := h'.objects
    exact ⟨h'.config.trans h.config, h'.scopes.trans h.scopes, h'.lists.trans h.lists,
      h'.lambdas.trans h.lambdas, h'.frames.trans h.frames, h'.rescuing.trans h.rescuing,
      h'.steps.trans h.steps, h'.output.trans h.output, h.types.trans h'.types,
      new ++ new', by rw [hnew', hnew, Array.append_assoc]⟩
  held s _ := { Looks.refl s with }
  newObject s t attrs := { Looks.refl s with objects := ⟨#[⟨t, attrs⟩], Array.push_eq_append⟩ }
  letGo := looks_letGoAround

/-- Variables apart, nothing is different but that types may have forgotten what they were defined
in, and that there may be new lists, lambdas and objects. -/
structure Adds (s s' : State) : Prop where
  config : s'.config = s.config
  frames : s'.frames = s.frames
  rescuing : s'.rescuing = s.rescuing
  output : s'.output = s.output
  types : s.types.Forgets s'.types
  lists : ∃ new, s'.lists = s.lists ++ new
  lambdas : ∃ new, s'.lambdas = s.lambdas ++ new
  objects : ∃ new, s'.objects = s.objects ++ new

theorem Adds.refl (s : State) : s.Adds s :=
  ⟨rfl, rfl, rfl, rfl, .refl _, ⟨#[], by simp⟩, ⟨#[], by simp⟩, ⟨#[], by simp⟩⟩

theorem Adds.trans {s s' s'' : State} (h : s.Adds s') (h' : s'.Adds s'') : s.Adds s'' := by
  have append {α : Type} {a b c : Array α} (h : ∃ new, b = a ++ new) (h' : ∃ new, c = b ++ new) :
      ∃ new, c = a ++ new := by
    obtain ⟨new, rfl⟩ := h
    obtain ⟨new', rfl⟩ := h'
    exact ⟨new ++ new', Array.append_assoc⟩
  exact ⟨h'.config.trans h.config, h'.frames.trans h.frames, h'.rescuing.trans h.rescuing,
    h'.output.trans h.output, h.types.trans h'.types, append h.lists h'.lists,
    append h.lambdas h'.lambdas, append h.objects h'.objects⟩

theorem Looks.adds {s s' : State} (h : s.Looks s') : s.Adds s' :=
  ⟨h.config, h.frames, h.rescuing, h.output, h.types, ⟨#[], by simp [h.lists]⟩,
    ⟨#[], by simp [h.lambdas]⟩, h.objects⟩

instance : Gentle Adds where
  refl := .refl
  trans := .trans
  held s held := (Lax.held s held : Looks s _).adds
  newObject s t attrs := (Raising.newObject s t attrs : Looks s _).adds
  letGo s name t := (looks_letGoAround s name t).adds
  newList s items := { Adds.refl s with lists := ⟨#[items], Array.push_eq_append⟩ }
  newScope s _ := { Adds.refl s with }
  define s _ _ _ := { Adds.refl s with }
  assign s _ _ _ := { Adds.refl s with }

end State

end Quill
