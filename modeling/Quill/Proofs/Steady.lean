import Quill.Proofs.Evaluation

/-!
# Comparisons with fixed answers

A comparison may send messages and call blocks. Where it has no effect that matters and always the
same answer, so does work that does nothing but compare.
-/

namespace Quill

namespace Eval

variable {α β : Type} {I : State → Prop}

/-- Wherever `I` holds, the work has this value, and `I` still holds then. -/
def Settles (I : State → Prop) (x : Eval α) (a : α) : Prop :=
  ∀ s, I s → ∃ s', x.Gives s (.ok a) s' ∧ I s'

namespace Settles

theorem pure (a : α) : (Pure.pure a : Eval α).Settles I a := fun s hs ↦ ⟨s, .pure a s, hs⟩

theorem bind {x : Eval α} {f : α → Eval β} {a : α} {b : β} (hx : x.Settles I a)
    (hf : (f a).Settles I b) : (x >>= f).Settles I b := by
  intro s hs
  obtain ⟨s₁, hgives, hs₁⟩ := hx s hs
  obtain ⟨s', hgives', hs'⟩ := hf s₁ hs₁
  exact ⟨s', hgives.bind hgives', hs'⟩

theorem holding (hI : ∀ s held, I s → I { s with held }) (values : List Value) {x : Eval α} {a : α}
    (hx : x.Settles I a) : (holding values x).Settles I a := by
  intro s hs
  obtain ⟨s', hgives, hs'⟩ := hx _ (hI s _ hs)
  exact ⟨_, hgives.keeping, hI s' _ hs'⟩

end Settles

/-- Wherever `I` holds, each two of the values compare as `r` says, and `I` still holds then. It
does not depend on what is held. -/
structure Steady (I : State → Prop) (compare : Value → Value → Eval Bool) (vs : List Value)
    (r : Value → Value → Bool) : Prop where
  held : ∀ s held, I s → I { s with held }
  settles : ∀ a ∈ vs, ∀ b ∈ vs, (compare a b).Settles I (r a b)

namespace Steady

variable {compare : Value → Value → Eval Bool} {vs vs' : List Value} {r r' : Value → Value → Bool}

theorem holding (h : Steady I compare vs r) (values : List Value) {x : Eval α} {a : α}
    (hx : x.Settles I a) : (holding values x).Settles I a := hx.holding h.held values

theorem congr (h : Steady I compare vs r) (hr : ∀ a ∈ vs, ∀ b ∈ vs, r a b = r' a b) :
    Steady I compare vs r' :=
  ⟨h.held, fun a ha b hb ↦ hr a ha b hb ▸ h.settles a ha b hb⟩

end Steady

end Eval

end Quill
