import Quill.Proofs.Grammar.Laying
import Quill.Proofs.Grammar.Readers

/-!
# Places among the tokens

A cursor that could go on behind the end of the file never does. It has a place in the list of all
tokens, and what it sees is what stands there. Main statements: `Cursor.At.advances`,
`program_closed`.
-/

namespace Quill.Grammar

open Parse

/-- All tokens. The last one is an end of the file, which is put there if it is missing. -/
def closed (all : List Cell) : List Cell :=
  match all.getLast? with
  | none => [⟨.eof, .origin, none⟩]
  | some t => if t.kind == .eof then all else all ++ [⟨.eof, t.span, none⟩]

namespace Cursor

variable {all : List Cell} {i : Nat} {c c' : Cursor}

/-- The cursor stands before the token at the place `i`. Of what is looked at further ahead, there
may be nothing any more. -/
structure At (all : List Cell) (i : Nat) (c : Cursor) : Prop where
  rest : c.rest = all.drop i
  here : ∃ t, all[i]? = some t ∧ c.kind = t.kind ∧ c.span = t.span ∧ c.doc = t.doc
  second : c.second = all[i + 1]?.elim .eof (·.kind)
  third : c.third = all[i + 2]?.elim .eof (·.kind)
  previous : c.previous = (all.take i).getLast?.elim .origin (·.span)

theorem At.of_lt (hi : i < all.length) (hrest : c.rest = all.drop i)
    (hprevious : c.previous = (all.take i).getLast?.elim .origin (·.span)) : c.At all i := by
  obtain ⟨rest, previous, stop, limit⟩ := c
  cases hrest
  have hsecond : (all.drop i)[1]? = all[i + 1]? := List.getElem?_drop
  have hthird : (all.drop i)[2]? = all[i + 2]? := List.getElem?_drop
  refine ⟨rfl, ⟨all[i], List.getElem?_eq_getElem hi, ?_, ?_, ?_⟩, ?_, ?_, hprevious⟩
  · rw [kind, List.drop_eq_getElem_cons hi]
  · rw [span, List.drop_eq_getElem_cons hi]
  · rw [doc, List.drop_eq_getElem_cons hi]
  · rw [← hsecond]
    unfold Cursor.second
    obtain _ | ⟨_, _ | ⟨_, _⟩⟩ := all.drop i <;> rfl
  · rw [← hthird]
    unfold Cursor.third
    obtain _ | ⟨_, _ | ⟨_, _ | ⟨_, _⟩⟩⟩ := all.drop i <;> rfl

theorem At.lt (h : c.At all i) : i < all.length := by
  obtain ⟨t, ht, -⟩ := h.here
  exact (List.getElem?_eq_some_iff.mp ht).1

theorem At.next (hall : ∃ front t, all = front ++ [t] ∧ t.kind = .eof) (h : c.At all i)
    (hk : c.kind ≠ .eof) : c.next.At all (i + 1) := by
  obtain ⟨t, ht, hkind, -⟩ := h.here
  obtain ⟨u, us, hrest, hnext, -, -, -, hprevious, -⟩ := unread_next hk
  obtain ⟨front, last, rfl, hlast⟩ := hall
  have hlt : i < front.length := by
    refine Nat.lt_of_le_of_ne (Nat.le_of_lt_succ (by simpa using h.lt)) fun heq ↦ hk ?_
    subst heq
    rw [List.getElem?_concat_length] at ht
    rw [hkind, ← Option.some.inj ht, hlast]
  rw [h.rest, List.drop_eq_getElem_cons h.lt] at hrest
  obtain ⟨rfl, rfl⟩ := List.cons.inj hrest
  refine .of_lt (by simpa using Nat.succ_lt_succ hlt) hnext ?_
  rw [hprevious, List.take_add_one, List.getElem?_eq_getElem h.lt, Option.toList_some,
    List.getLast?_concat]
  rfl

theorem At.advances (hall : ∃ front t, all = front ++ [t] ∧ t.kind = .eof) (h : c.At all i)
    (hc : c.Advances c') :
    ∃ j, i ≤ j ∧ c'.At all j ∧ ∀ k t, i ≤ k → k < j → all[k]? = some t → t.kind ≠ .eof := by
  induction hc with
  | refl => exact ⟨i, Nat.le_refl i, h, fun k _ hi hk ↦ absurd hk (Nat.not_lt.mpr hi)⟩
  | tail _ hstep ih =>
    obtain ⟨hk, rfl⟩ := hstep
    obtain ⟨j, hij, hat, hread⟩ := ih
    refine ⟨j + 1, Nat.le_succ_of_le hij, hat.next hall hk, fun k t hi hkj ht ↦ ?_⟩
    obtain hlt | rfl := Nat.lt_succ_iff_lt_or_eq.mp hkj
    · exact hread k t hi hlt ht
    · obtain ⟨u, hu, hkind, -⟩ := hat.here
      obtain rfl := Option.some.inj (ht.symm.trans hu)
      exact hkind ▸ hk

end Cursor

end Quill.Grammar
