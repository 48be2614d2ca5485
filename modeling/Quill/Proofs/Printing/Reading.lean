import Quill.Proofs.Grammar.Parts
import Quill.Proofs.Printing.Layout

/-!
# Reading pieces

What a parser makes of a list of pieces that it stands before: it succeeds, its result is as wanted,
and it stands before the pieces that follow. One rule for each way to put parsers together.
-/

namespace Quill.Grammar

open Piece

variable {α β : Type} {n : Nat} {ps qs rs : List Piece} {P Q : α → Prop} {R : β → Prop}

def first (ps : List Piece) : Token.Kind := (kinds ps).headD .eof

theorem first_cons {q : Piece} (h : q.visible = true) (ps : List Piece) :
    first (q :: ps) = q.kind := by
  rw [first, kinds, List.filter_cons_of_pos h]
  rfl

structure Cursor.Before (n : Nat) (ps : List Piece) (c : Cursor) : Prop where
  place : ∃ front, c.rest = Piece.cells (Position.start.after front) ps
  limit : c.limit = n
  bound : size ps < n

namespace Cursor.Before

variable {c : Cursor}

theorem kinds (h : c.Before n ps) : c.rest.map (·.kind) = Piece.kinds ps := by
  obtain ⟨front, hrest⟩ := h.place
  rw [hrest, cells_kinds]

theorem length (h : c.Before n ps) : c.rest.length = size ps := by
  rw [size, ← h.kinds, List.length_map]

theorem kind (h : c.Before n ps) : c.kind = first ps := by
  rw [first, ← h.kinds, Cursor.kind]
  cases c.rest <;> rfl

theorem next {q : Piece} (hq : q.visible = true) (h : c.Before n (q :: ps)) :
    c.next.Before n ps := by
  obtain ⟨front, hrest⟩ := h.place
  rw [Piece.cells, if_pos hq, ← Position.after_append] at hrest
  have hbound := h.bound
  rw [size_cons hq] at hbound
  refine ⟨⟨front ++ q.text, ?_⟩, ?_, Nat.lt_of_succ_lt hbound⟩
  · rw [Cursor.next, hrest]
  · rw [Cursor.next, hrest]
    exact h.limit

theorem blank (h : c.Before n (.blank :: ps)) : c.Before n ps := by
  obtain ⟨front, hrest⟩ := h.place
  exact ⟨⟨front ++ Piece.blank.text, by rw [hrest, Position.after_append]; rfl⟩, h.limit, h.bound⟩

theorem skipNewlines (h : c.Before n ps) : c.skipNewlines = c := by
  refine c.skipNewlines_skips.eq_of_not fun hk ↦ ?_
  have hkinds := h.kinds
  unfold Cursor.kind at hk
  cases hrest : c.rest with
  | nil =>
    rw [hrest] at hk
    cases hk
  | cons t more =>
    rw [hrest] at hk hkinds
    have hmem : t.kind ∈ Piece.kinds ps := hkinds ▸ List.mem_cons_self
    exact (kinds_isPlain hmem).newline hk

end Cursor.Before

namespace Parse

theorem bind_ok {x : Parse α} {f : α → Parse β} {a : α} {c d : Cursor} (h : x c = .ok (a, d)) :
    (x >>= f) c = f a d := by
  change (x c >>= fun p ↦ f p.1 p.2) = _
  rw [h]
  rfl

section

variable {x y : Parse α} {c : Cursor}

theorem bind_error {f : α → Parse β} {e : ParseError} (h : x c = .error e) :
    (x >>= f) c = .error e := by
  change (x c >>= fun p ↦ f p.1 p.2) = _
  rw [h]
  rfl

theorem bind_congr (h : x c = y c) (f : α → Parse β) : (x >>= f) c = (y >>= f) c := by
  change (x c >>= fun p ↦ f p.1 p.2) = y c >>= fun p ↦ f p.1 p.2
  rw [h]

theorem kind_bind (f : Token.Kind → Parse β) (c : Cursor) : (kind >>= f) c = f c.kind c := rfl

theorem span_bind (f : Span → Parse β) (c : Cursor) : (span >>= f) c = f c.span c := rfl

theorem skipSeparators_bind (f : Unit → Parse β) (c : Cursor) :
    (skipSeparators >>= f) c = f () c.skipSeparators := rfl

theorem eat_other {k : Token.Kind} (h : (c.kind == k) = false) : eat k c = .ok (false, c) := by
  unfold eat
  rw [h]
  rfl

end

/-- Before `ps` the parser has a result as `P` says, and goes on before `qs`. -/
def Reads (n : Nat) (x : Parse α) (ps qs : List Piece) (P : α → Prop) : Prop :=
  ∀ c : Cursor, c.Before n ps → ∃ a c', x c = .ok (a, c') ∧ c'.Before n qs ∧ P a

namespace Reads

theorem pure {a : α} (h : P a) : Reads n (Pure.pure a) ps ps P :=
  fun c hc ↦ ⟨a, c, rfl, hc, h⟩

theorem bind {x : Parse α} {f : α → Parse β} (hx : Reads n x ps qs P)
    (hf : ∀ a, P a → Reads n (f a) qs rs R) : Reads n (x >>= f) ps rs R := by
  intro c hc
  obtain ⟨a, c', hxc, hc', ha⟩ := hx c hc
  obtain ⟨b, c'', hfc, hc'', hb⟩ := hf a ha c' hc'
  exact ⟨b, c'', (bind_ok hxc).trans hfc, hc'', hb⟩

theorem bind_eq {x : Parse α} {f : α → Parse β} {a : α} (hx : Reads n x ps qs (· = a))
    (hf : Reads n (f a) qs rs R) : Reads n (x >>= f) ps rs R := by
  refine hx.bind fun b hb ↦ ?_
  rwa [hb]

theorem mono {x : Parse α} (hx : Reads n x ps qs P) (h : ∀ a, P a → Q a) :
    Reads n x ps qs Q := by
  intro c hc
  obtain ⟨a, c', hxc, hc', ha⟩ := hx c hc
  exact ⟨a, c', hxc, hc', h a ha⟩

theorem blank {x : Parse α} (hx : Reads n x ps qs P) : Reads n x (.blank :: ps) qs P :=
  fun c hc ↦ hx c hc.blank

theorem get : Reads n get ps ps (·.Before n ps) := fun c hc ↦ ⟨c, c, rfl, hc, hc⟩

theorem kind : Reads n kind ps ps (· = first ps) := fun c hc ↦ ⟨c.kind, c, rfl, hc, hc.kind⟩

theorem span : Reads n span ps ps fun _ ↦ True := fun c hc ↦ ⟨c.span, c, rfl, hc, trivial⟩

theorem previous : Reads n previous ps ps fun _ ↦ True :=
  fun c hc ↦ ⟨c.previous, c, rfl, hc, trivial⟩

theorem advance {q : Piece} (h : q.visible = true) :
    Reads n advance (q :: ps) ps fun _ ↦ True :=
  fun c hc ↦ ⟨c.span, c.next, rfl, hc.next h, trivial⟩

theorem skipNewlines : Reads n skipNewlines ps ps fun _ ↦ True :=
  fun c hc ↦ ⟨(), c, congrArg (fun d ↦ Except.ok ((), d)) hc.skipNewlines, hc, trivial⟩

theorem atMark (m : Mark) : Reads n (atMark m) ps ps (· = (first ps == .mark m)) :=
  bind kind fun _ hk ↦ pure (hk ▸ rfl)

theorem eatMark_other {m : Mark} (h : (first ps == .mark m) = false) :
    Reads n (eatMark m) ps ps (· = false) := by
  intro c hc
  exact ⟨false, c, eat_other (hc.kind ▸ h), hc, rfl⟩

theorem eatMark (m : Mark) : Reads n (eatMark m) (.mark m :: ps) ps (· = true) := by
  intro c hc
  refine ⟨true, c.next, ?_, hc.next rfl, rfl⟩
  have hk : (c.kind == .mark m) = true := by
    rw [hc.kind]
    exact beq_self_eq_true m
  unfold Parse.eatMark eat
  rw [hk]
  rfl

theorem expect (m : Mark) : Reads n (expect m) (.mark m :: ps) ps fun _ ↦ True := by
  refine bind kind fun k hk ↦ ?_
  have hm : (k == .mark m) = true := by
    rw [hk]
    exact beq_self_eq_true m
  rw [hm]
  exact advance rfl

end Reads

/-- Repeating a step, which reads a token unless it is the last one, ends with a result. -/
inductive Runs (step : α → Parse (α ⊕ β)) : α → Cursor → β → Cursor → Prop
  | stop {a : α} {b : β} {c d : Cursor} : step a c = .ok (.inr b, d) → Runs step a c b d
  | more {a a' : α} {b : β} {c c' d : Cursor} : step a c = .ok (.inl a', c') →
      c'.rest.length < c.rest.length → Runs step a' c' b d → Runs step a c b d

theorem Runs.repeatUpTo {step : α → Parse (α ⊕ β)} {a : α} {b : β} {c d : Cursor}
    (h : Runs step a c b d) (hn : c.rest.length < n) :
    repeatUpTo step n a c = .ok (b, d) := by
  induction h generalizing n with
  | stop hs =>
    obtain ⟨n, rfl⟩ : ∃ k, n = k + 1 := ⟨n - 1, by omega⟩
    rw [Parse.repeatUpTo, bind_ok hs]
    rfl
  | more hs hlt _ ih =>
    obtain ⟨n, rfl⟩ : ∃ k, n = k + 1 := ⟨n - 1, by omega⟩
    rw [Parse.repeatUpTo, bind_ok hs]
    exact ih (by omega)

/-- Repeating the step before `ps` ends before `qs`. -/
def Loops (n : Nat) (step : α → Parse (α ⊕ β)) (a : α) (ps qs : List Piece) (R : β → Prop) :
    Prop :=
  ∀ c : Cursor, c.Before n ps → ∃ b d, Runs step a c b d ∧ d.Before n qs ∧ R b

namespace Loops

variable {step : α → Parse (α ⊕ β)} {a : α}

theorem stop (h : Reads n (step a) ps qs (Sum.elim (fun _ ↦ False) R)) :
    Loops n step a ps qs R := by
  intro c hc
  obtain ⟨r, d, hs, hd, hr⟩ := h c hc
  cases r with
  | inl _ => exact hr.elim
  | inr b => exact ⟨b, d, .stop hs, hd, hr⟩

theorem stop_eq {b : β} (h : Reads n (step a) ps qs (Sum.elim (fun _ ↦ False) (· = b)))
    (hb : R b) : Loops n step a ps qs R := by
  refine stop (h.mono fun r hr ↦ ?_)
  cases r with
  | inl _ => exact hr
  | inr b' =>
    obtain rfl : b' = b := hr
    exact hb

theorem more (h : Reads n (step a) ps rs (Sum.elim P fun _ ↦ False))
    (hlt : size rs < size ps)
    (hmore : ∀ a', P a' → Loops n step a' rs qs R) : Loops n step a ps qs R := by
  intro c hc
  obtain ⟨r, c', hs, hc', hr⟩ := h c hc
  cases r with
  | inl a' =>
    obtain ⟨b, d, hruns, hd, hb⟩ := hmore a' hr c' hc'
    exact ⟨b, d, .more hs (by rwa [hc.length, hc'.length]) hruns, hd, hb⟩
  | inr _ => exact hr.elim

theorem iterate (h : Loops n step a ps qs R) : Reads n (iterate step a) ps qs R := by
  intro c hc
  obtain ⟨b, d, hruns, hd, hb⟩ := h c hc
  refine ⟨b, d, hruns.repeatUpTo ?_, hd, hb⟩
  rw [hc.length, hc.limit]
  exact hc.bound

end Loops

end Parse

theorem ofTokens?_reads {P : Program → Prop} (h : Parse.Reads (size ps + 2) program ps [] P)
    (stop : Position) :
    ∃ p, Program.ofTokens? (Piece.tokens .start ps ++ [Token.endAt stop]) = .ok p ∧ P p := by
  have hbefore : (Cursor.ofTokens (Piece.tokens .start ps ++ [Token.endAt stop])).Before
      (size ps + 2) ps := by
    rw [Cursor.ofTokens_tokens]
    exact ⟨⟨[], rfl⟩, rfl, Nat.lt_add_of_pos_right (by decide)⟩
  obtain ⟨p, c, hprogram, -, hp⟩ := h _ hbefore
  exact ⟨p, by rw [Program.ofTokens?, hprogram], hp⟩

end Quill.Grammar
