import Mathlib.Data.Prod.Lex
import Quill.Grammar.Cursor
import Quill.Proofs.Token.Place

/-!
# The order of tokens

Positions are ordered by line, then by column. The tokens of a text follow each other in this order:
each ends before the next one starts, except that a line break ends where the next line starts.
-/

namespace Quill

namespace Position

def reading (p : Position) : Nat ×ₗ Nat := toLex (p.line, p.column)

theorem reading_injective : Function.Injective reading := by
  rintro ⟨l, c⟩ ⟨l', c'⟩ h
  obtain ⟨rfl, rfl⟩ := Prod.mk.inj (toLex_inj.mp h)
  rfl

instance : LinearOrder Position := LinearOrder.lift' reading reading_injective

variable {p q : Position}

theorem lt_iff : p < q ↔ p.line < q.line ∨ p.line = q.line ∧ p.column < q.column :=
  Prod.Lex.toLex_lt_toLex

theorem le_iff : p ≤ q ↔ p.line < q.line ∨ p.line = q.line ∧ p.column ≤ q.column :=
  Prod.Lex.toLex_le_toLex

theorem before_iff : p.before q = true ↔ p < q := by
  rw [lt_iff, before]
  simp

theorem min_of_le (h : p ≤ q) : p.min q = p := by
  rw [min, if_neg (by rw [before_iff]; exact h.not_gt)]

theorem max_of_le (h : p ≤ q) : p.max q = q := by
  obtain rfl | h := h.eq_or_lt
  · exact ite_self p
  · rw [max, if_pos (before_iff.mpr h)]

theorem lt_next (p : Position) (c : Char) : p < p.next c := by
  rw [lt_iff, next]
  split <;> simp

theorem le_after (p : Position) (text : List Char) : p ≤ p.after text := by
  induction text generalizing p with
  | nil => exact le_rfl
  | cons c text ih => exact (lt_next p c).le.trans (ih _)

theorem lt_after {text : List Char} (p : Position) (h : text ≠ []) : p < p.after text := by
  obtain ⟨c, text, rfl⟩ := List.exists_cons_of_ne_nil h
  exact (lt_next p c).trans_le (le_after _ text)

theorem back_le (h : 1 ≤ p.column) : p.back ≤ p := by
  rw [le_iff, back]
  simp
  omega

theorem one_le_column_after (text : List Char) (h : 1 ≤ p.column) :
    1 ≤ (p.after text).column := by
  induction text generalizing p with
  | nil => exact h
  | cons c text ih =>
    apply ih
    rw [next]
    split <;> simp

end Position

namespace Span

def Ordered (s : Span) : Prop := s.first ≤ s.last

def Covers (s t : Span) : Prop := s.first ≤ t.first ∧ t.last ≤ s.last

theorem Covers.refl (s : Span) : s.Covers s := ⟨le_rfl, le_rfl⟩

theorem Covers.trans {s t u : Span} (h : s.Covers t) (h' : t.Covers u) : s.Covers u :=
  ⟨h.1.trans h'.1, h'.2.trans h.2⟩

theorem merge_of_le {a b : Span} (hf : a.first ≤ b.first) (hl : a.last ≤ b.last) :
    a.merge b = ⟨a.first, b.last⟩ := by
  rw [merge, Position.min_of_le hf, Position.max_of_le hl]

end Span

namespace Token.Kind

/-- A token of this kind at `x` comes before what stands at `y`. -/
structure Precedes (k : Kind) (x y : Span) : Prop where
  le : x.last ≤ y.first
  lt : k ≠ .newline → x.last < y.first

end Token.Kind

namespace Token

theorem Scanned.IsFront.precedes {c : Char} {rest : List Char} {s : Scanned} {p : Position}
    {y : Span} (h : s.IsFront c rest) (hp : 1 ≤ p.column) (hy : p.after s.read ≤ y.first) :
    s.kind.Precedes (.ofText p s.read) y := by
  have hle : (Span.ofText p s.read).last ≤ p.after s.read :=
    Position.back_le (Position.one_le_column_after _ hp)
  refine ⟨hle.trans hy, fun hk ↦ ?_⟩
  obtain ⟨inner, d, hread⟩ := (List.eq_nil_or_concat s.read).resolve_left h.read_ne_nil
  rw [List.concat_eq_append] at hread
  have hd : d ≠ '\n' := by
    rintro rfl
    exact h.inline hk (by rw [hread, List.getLast?_concat])
  have hlast : (Span.ofText p s.read).last = p.after inner := by
    rw [Span.ofText, hread, Position.after_concat]
    exact Position.back_next (Position.one_le_column_after _ hp) hd
  have hnext : p.after inner < p.after s.read := by
    rw [hread, Position.after_concat]
    exact Position.lt_next _ _
  rw [hlast]
  exact hnext.trans_le hy

theorem Scanned.IsFront.ordered {c : Char} {rest : List Char} {s : Scanned} {p : Position}
    (h : s.IsFront c rest) (hp : 1 ≤ p.column) : (Span.ofText p s.read).Ordered := by
  obtain ⟨inner, d, hread⟩ := (List.eq_nil_or_concat s.read).resolve_left h.read_ne_nil
  rw [List.concat_eq_append] at hread
  change p ≤ (p.after s.read).back
  by_cases hd : d = '\n'
  · have hlt : p < p.after s.read := Position.lt_after p h.read_ne_nil
    have hcolumn : (p.after s.read).back = p.after s.read := by
      rw [hread, Position.after_concat, Position.next, if_pos hd]
      rfl
    rw [hcolumn]
    exact hlt.le
  · rw [hread, Position.after_concat, Position.back_next (Position.one_le_column_after _ hp) hd]
    exact Position.le_after _ _

/-- Tokens stand one after the other from a position on. -/
structure InOrder (p : Position) (ts : List Token) : Prop where
  start : ∀ t ∈ ts, p ≤ t.span.first
  spans : ∀ t ∈ ts, t.span.Ordered
  apart : ts.Pairwise fun t u ↦ t.kind.Precedes t.span u.span

theorem Tokenizes.inOrder {p : Position} {text : List Char} {ts : List Token}
    {e : Option LexError} (h : Tokenizes p text ts e) (hp : 1 ≤ p.column) : InOrder p ts := by
  induction h with
  | stop _ =>
    exact ⟨by simp [endAt, Span.point], by simp [endAt, Span.point, Span.Ordered], by simp⟩
  | fail _ _ => exact ⟨nofun, nofun, .nil⟩
  | @token p c rest s ts e hc hs _ ih =>
    have front := scan_isFront hc hs
    have hafter := Position.le_after p s.read
    obtain ⟨hfrom, hspans, hapart⟩ := ih (Position.one_le_column_after _ hp)
    refine ⟨?_, ?_, ?_⟩
    · rintro t (_ | ⟨_, ht⟩)
      · exact le_rfl
      · exact hafter.trans (hfrom t ht)
    · rintro t (_ | ⟨_, ht⟩)
      · exact front.ordered hp
      · exact hspans t ht
    · exact .cons (fun t ht ↦ front.precedes hp (hfrom t ht)) hapart

theorem ofText?_inOrder {text : String} {ts : Array Token} (h : ofText? text = .ok ts) :
    InOrder .start ts.toList := (ofText?_iff.mp h).inOrder le_rfl

end Token

namespace Grammar

structure Ordered (cells : List Cell) : Prop where
  spans : ∀ c ∈ cells, c.span.Ordered
  apart : cells.Pairwise fun c d ↦ c.kind.Precedes c.span d.span

namespace Ordered

variable {cs ds : List Cell}

theorem sublist (h : Ordered cs) (hd : ds.Sublist cs) : Ordered ds :=
  ⟨fun c hc ↦ h.spans c (hd.subset hc), h.apart.sublist hd⟩

theorem left (h : Ordered (cs ++ ds)) : Ordered cs := h.sublist (List.sublist_append_left _ _)

theorem right (h : Ordered (cs ++ ds)) : Ordered ds := h.sublist (List.sublist_append_right _ _)

theorem precedes (h : Ordered (cs ++ ds)) {c d : Cell} (hc : c ∈ cs) (hd : d ∈ ds) :
    c.kind.Precedes c.span d.span := (List.pairwise_append.mp h.apart).2.2 c hc d hd

theorem head_le {a c : Cell} (h : Ordered (a :: cs)) (hc : c ∈ a :: cs) :
    a.span.first ≤ c.span.first ∧ a.span.last ≤ c.span.last := by
  obtain rfl | hc := List.mem_cons.mp hc
  · exact ⟨le_rfl, le_rfl⟩
  · have hle := ((List.pairwise_cons.mp h.apart).1 c hc).le
    have ha := h.spans a List.mem_cons_self
    have hc' := h.spans c (List.mem_cons_of_mem a hc)
    exact ⟨ha.trans hle, hle.trans hc'⟩

end Ordered

/-- What a token and a cell made of it have in common. -/
def Cell.place (c : Cell) : Token.Kind × Span := (c.kind, c.span)

theorem cellsOnto_place (done : List Cell) (m : Margin) (ts : List Token) :
    ((cellsOnto done m ts).map Cell.place).Sublist
      (done.reverse.map Cell.place ++ ts.map fun t ↦ (t.kind, t.span)) := by
  induction ts generalizing done m with
  | nil =>
    simpa only [cellsOnto, List.map_nil, List.append_nil] using List.Sublist.refl _
  | cons t ts ih =>
    have pushed (m : Margin) (doc : Option String) :
        ((cellsOnto (⟨t.kind, t.span, doc⟩ :: done) m ts).map Cell.place).Sublist
          (done.reverse.map Cell.place ++ (t :: ts).map fun t ↦ (t.kind, t.span)) := by
      simpa [Cell.place] using ih (⟨t.kind, t.span, doc⟩ :: done) m
    have skipped (m : Margin) : ((cellsOnto done m ts).map Cell.place).Sublist
        (done.reverse.map Cell.place ++ (t :: ts).map fun t ↦ (t.kind, t.span)) :=
      (ih done m).trans (List.Sublist.append_left (List.sublist_cons_self _ _) _)
    rw [cellsOnto]
    split
    · exact skipped _
    · exact skipped _
    · exact pushed _ _
    · exact pushed _ _

theorem ordered_cells {p : Position} {ts : List Token} (h : Token.InOrder p ts) :
    Ordered (cells ts) := by
  have hsub : ((cells ts).map Cell.place).Sublist (ts.map fun t ↦ (t.kind, t.span)) :=
    cellsOnto_place [] .empty ts
  constructor
  · intro c hc
    obtain ⟨t, ht, heq⟩ := List.mem_map.mp (hsub.subset (List.mem_map_of_mem hc))
    obtain ⟨-, hspan⟩ := Prod.mk.inj heq
    rw [← hspan]
    exact h.spans t ht
  · have hapart : ((cells ts).map Cell.place).Pairwise fun x y ↦ x.1.Precedes x.2 y.2 :=
      List.Pairwise.sublist hsub (List.pairwise_map.mpr h.apart)
    exact List.pairwise_map.mp hapart

end Grammar

end Quill
