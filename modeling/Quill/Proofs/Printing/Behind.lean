import Quill.Proofs.Printing.Patterns
import Quill.Proofs.Token.Order

/-!
# Behind some pieces

A text that starts with some pieces has their tokens first. The tokens behind them do not depend on
the pieces, but for the columns on the line on which the pieces stand. So the grammar sees the same
there whatever the pieces are. Main statement: `ofText?_behind`.
-/

namespace Quill

open Token

/-- On the given line some columns further right, elsewhere the same. -/
def Position.right (line n : Nat) (p : Position) : Position :=
  ⟨p.line, if p.line = line then p.column + n else p.column⟩

def Span.right (line n : Nat) (s : Span) : Span := ⟨s.first.right line n, s.last.right line n⟩

def Token.right (line n : Nat) (t : Token) : Token := { t with span := t.span.right line n }

namespace Position

variable {line n : Nat} {p : Position}

theorem line_le_after (p : Position) (text : List Char) : p.line ≤ (p.after text).line := by
  obtain h | h := le_iff.mp (le_after p text)
  · exact h.le
  · exact h.1.le

theorem next_right (h : line ≤ p.line) (c : Char) :
    (p.right line n).next c = (p.next c).right line n := by
  unfold next right
  by_cases hc : c = '\n'
  · have hne : p.line + 1 ≠ line := by omega
    simp only [hc, if_true, if_neg hne]
  · simp only [hc, if_false]
    split <;> simp [Nat.add_right_comm]

theorem after_right (h : line ≤ p.line) (text : List Char) :
    (p.right line n).after text = (p.after text).right line n := by
  induction text generalizing p with
  | nil => rfl
  | cons c text ih =>
    rw [after_cons, after_cons, next_right h]
    exact ih (Nat.le_trans h (line_le_after p [c]))

theorem after_inline {text : List Char} (h : '\n' ∉ text) :
    p.after text = ⟨p.line, p.column + text.length⟩ := by
  induction text generalizing p with
  | nil => rfl
  | cons c text ih =>
    rw [List.mem_cons, not_or] at h
    rw [after_cons, ih h.2, next, if_neg (Ne.symm h.1), List.length_cons]
    simp only [Position.mk.injEq, true_and]
    omega

theorem after_longer {front back : List Char} (hf : '\n' ∉ front) (hb : '\n' ∉ back)
    (h : front.length ≤ back.length) :
    start.after back = (start.after front).right 1 (back.length - front.length) := by
  rw [after_inline hf, after_inline hb, right]
  simp only [start, if_true, Position.mk.injEq, true_and]
  omega

/-- The last character of a text stands where what is before it ends; only a line feed counts as the
start of the next line. -/
theorem back_after {read : List Char} (h : read ≠ []) :
    ∃ front, ∀ p : Position, 1 ≤ p.column → (p.after read).back = p.after front := by
  obtain ⟨front, c, rfl⟩ : ∃ front c, read = front ++ [c] :=
    ⟨_, _, (List.dropLast_append_getLast h).symm⟩
  by_cases hc : c = '\n'
  · subst hc
    refine ⟨front ++ ['\n'], fun p _ ↦ ?_⟩
    rw [after_concat, next, if_pos rfl]
    rfl
  · refine ⟨front, fun p hp ↦ ?_⟩
    rw [after_concat, back_next (one_le_column_after front hp) hc]

end Position

variable {line n : Nat} {p : Position} {tail : List Char}

theorem Span.ofText_right {read : List Char} (h : read ≠ []) (hline : line ≤ p.line)
    (hp : 1 ≤ p.column) :
    Span.ofText (p.right line n) read = (Span.ofText p read).right line n := by
  obtain ⟨front, hfront⟩ := Position.back_after h
  have hright : 1 ≤ (p.right line n).column := by
    unfold Position.right
    split
    · exact Nat.le_add_right_of_le hp
    · exact hp
  rw [ofText, ofText, hfront _ hright, hfront p hp, Position.after_right hline]
  rfl

namespace Token

theorem Tokenizes.right {text : List Char} {ts : List Token} {e : Option LexError}
    (h : Tokenizes p text ts e) (he : e = none) (hline : line ≤ p.line) (hp : 1 ≤ p.column) :
    Tokenizes (p.right line n) text (ts.map (·.right line n)) none := by
  induction h with
  | stop hs => exact .stop hs
  | fail => cases he
  | @token p c rest s ts e hc hs _ ih =>
    have hread := (scan_isFront hc hs).read_ne_nil
    have hrest := ih he (Nat.le_trans hline (p.line_le_after s.read))
      (Position.one_le_column_after s.read hp)
    rw [← Position.after_right hline] at hrest
    have htoken := Tokenizes.token hc hs hrest
    rwa [Span.ofText_right hread hline hp] at htoken

theorem touches_right (t u : Token) : (t.right line n).touches (u.right line n) = t.touches u := by
  obtain ⟨_, _, _, ⟨l, k⟩⟩ := t
  obtain ⟨_, _, ⟨⟨l', k'⟩, _⟩⟩ := u
  unfold touches right Span.right Position.right Position.nextColumn
  simp only [Position.mk.injEq, decide_eq_decide]
  by_cases hl : l' = l
  · subst hl
    split <;> omega
  · simp only [hl, false_and]

theorem minusTouches_right (ts : List Token) :
    minusTouches (ts.map (·.right line n)) = minusTouches ts := by
  induction ts with
  | nil => rfl
  | cons t ts ih =>
    cases ts with
    | nil => rfl
    | cons u us =>
      rw [List.map_cons] at ih
      rw [List.map_cons, List.map_cons, minusTouches, minusTouches, ih, touches_right]
      rfl

theorem words_right (ts : List Token) :
    words (ts.map (·.right line n)) = (words ts).map (·.right line n) := List.filter_map

end Token

namespace Piece

variable {ps qs : List Piece}

/-- The pieces are the tokens of their text where `tail` is what follows. -/
def LexesBefore (tail : List Char) : List Piece → Prop
  | [] => True
  | q :: ps => q.Scans (spell ps ++ tail) ∧ LexesBefore tail ps

theorem LexesBefore.tokenizes {ts : List Token} {e : Option LexError} (h : LexesBefore tail ps)
    (hts : Tokenizes (p.after (spell ps)) tail ts e) :
    Tokenizes p (spell ps ++ tail) (tokens p ps ++ ts) e := by
  induction ps generalizing p with
  | nil => exact hts
  | cons q ps ih =>
    obtain ⟨⟨c, cs, htext, hc, hscan⟩, hps⟩ := h
    rw [spell_cons, Position.after_append] at hts
    rw [spell_cons, List.append_assoc, htext, List.cons_append, tokens, List.cons_append]
    exact .token hc hscan (ih hps hts)

theorem LexesBefore.split {ts : List Token} {e : Option LexError} (h : LexesBefore tail ps)
    (hts : Tokenizes p (spell ps ++ tail) ts e) :
    ∃ us, ts = tokens p ps ++ us ∧ Tokenizes (p.after (spell ps)) tail us e := by
  induction ps generalizing p ts with
  | nil => exact ⟨ts, rfl, hts⟩
  | cons q ps ih =>
    obtain ⟨⟨c, cs, htext, hc, hscan⟩, hps⟩ := h
    rw [spell_cons, List.append_assoc, htext, List.cons_append] at hts
    cases hts with
    | stop hs => simp [hc] at hs
    | fail _ hf =>
      rw [hscan] at hf
      cases hf
    | token _ hs hrest =>
      rw [hscan] at hs
      cases hs
      obtain ⟨us, rfl, hus⟩ := ih hps hrest
      rw [spell_cons, Position.after_append]
      exact ⟨us, rfl, hus⟩

theorem Scans.opens {q : Piece} (h : q.Scans tail) (hq : q.visible = true) :
    ∃ c cs, q.text = c :: cs ∧ isSpace c = false := by
  obtain ⟨c, cs, htext, -, hscan⟩ := h
  refine ⟨c, cs, htext, Bool.eq_false_iff.mpr fun hc ↦ (kind_isPlain hq).whitespace ?_⟩
  unfold scan at hscan
  rw [if_pos hc] at hscan
  exact (congrArg Scanned.kind (Except.ok.inj hscan)).symm

theorem LexesBefore.blank {q : Piece} (h : LexesBefore tail (q :: ps)) (hq : q.visible = true) :
    LexesBefore tail (.blank :: q :: ps) := by
  obtain ⟨c, cs, htext, hc⟩ := h.1.opens hq
  refine ⟨blank_scans ?_, h⟩
  rw [spell_cons, htext]
  rintro d ⟨⟩
  exact hc

theorem Scans.inline {q : Piece} (h : q.Scans tail) (hq : ∀ value, q ≠ .str value) :
    '\n' ∉ q.text := by
  obtain ⟨c, cs, htext, hc, hscan⟩ := h
  refine (scan_isFront hc hscan).line ?_ ?_
  · cases q with
    | word text => exact (nameKind_ne _).2
    | _ => rintro ⟨⟩
  · cases q with
    | word text =>
      rw [kind, nameKind]
      split <;> rintro _ ⟨⟩
    | str value => exact absurd rfl (hq value)
    | _ => rintro _ ⟨⟩

theorem LexesBefore.inline (h : LexesBefore tail ps) (hs : ∀ value, .str value ∉ ps) :
    '\n' ∉ spell ps := by
  induction ps with
  | nil => exact nofun
  | cons q ps ih =>
    rw [spell_cons, List.mem_append, not_or]
    refine ⟨h.1.inline fun value hq ↦ hs value (hq ▸ List.mem_cons_self), ih h.2 fun value hm ↦ ?_⟩
    exact hs value (List.mem_cons_of_mem q hm)

end Piece

namespace Grammar

open Piece

variable {ps qs : List Piece} {ts us : List Token}

/-- The first cursor stands before the first pieces and the second before the second ones, and
behind them both see the same. -/
structure Cursor.Share (c : Cursor) (ps qs : List Piece) (d : Cursor) : Prop where
  left : Piece.kinds ps <+: c.rest.map (·.kind)
  right : Piece.kinds qs <+: d.rest.map (·.kind)
  same : sight .blank (c.rest.drop (size ps)) = sight .blank (d.rest.drop (size qs))

theorem Cursor.next_iterate (n : Nat) (c : Cursor) :
    (next^[n] c).rest = c.rest.drop n ∧ (next^[n] c).limit = c.limit := by
  induction n generalizing c with
  | zero => exact ⟨rfl, rfl⟩
  | succ n ih =>
    obtain ⟨hrest, hlimit⟩ := ih c.next
    obtain ⟨rest, previous, stop, limit⟩ := c
    rw [Function.iterate_succ_apply, hrest, hlimit]
    cases rest <;> simp [next]

theorem Cursor.Share.alike {ps qs : List Piece} {c d : Cursor} (h : c.Share ps qs d)
    (hc : c.rest.length < c.limit) (hd : d.rest.length < d.limit) :
    (next^[size ps] c).Alike .blank (next^[size qs] d) := by
  obtain ⟨hrest, hlimit⟩ := c.next_iterate (size ps)
  obtain ⟨hrest', hlimit'⟩ := d.next_iterate (size qs)
  refine .of_rest (by rw [hrest, hrest', h.same]) rfl ?_ ?_
  · rw [hrest, hlimit, List.length_drop]
    omega
  · rw [hrest', hlimit', List.length_drop]
    omega

theorem Cursor.behind (h : Ended (tokens p ps ++ us)) :
    Piece.kinds ps <+: (ofTokens (tokens p ps ++ us)).rest.map (·.kind) ∧
      sight .blank ((ofTokens (tokens p ps ++ us)).rest.drop (size ps)) =
        sight .blank ((Token.words us).map Cell.ofToken) := by
  have hrest := Cursor.rest_words h
  rw [Token.words, List.filter_append, List.map_append] at hrest
  have hlength : size ps = ((Token.words (tokens p ps)).map Cell.ofToken).length := by
    rw [List.length_map, size, ← kinds_words p ps, List.length_map]
  refine ⟨⟨(Token.words us).map (·.kind), ?_⟩, ?_⟩
  · have hkinds := congrArg (List.map (·.kind)) hrest
    simp only [List.map_append, List.map_map] at hkinds
    rw [← kinds_words p ps]
    exact hkinds.symm
  · rw [← sight_undocumented, List.map_drop, hrest, hlength]
    exact congrArg (sight .blank) List.drop_left

end Grammar

open Piece Grammar

/-- Two texts that go on alike behind pieces on their first line: if the one with the shorter pieces
has no error, then neither has the other, and behind the pieces the grammar sees the same. -/
theorem ofText?_behind {ps qs : List Piece} (hp : LexesBefore tail ps) (hq : LexesBefore tail qs)
    (hpline : '\n' ∉ spell ps) (hqline : '\n' ∉ spell qs)
    (hle : (spell ps).length ≤ (spell qs).length) {ts : Array Token}
    (h : Token.ofText? (String.ofList (spell ps ++ tail)) = .ok ts) :
    ∃ us, Token.ofText? (String.ofList (spell qs ++ tail)) = .ok us ∧
      (Cursor.ofTokens ts.toList).Share ps qs (Cursor.ofTokens us.toList) := by
  have hts := Token.ofText?_iff.mp h
  rw [String.toList_ofList] at hts
  obtain ⟨us, hsplit, hus⟩ := hp.split hts
  have hline : 1 ≤ (Position.start.after (spell ps)).line := Position.line_le_after .start _
  have hmoved := hus.right (n := (spell qs).length - (spell ps).length) rfl hline
    (Position.one_le_column (spell ps))
  rw [← Position.after_longer hpline hqline hle] at hmoved
  have htext : Token.ofText? (String.ofList (spell qs ++ tail)) = .ok (tokens .start qs ++
      us.map (·.right 1 ((spell qs).length - (spell ps).length))).toArray := by
    rw [Token.ofText?_iff, String.toList_ofList]
    exact hq.tokenizes hmoved
  have hleft := Token.ofText?_ended h
  have hright := Token.ofText?_ended htext
  rw [hsplit] at hleft
  refine ⟨_, htext, ?_⟩
  rw [hsplit]
  obtain ⟨hkinds, hsight⟩ := Cursor.behind hleft
  obtain ⟨hkinds', hsight'⟩ := Cursor.behind hright
  refine ⟨hkinds, hkinds', hsight.trans (Eq.trans ?_ hsight'.symm)⟩
  rw [words_right]
  refine sight_ofToken ?_ (minusTouches_right _).symm
  rw [List.map_map]
  rfl

end Quill
