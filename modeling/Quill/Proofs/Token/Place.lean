import Mathlib.Data.List.Induction
import Quill.Proofs.Token.Stream
import Quill.SourceFile

/-!
# Where tokens stand

The position of a token is counted along with reading. It is that of its first character in the
text: the line feeds before it give the line, and the characters since the last of them the column.
The lines of a source file are cut at the same places.
-/

namespace Quill

namespace Position

def lastLine (front : List Char) : List Char := (front.reverse.takeWhile (· != '\n')).reverse

/-- Where the character stands that follows `front` from the start of a text. -/
def following (front : List Char) : Position :=
  ⟨1 + front.count '\n', 1 + (lastLine front).length⟩

theorem lastLine_concat {c : Char} (front : List Char) (hc : c ≠ '\n') :
    lastLine (front ++ [c]) = lastLine front ++ [c] := by
  simp [lastLine, hc]

theorem lastLine_newline (front : List Char) : lastLine (front ++ ['\n']) = [] := by
  simp [lastLine]

theorem start_after (front : List Char) : start.after front = following front := by
  induction front using List.reverseRecOn with
  | nil => rfl
  | append_singleton front c ih =>
    rw [after_append, ih, after_cons, after_nil, next, following, following]
    by_cases hc : c = '\n'
    · subst hc
      rw [if_pos rfl, lastLine_newline, List.count_append]
      simp [Nat.add_assoc]
    · rw [if_neg hc, lastLine_concat front hc, List.count_append]
      simp [hc, Nat.add_assoc]

theorem after_concat (p : Position) (front : List Char) (c : Char) :
    p.after (front ++ [c]) = (p.after front).next c := after_append p front [c]

theorem back_next {p : Position} {c : Char} (hp : 1 ≤ p.column) (hc : c ≠ '\n') :
    (p.next c).back = p := by
  rw [next, if_neg hc, back]
  have h : Nat.max 1 (p.column + 1 - 1) = p.column := by
    rw [Nat.add_sub_cancel]
    exact Nat.max_eq_right hp
  rw [h]

theorem one_le_column (front : List Char) : 1 ≤ (start.after front).column := by
  rw [start_after]
  exact Nat.le_add_right 1 _

theorem line_following_le {front text : List Char} (h : front <+: text) :
    (following front).line ≤ 1 + text.count '\n' :=
  Nat.add_le_add_left (h.sublist.count_le '\n') 1

end Position

namespace SourceFile

theorem splitLines_append_newline (front rest : List Char) :
    splitLines (front ++ '\n' :: rest) = splitLines front ++ splitLines rest := by
  have hcons (c : Char) (text : List Char) :
      splitLines (c :: text) = consLine c (splitLines text) := rfl
  induction front with
  | nil =>
    obtain ⟨l, ls, hl⟩ := List.exists_cons_of_ne_nil (splitLines_ne_nil rest)
    rw [List.nil_append, hcons, hl]
    simp [consLine, splitLines]
  | cons c front ih =>
    obtain ⟨l, ls, hl⟩ := List.exists_cons_of_ne_nil (splitLines_ne_nil front)
    rw [List.cons_append, hcons, hcons, ih, hl, List.cons_append]
    by_cases hc : c = '\n' <;> simp [consLine, hc]

theorem splitLines_length (text : List Char) :
    (splitLines text).length = 1 + text.count '\n' := by
  induction text with
  | nil => rfl
  | cons c text ih =>
    obtain ⟨l, ls, hl⟩ := List.exists_cons_of_ne_nil (splitLines_ne_nil text)
    change (consLine c (splitLines text)).length = _
    rw [hl] at ih ⊢
    by_cases hc : c = '\n'
    · simp [consLine, hc] at ih ⊢
      omega
    · simpa [consLine, hc] using ih

theorem splitLines_head (text : List Char) :
    (splitLines text)[0]? = some (text.takeWhile (· != '\n')) := by
  induction text with
  | nil => rfl
  | cons c text ih =>
    obtain ⟨l, ls, hl⟩ := List.exists_cons_of_ne_nil (splitLines_ne_nil text)
    change (consLine c (splitLines text))[0]? = _
    rw [hl] at ih ⊢
    by_cases hc : c = '\n'
    · simp [consLine, hc]
    · simpa [consLine, hc] using ih

theorem splitLines_at (front rest : List Char) :
    (splitLines (front ++ rest))[front.count '\n']? =
      some (Position.lastLine front ++ rest.takeWhile (· != '\n')) := by
  induction front using List.reverseRecOn generalizing rest with
  | nil => exact splitLines_head rest
  | append_singleton front c ih =>
    rw [List.append_assoc, List.singleton_append, List.count_append]
    by_cases hc : c = '\n'
    · subst hc
      have hcount : front.count '\n' + ['\n'].count '\n' = (splitLines front).length := by
        rw [splitLines_length, Nat.add_comm]
        simp
      rw [splitLines_append_newline, Position.lastLine_newline, hcount,
        List.getElem?_append_right le_rfl, Nat.sub_self]
      exact splitLines_head rest
    · rw [Position.lastLine_concat front hc]
      simpa [hc] using ih (c :: rest)

theorem trimReturns_append {c : Char} (front rest : List Char) (hc : c ≠ '\r') :
    trimReturns (front ++ c :: rest) = front ++ c :: trimReturns rest := by
  unfold trimReturns
  rw [List.reverse_append, List.reverse_cons, List.append_assoc, List.dropWhile_append]
  split
  · rename_i h
    simp [hc, List.isEmpty_iff.mp h]
  · simp

theorem line?_succ (f : SourceFile) (n : Nat) :
    f.line? (n + 1) = ((splitLines f.content.toList)[n]?).map (String.ofList ∘ trimReturns) :=
  List.getElem?_map

theorem isSome_line? {f : SourceFile} {n : Nat} (hn : 1 ≤ n)
    (h : n ≤ 1 + f.content.toList.count '\n') : (f.line? n).isSome = true := by
  obtain ⟨n, rfl⟩ : ∃ k, n = k + 1 := ⟨n - 1, by omega⟩
  have hlt : n < (splitLines f.content.toList).length := by
    rw [splitLines_length]
    omega
  rw [line?_succ, List.getElem?_eq_getElem hlt]
  rfl

theorem line?_following {f : SourceFile} {front rest : List Char} {c : Char}
    (h : f.content.toList = front ++ c :: rest) (hc : c ≠ '\n') (hr : c ≠ '\r') :
    ∃ line, f.line? (Position.following front).line = some line ∧
      line.toList[(Position.following front).column - 1]? = some c := by
  have hline := splitLines_at front (c :: rest)
  rw [← h, List.takeWhile_cons_of_pos (by simpa using hc)] at hline
  refine ⟨String.ofList (trimReturns (Position.lastLine front ++
    c :: rest.takeWhile (· != '\n'))), ?_, ?_⟩
  · rw [Position.following, Nat.add_comm 1 (front.count '\n'), line?_succ, hline]
    rfl
  · rw [String.toList_ofList, trimReturns_append _ _ hr, Position.following,
      Nat.add_sub_cancel_left]
    simp

end SourceFile

namespace Token

structure IsPlaced (p : Position) (t : Token) : Prop where
  first : t.span.first = p
  newline : t.kind = .newline → t.span.last = ⟨p.line + 1, 1⟩
  last : t.kind ≠ .newline → ∃ inner c, t.lexeme.toList = inner ++ [c] ∧ t.span.last = p.after inner
  visible : t.kind ≠ .whitespace → t.kind ≠ .newline →
    ∃ c more, t.lexeme.toList = c :: more ∧ c ≠ '\n' ∧ c ≠ '\r'

theorem IsScanned.isPlaced {front : List Char} {t : Token}
    (h : IsScanned (Position.start.after front) t) : IsPlaced (Position.start.after front) t := by
  obtain ⟨c, rest, s, hc, hs, rfl⟩ := h
  have isFront := scan_isFront hc hs
  refine ⟨rfl, fun hk ↦ ?_, fun hk ↦ ?_, fun hw hk ↦ ?_⟩
  · rw [isFront.newline hk]
    rfl
  · obtain ⟨inner, d, hread⟩ := (List.eq_nil_or_concat s.read).resolve_left isFront.read_ne_nil
    rw [List.concat_eq_append] at hread
    have hd : d ≠ '\n' := by
      rintro rfl
      exact isFront.inline hk (by rw [hread, List.getLast?_concat])
    refine ⟨inner, d, by rw [String.toList_ofList, hread], ?_⟩
    change ((Position.start.after front).after s.read).back = _
    rw [hread, Position.after_concat, Position.back_next ?_ hd]
    rw [← Position.after_append]
    exact Position.one_le_column _
  · obtain ⟨more, hread⟩ : ∃ more, s.read = c :: more := List.head?_eq_some_iff.mp isFront.starts
    exact ⟨c, more, by rw [String.toList_ofList, hread], isFront.visible hw hk⟩

end Token

end Quill
