import Mathlib.Data.String.Basic
import Quill.Interpreter

/-!
# Dotted paths

A path is cut at its dots, so names without dots are found again in the path that joins them. Main
statement: `splitOn_intercalate`.
-/

namespace Quill

open String

section

variable (l m r : List Char) (acc : List String) {c : Char}

theorem not_atEnd_cons : ¬ Pos.Raw.atEnd (ofList (l ++ m ++ c :: r)) ⟨utf8Len (l ++ m)⟩ = true := by
  have hpos : 0 < c.utf8Size := c.utf8Size_pos
  simp only [atEnd_iff, rawEndPos_ofList, utf8Len_append, utf8Len_cons, Pos.Raw.mk_le_mk]
  omega

theorem splitOnAux_end : splitOnAux (ofList (l ++ m)) "." ⟨utf8Len l⟩ ⟨utf8Len (l ++ m)⟩ 0 acc =
    (ofList m :: acc).reverse := by
  have hend : Pos.Raw.atEnd (ofList (l ++ m)) ⟨utf8Len (l ++ m)⟩ = true := by
    rw [atEnd_iff, rawEndPos_ofList]
    exact Nat.le_refl _
  have hextract := extract_of_valid l m []
  rw [List.append_nil, ← utf8Len_append] at hextract
  rw [splitOnAux, if_pos hend, hextract]

/-- At a dot a part ends. -/
theorem splitOnAux_at_dot :
    splitOnAux (ofList (l ++ m ++ '.' :: r)) "." ⟨utf8Len l⟩ ⟨utf8Len (l ++ m)⟩ 0 acc =
      splitOnAux (ofList (l ++ m ++ '.' :: r)) "." ⟨utf8Len (l ++ m ++ ['.'])⟩
        ⟨utf8Len (l ++ m ++ ['.'])⟩ 0 (ofList m :: acc) := by
  have hdot : Pos.Raw.get "." 0 = '.' := by decide
  have hone : Pos.Raw.next "." 0 = ⟨1⟩ := by decide
  have hlast : Pos.Raw.atEnd "." ⟨1⟩ = true := by decide
  have hplace : utf8Len (l ++ m) + Char.utf8Size '.' = utf8Len (l ++ m ++ ['.']) := by
    simp [Nat.add_assoc]
  have hbefore : ((⟨utf8Len (l ++ m ++ ['.'])⟩ : Pos.Raw).unoffsetBy ⟨1⟩) =
      ⟨utf8Len (l ++ m)⟩ := by
    rw [← hplace]
    rfl
  have hextract := extract_of_valid l m ('.' :: r)
  rw [← utf8Len_append] at hextract
  rw [splitOnAux, if_neg (not_atEnd_cons l m r), get_of_valid, hdot, List.headD_cons,
    beq_self_eq_true, if_pos rfl, hone]
  dsimp only
  rw [hlast, if_pos rfl, next_of_valid, hplace, hbefore, hextract]

theorem splitOnAux_past (hc : c ≠ '.') :
    splitOnAux (ofList (l ++ m ++ c :: r)) "." ⟨utf8Len l⟩ ⟨utf8Len (l ++ m)⟩ 0 acc =
      splitOnAux (ofList (l ++ m ++ c :: r)) "." ⟨utf8Len l⟩ ⟨utf8Len (l ++ (m ++ [c]))⟩ 0 acc := by
  have hdot : Pos.Raw.get "." 0 = '.' := by decide
  have hplace : utf8Len (l ++ m) + c.utf8Size = utf8Len (l ++ (m ++ [c])) := by
    simp [Nat.add_assoc]
  have hback : ((⟨utf8Len (l ++ m)⟩ : Pos.Raw).unoffsetBy 0) = ⟨utf8Len (l ++ m)⟩ := rfl
  have hne : (c == '.') = false := beq_false_of_ne hc
  rw [splitOnAux, if_neg (not_atEnd_cons l m r), get_of_valid, hdot, List.headD_cons, hne,
    if_neg Bool.false_ne_true, hback, next_of_valid, hplace]

end

/-- How a text is cut on the way through it: `l` is behind the last dot, `m` follows, `r` is still
to come, and `acc` has the parts before, last one first. -/
theorem splitOnAux_dot (l m r : List Char) (acc : List String) :
    splitOnAux (ofList (l ++ m ++ r)) "." ⟨utf8Len l⟩ ⟨utf8Len (l ++ m)⟩ 0 acc =
      acc.reverse ++ (List.splitOnPPrepend (· == '.') r m.reverse).map ofList := by
  induction r generalizing l m acc with
  | nil =>
    rw [List.append_nil, splitOnAux_end]
    simp
  | cons c r ih =>
    by_cases hc : c = '.'
    · have hrest := ih (l ++ m ++ ['.']) [] (ofList m :: acc)
      rw [List.append_nil] at hrest
      rw [hc, splitOnAux_at_dot, List.append_cons (l ++ m) '.' r, hrest]
      simp [List.splitOnPPrepend_cons_eq_if]
    · rw [splitOnAux_past l m r acc hc, List.append_cons (l ++ m) c r, List.append_assoc l m [c],
        ih]
      simp [List.splitOnPPrepend_cons_eq_if, hc]

theorem splitOn_dot (s : String) : s.splitOn "." = (s.toList.splitOn '.').map ofList := by
  have h := splitOnAux_dot [] [] s.toList []
  rw [splitOn, if_neg (by decide)]
  simpa [List.splitOn] using h

theorem splitOn_intercalate {names : List String} (hne : names ≠ [])
    (h : ∀ name ∈ names, '.' ∉ name.toList) : (".".intercalate names).splitOn "." = names := by
  have hchars : (".".intercalate names).toList = ['.'].intercalate (names.map toList) := by simp
  rw [splitOn_dot, hchars, List.splitOn_intercalate]
  · simp
  · simpa using h
  · simpa using hne

theorem Interpreter.type?_intercalate {i : Interpreter} {names : List String} (hne : names ≠ [])
    (h : ∀ name ∈ names, '.' ∉ name.toList) :
    i.type? (".".intercalate names) = i.state.types.follow CoreType.object.id names := by
  rw [type?, splitOn_intercalate hne h]

end Quill
