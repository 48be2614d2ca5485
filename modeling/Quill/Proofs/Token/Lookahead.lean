import Quill.Proofs.Token.Stream

/-!
# How far a scanner looks

Blanks and strings apart, a token is found by its line alone: what follows the end of the line does
not matter. A string is over at its last quotation mark.
-/

namespace Quill.Token

def EndsLine (text : List Char) : Prop := ∀ c ∈ text.head?, c = '\n' ∨ c = '\r'

theorem endsLine_cons {c : Char} (hc : c = '\n' ∨ c = '\r') (text : List Char) :
    EndsLine (c :: text) := by
  rintro d ⟨⟩
  exact hc

theorem takeWhile_eq_nil {p : Char → Bool} {text : List Char} (h : text.head?.any p = false) :
    text.takeWhile p = [] := by
  cases text with
  | nil => rfl
  | cons c text => exact List.takeWhile_cons_of_neg (by simpa using h)

theorem nameSuffix_cons (c : Char) (text : List Char) :
    nameSuffix (c :: text) =
      if c = '?' ∨ c = '!' ∧ text.head?.any (· == '=') = false then [c] else [] := by
  unfold nameSuffix
  split
  · simp_all
  · simp_all
  · rename_i text' hno heq
    obtain ⟨rfl, rfl⟩ := List.cons.inj heq
    cases text with
    | nil => rfl
    | cons d text =>
      have hd : d ≠ '=' := fun hd ↦ hno text (by rw [hd])
      simp [hd]
  · simp_all

namespace EndsLine

variable {line more : List Char} {p : Char → Bool}

theorem head_any (h : EndsLine more) (hp : p '\n' = false ∧ p '\r' = false) :
    more.head?.any p = false := by
  cases hc : more.head? with
  | none => rfl
  | some c =>
    obtain rfl | rfl := h c hc
    · exact hp.1
    · exact hp.2

theorem takeWhile_append (h : EndsLine more) (hp : p '\n' = false ∧ p '\r' = false) :
    (line ++ more).takeWhile p = line.takeWhile p := by
  rw [List.takeWhile_append, takeWhile_eq_nil (h.head_any hp), List.append_nil]
  split
  · rename_i hall
    exact ((List.takeWhile_prefix p).eq_of_length hall).symm
  · rfl

theorem head_append (h : EndsLine more) (hp : p '\n' = false ∧ p '\r' = false) :
    (line ++ more).head?.any p = line.head?.any p := by
  cases line with
  | nil => exact h.head_any hp
  | cons c line => rfl

theorem nameSuffix_append (h : EndsLine more) :
    nameSuffix (line ++ more) = nameSuffix line := by
  cases line with
  | nil =>
    cases more with
    | nil => rfl
    | cons c more => obtain rfl | rfl := h c rfl <;> rfl
  | cons c line =>
    rw [List.cons_append, nameSuffix_cons, nameSuffix_cons, h.head_append ⟨rfl, rfl⟩]

theorem nameLength_append (h : EndsLine more) (suffixed : Bool) :
    nameLength suffixed (line ++ more) = nameLength suffixed line := by
  have hword : (line ++ more).takeWhile continuesName = line.takeWhile continuesName :=
    h.takeWhile_append ⟨rfl, rfl⟩
  unfold nameLength
  dsimp only
  rw [hword, List.drop_append_of_le_length (List.takeWhile_prefix _).length_le,
    h.nameSuffix_append]

end EndsLine

theorem numberParts_eq {text more : List Char}
    (hmore : text.drop (text.takeWhile isDigitPart).length = more) :
    numberParts text = (text.takeWhile isDigitPart,
      if more.head? = some '.' ∧ more.tail.head?.any Char.isDigit then
        some (more.tail.takeWhile isDigitPart) else none) := by
  unfold numberParts
  dsimp only
  rw [hmore]
  split
  · split <;> simp [*]
  · rename_i hno
    rw [if_neg]
    rintro ⟨hpoint, hdigit⟩
    obtain ⟨rest, rfl⟩ := List.head?_eq_some_iff.mp hpoint
    cases rest with
    | nil => cases hdigit
    | cons d rest => exact hno d rest rfl

theorem EndsLine.numberParts_append {line more : List Char} (h : EndsLine more) :
    numberParts (line ++ more) = numberParts line := by
  have hdigits {line : List Char} :
      (line ++ more).takeWhile isDigitPart = line.takeWhile isDigitPart :=
    h.takeWhile_append ⟨rfl, rfl⟩
  have hdrop : (line ++ more).drop ((line ++ more).takeWhile isDigitPart).length =
      line.drop (line.takeWhile isDigitPart).length ++ more := by
    rw [hdigits, List.drop_append_of_le_length (List.takeWhile_prefix _).length_le]
  rw [numberParts_eq hdrop, numberParts_eq rfl, hdigits]
  cases line.drop (line.takeWhile isDigitPart).length with
  | nil =>
    have hpoint : more.head? ≠ some '.' := fun hd ↦ by
      obtain hc | hc := h _ hd <;> cases hc
    simp [hpoint]
  | cons c rest =>
    rw [List.cons_append, List.head?_cons, List.head?_cons, List.tail_cons, List.tail_cons,
      hdigits, h.head_append ⟨rfl, rfl⟩]

namespace EndsLine

variable {line more front : List Char}

theorem prefix_append_iff (h : EndsLine more) (hn : '\n' ∉ front) (hr : '\r' ∉ front) :
    front <+: line ++ more ↔ front <+: line := by
  refine ⟨fun hfront ↦ ?_, fun hfront ↦ hfront.trans (List.prefix_append line more)⟩
  obtain hle | ⟨extra, rfl⟩ :=
    List.prefix_or_prefix_of_prefix hfront (List.prefix_append line more)
  · exact hle
  · cases extra with
    | nil => exact ⟨[], by simp⟩
    | cons c extra =>
      -- The front would go on with the end of the line.
      obtain ⟨rest, rfl⟩ := (List.prefix_append_right_inj line).mp hfront
      obtain rfl | rfl := h c rfl
      · exact absurd (List.mem_append_right line List.mem_cons_self) hn
      · exact absurd (List.mem_append_right line List.mem_cons_self) hr

theorem marks_append (h : EndsLine more) (m : Mark) : marks (line ++ more) m = marks line m := by
  obtain ⟨-, hinline⟩ := mark_text_inline m
  have hn : '\n' ∉ m.text.toList := fun hm ↦ (hinline _ hm).1.1 rfl
  have hr : '\r' ∉ m.text.toList := fun hm ↦ (hinline _ hm).2 rfl
  have hfront : m.text.toList.isPrefixOf (line ++ more) = m.text.toList.isPrefixOf line := by
    rw [Bool.eq_iff_iff, List.isPrefixOf_iff_prefix, List.isPrefixOf_iff_prefix]
    exact h.prefix_append_iff hn hr
  unfold marks
  rw [hfront]
  cases hp : m.text.toList.isPrefixOf line with
  | false => rfl
  | true =>
    by_cases hm : m = .minusAt
    · subst hm
      have hlen : 2 ≤ line.length := (List.isPrefixOf_iff_prefix.mp hp).length_le
      rw [List.drop_append_of_le_length hlen, h.head_append ⟨rfl, rfl⟩]
    · rw [bne_iff_ne.mpr hm]
      rfl

end EndsLine

/-- The same token in a longer text. -/
def Scanned.followedBy (s : Scanned) (more : List Char) : Scanned :=
  ⟨s.kind, s.read, s.rest ++ more⟩

theorem take_followedBy {n : Nat} {text : List Char} (hn : n ≤ text.length) (more : List Char)
    (kind : List Char → Kind) :
    take n (text ++ more) kind = (take n text kind).followedBy more := by
  unfold take Scanned.followedBy
  rw [List.take_append_of_le_length hn, List.drop_append_of_le_length hn]

theorem nameLength_le (suffixed : Bool) (text : List Char) :
    nameLength suffixed text ≤ text.length := by
  have hword := (List.takeWhile_prefix (l := text) continuesName).length_le
  unfold nameLength
  dsimp only
  split
  · have hsuffix := (nameSuffix_front (text.drop (text.takeWhile continuesName).length)).length_le
    rw [List.length_drop] at hsuffix
    omega
  · exact hword

theorem scanNumber_append {line more : List Char} (h : EndsLine more) :
    scanNumber (line ++ more) = (scanNumber line).map (·.followedBy more) := by
  unfold scanNumber
  rw [h.numberParts_append]
  split
  · rename_i whole hparts
    have hlen : whole.length ≤ line.length := by
      rw [numberParts_whole hparts]
      exact (List.takeWhile_prefix _).length_le
    dsimp only
    split
    · rw [take_followedBy hlen]
      rfl
    · rfl
  · rename_i whole fraction hparts
    have hlen := (numberParts_fraction hparts).1.length_le
    rw [List.length_append, List.length_cons] at hlen
    dsimp only
    rw [take_followedBy (by omega)]
    rfl

theorem scanMark_append {line more : List Char} (h : EndsLine more) (c : Char) :
    scanMark c (line ++ more) = (scanMark c line).map (·.followedBy more) := by
  have hmarks : marks (line ++ more) = marks line := funext h.marks_append
  unfold scanMark
  rw [hmarks]
  split
  · rename_i m hm
    have hlen : m.text.length ≤ line.length := by
      have hfound : marks line m = true := List.find?_some hm
      have hp := (Bool.and_eq_true_iff.mp hfound).1
      rw [← String.length_toList]
      exact (List.isPrefixOf_iff_prefix.mp hp).length_le
    rw [take_followedBy hlen]
    rfl
  · rfl

/-- A token that is neither blank nor a comment nor a string. -/
def StartsPlainly (c : Char) : Prop := c ∉ [' ', '\t', '\r', '\n', '#', '"', '\'']

theorem scan_append {c : Char} {line more : List Char} (hc : StartsPlainly c) (h : EndsLine more) :
    scan c (line ++ more) = (scan c line).map (·.followedBy more) := by
  have names (suffixed : Bool) (kind : List Char → Kind) :
      take (1 + nameLength suffixed line) (c :: (line ++ more)) kind =
        (take (1 + nameLength suffixed line) (c :: line) kind).followedBy more := by
    have hlen : 1 + nameLength suffixed line ≤ (c :: line).length := by
      rw [List.length_cons, Nat.add_comm]
      exact Nat.add_le_add_right (nameLength_le suffixed line) 1
    exact take_followedBy hlen more kind
  have choice {p : Prop} [Decidable p] {x y x' y' : Except Failure Scanned}
      (hx : x = x'.map (·.followedBy more)) (hy : y = y'.map (·.followedBy more)) :
      (if p then x else y) = (if p then x' else y').map (·.followedBy more) := by
    by_cases hp : p
    · rwa [if_pos hp, if_pos hp]
    · rwa [if_neg hp, if_neg hp]
  simp only [StartsPlainly, List.mem_cons, List.not_mem_nil, or_false, not_or] at hc
  have hspace : isSpace c = false := by simp [isSpace, hc]
  unfold scan
  dsimp only
  rw [hspace, h.nameLength_append, h.nameLength_append, h.head_append ⟨rfl, rfl⟩,
    h.head_append ⟨rfl, rfl⟩]
  simp only [hc, if_false, names, Bool.false_eq_true]
  have number : scanNumber (c :: (line ++ more)) =
      (scanNumber (c :: line)).map (·.followedBy more) := by
    rw [← List.cons_append, scanNumber_append h]
  have mark : scanMark c (c :: (line ++ more)) =
      (scanMark c (c :: line)).map (·.followedBy more) := by
    rw [← List.cons_append, scanMark_append h]
  exact choice number (choice (choice rfl rfl) (choice (choice rfl rfl)
    (choice rfl (choice rfl mark))))

theorem take_string {quote : Char} {inner : List Char} {n : Nat} (hn : n = inner.length + 1)
    (rest : List Char) (kind : List Char → Kind) :
    take (n + 1) (quote :: (inner ++ quote :: rest)) kind =
      ⟨kind (quote :: inner ++ [quote]), quote :: inner ++ [quote], rest⟩ := by
  have hsplit : quote :: (inner ++ quote :: rest) = (quote :: inner ++ [quote]) ++ rest := by simp
  have hlen : n + 1 = (quote :: inner ++ [quote]).length := by simp [hn]
  rw [take, hsplit, List.take_left' hlen.symm, List.drop_left' hlen.symm]

theorem scan_string {c : Char} {rest : List Char} {s : Scanned} (hc : c = '"' ∨ c = '\'')
    (h : scan c rest = .ok s) (rest' : List Char) :
    scan c (s.read.tail ++ rest') = .ok ⟨s.kind, s.read, rest'⟩ := by
  have quoted (rest : List Char) :
      scan '"' rest = scanString ('"' :: rest) (readQuoted [] 0 rest) := rfl
  have raw (rest : List Char) :
      scan '\'' rest = scanString ('\'' :: rest) (readRaw [] 0 rest) := rfl
  obtain rfl | rfl := hc
  · rw [quoted] at h
    obtain ⟨value, n, hq, rfl⟩ := scanString_closed h
    obtain ⟨inner, rest, rfl, hlen, -, hclosed⟩ := readQuoted_closed hq
    rw [Nat.zero_add] at hlen
    rw [take_string hlen, List.cons_append, List.tail_cons, List.append_assoc,
      List.singleton_append, quoted, hclosed, scanString, take_string hlen]
    rfl
  · rw [raw] at h
    obtain ⟨value, n, hq, rfl⟩ := scanString_closed h
    obtain ⟨inner, rest, rfl, hlen, -, hclosed⟩ := readRaw_closed hq
    rw [Nat.zero_add] at hlen
    rw [take_string hlen, List.cons_append, List.tail_cons, List.append_assoc,
      List.singleton_append, raw, hclosed, scanString, take_string hlen]
    rfl

theorem takeWhile_run {q : Char → Bool} {front back : List Char} (hf : ∀ d ∈ front, q d = true)
    (hb : back.head?.any q = false) : (front ++ back).takeWhile q = front := by
  rw [List.takeWhile_append_of_pos hf, takeWhile_eq_nil hb, List.append_nil]

theorem take_run {q : Char → Bool} {front back : List Char} {kind : List Char → Kind}
    (hf : ∀ d ∈ front, q d = true) (hb : back.head?.any q = false) :
    take ((front ++ back).takeWhile q).length (front ++ back) kind = ⟨kind front, front, back⟩ := by
  rw [takeWhile_run hf hb, take, List.take_left' rfl, List.drop_left' rfl]

theorem run_split (q : Char → Bool) (text : List Char) :
    ∃ front back, text = front ++ back ∧ (∀ d ∈ front, q d = true) ∧ back.head?.any q = false := by
  refine ⟨text.takeWhile q, text.dropWhile q, List.takeWhile_append_dropWhile.symm,
    fun d ↦ List.mem_takeWhile_imp, ?_⟩
  have h := List.head?_dropWhile_not q text
  cases hd : (text.dropWhile q).head? with
  | none => rfl
  | some d =>
    rw [hd] at h
    simpa using h

theorem scan_blank {c : Char} {rest front back : List Char} (ht : c :: rest = front ++ back)
    (hc : isSpace c = true) (hf : ∀ d ∈ front, isSpace d = true)
    (hb : back.head?.any isSpace = false) : scan c rest = .ok ⟨.whitespace, front, back⟩ := by
  unfold scan
  dsimp only
  rw [if_pos hc, ht, take_run hf hb]

theorem scan_comment {rest front back : List Char} (ht : '#' :: rest = front ++ back)
    (hf : ∀ d ∈ front, (d != '\n' && d != nul) = true)
    (hb : back.head?.any (fun d ↦ d != '\n' && d != nul) = false) :
    scan '#' rest = .ok ⟨.comment (String.ofList front), front, back⟩ := by
  change Except.ok (take _ ('#' :: rest) _) = _
  rw [ht, take_run hf hb]

end Quill.Token
