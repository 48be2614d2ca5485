import Mathlib.Data.List.TakeWhile
import Quill.Token.Lexer

/-!
# Single tokens

All that can stand at the front of a text, with the condition for each. A token takes at least one
character and none from the first NUL on, and only line breaks and strings hold line feeds.
-/

namespace Quill.Token

/-- The token `s` is at the front of the text `c :: rest`. -/
inductive Takes (c : Char) (rest : List Char) : Scanned → Prop
  | whitespace : isSpace c = true →
      Takes c rest (take ((c :: rest).takeWhile isSpace).length (c :: rest) fun _ ↦ .whitespace)
  | newline : c = '\n' → Takes c rest (take 1 (c :: rest) fun _ ↦ .newline)
  | comment : c = '#' →
      Takes c rest (take ((c :: rest).takeWhile fun d ↦ d != '\n' && d != nul).length (c :: rest)
        fun read ↦ .comment (String.ofList read))
  | int {whole : List Char} : c.isDigit = true → numberParts (c :: rest) = (whole, none) →
      digitsValue (whole.filter (· != '_')) ≤ maxInt →
      Takes c rest (take whole.length (c :: rest) fun _ ↦
        .int (Int64.ofNat (digitsValue (whole.filter (· != '_')))))
  | float {whole fraction : List Char} (x : Float) : c.isDigit = true →
      numberParts (c :: rest) = (whole, some fraction) →
      Takes c rest (take (whole.length + 1 + fraction.length) (c :: rest) fun _ ↦ .float x)
  | quoted {value : List Char} {n : Nat} : c = '"' → readQuoted [] 0 rest = .closed value n →
      Takes c rest (take (n + 1) (c :: rest) fun _ ↦ .str (String.ofList value.reverse))
  | raw {value : List Char} {n : Nat} : c = '\'' → readRaw [] 0 rest = .closed value n →
      Takes c rest (take (n + 1) (c :: rest) fun _ ↦ .str (String.ofList value.reverse))
  | attr : c = '@' → rest.head?.any startsName = true →
      Takes c rest (take (1 + nameLength true rest) (c :: rest) fun read ↦
        .attr (markedName read))
  | symbol : c = ':' → (rest.head?.any fun d ↦ d.isAlpha || d == '_') = true →
      Takes c rest (take (1 + nameLength true rest) (c :: rest) fun read ↦
        .symbol (markedName read))
  | colon : c = ':' → Takes c rest (take 1 (c :: rest) fun _ ↦ .mark .colon)
  | name : startsName c = true →
      Takes c rest (take (1 + nameLength true rest) (c :: rest) nameKind)
  | constant : c.isUpper = true →
      Takes c rest (take (1 + nameLength false rest) (c :: rest) fun read ↦
        .constant (String.ofList read))
  | mark {m : Mark} : marksByLength.find? (marks (c :: rest)) = some m →
      Takes c rest (take m.text.length (c :: rest) fun _ ↦ .mark m)

theorem scanNumber_takes {c : Char} {rest : List Char} {s : Scanned} (hc : c.isDigit = true)
    (h : scanNumber (c :: rest) = .ok s) : Takes c rest s := by
  unfold scanNumber at h
  split at h
  · rename_i whole hparts
    dsimp only at h
    split at h
    · rename_i hv
      cases h
      exact .int hc hparts hv
    · cases h
  · rename_i whole fraction hparts
    cases h
    exact .float _ hc hparts

theorem scanString_closed {text : List Char} {q : Quotation} {s : Scanned}
    (h : scanString text q = .ok s) :
    ∃ value n, q = .closed value n ∧
      s = take (n + 1) text fun _ ↦ .str (String.ofList value.reverse) := by
  cases q with
  | closed value n =>
    cases h
    exact ⟨value, n, rfl, rfl⟩
  | unterminated n => cases h
  | invalidEscape n e => cases h

theorem scanMark_takes {c : Char} {rest : List Char} {s : Scanned}
    (h : scanMark c (c :: rest) = .ok s) : Takes c rest s := by
  unfold scanMark at h
  split at h
  · rename_i m hm
    cases h
    exact .mark hm
  · cases h

theorem scan_takes {c : Char} {rest : List Char} {s : Scanned} (h : scan c rest = .ok s) :
    Takes c rest s := by
  unfold scan at h
  dsimp only at h
  -- In the order in which `scan` looks: what is left for a test has failed all before it.
  by_cases hspace : isSpace c = true
  · rw [if_pos hspace] at h
    cases h
    exact .whitespace hspace
  rw [if_neg hspace] at h
  by_cases hline : c = '\n'
  · rw [if_pos hline] at h
    cases h
    exact .newline hline
  rw [if_neg hline] at h
  by_cases hcomment : c = '#'
  · rw [if_pos hcomment] at h
    cases h
    exact .comment hcomment
  rw [if_neg hcomment] at h
  by_cases hdigit : c.isDigit = true
  · rw [if_pos hdigit] at h
    exact scanNumber_takes hdigit h
  rw [if_neg hdigit] at h
  by_cases hquote : c = '"'
  · rw [if_pos hquote] at h
    obtain ⟨value, n, hq, rfl⟩ := scanString_closed h
    exact .quoted hquote hq
  rw [if_neg hquote] at h
  by_cases hraw : c = '\''
  · rw [if_pos hraw] at h
    obtain ⟨value, n, hq, rfl⟩ := scanString_closed h
    exact .raw hraw hq
  rw [if_neg hraw] at h
  by_cases hattr : c = '@'
  · rw [if_pos hattr] at h
    split at h
    · rename_i hname
      cases h
      exact .attr hattr hname
    · cases h
  rw [if_neg hattr] at h
  by_cases hcolon : c = ':'
  · rw [if_pos hcolon] at h
    split at h
    · rename_i hname
      cases h
      exact .symbol hcolon hname
    · cases h
      exact .colon hcolon
  rw [if_neg hcolon] at h
  by_cases hname : startsName c = true
  · rw [if_pos hname] at h
    cases h
    exact .name hname
  rw [if_neg hname] at h
  by_cases hupper : c.isUpper = true
  · rw [if_pos hupper] at h
    cases h
    exact .constant hupper
  rw [if_neg hupper] at h
  exact scanMark_takes h

def Inline (c : Char) : Prop := c ≠ '\n' ∧ c ≠ nul

theorem inline_of_isSpace {c : Char} (h : isSpace c = true) : Inline c := by
  constructor <;> (rintro rfl; exact absurd h (by decide))

theorem inline_of_isDigitPart {c : Char} (h : isDigitPart c = true) : Inline c := by
  constructor <;> (rintro rfl; exact absurd h (by decide))

theorem inline_of_continuesName {c : Char} (h : continuesName c = true) : Inline c := by
  constructor <;> (rintro rfl; exact absurd h (by decide))

theorem continuesName_of_startsName {c : Char} (h : startsName c = true) :
    continuesName c = true := by
  unfold startsName at h
  unfold continuesName Char.isAlphanum Char.isAlpha
  grind

theorem take_takeWhile (p : Char → Bool) (text : List Char) :
    text.take (text.takeWhile p).length = text.takeWhile p :=
  (List.prefix_iff_eq_take.mp (List.takeWhile_prefix p)).symm

theorem take_of_append {front back : List Char} {n : Nat} (hn : n = front.length) :
    (front ++ back).take n = front := by
  rw [hn, List.take_left']
  rfl

theorem nameSuffix_inline (text : List Char) : ∀ c ∈ nameSuffix text, Inline c := by
  unfold nameSuffix
  split <;> simp [Inline, nul]

theorem nameSuffix_front (text : List Char) : nameSuffix text <+: text := by
  unfold nameSuffix
  split <;> simp

theorem nameLength_inline (suffixed : Bool) (text : List Char) :
    ∀ c ∈ text.take (nameLength suffixed text), Inline c := by
  have hword : text.take (text.takeWhile continuesName).length = text.takeWhile continuesName :=
    take_takeWhile _ _
  have hw : ∀ c ∈ text.takeWhile continuesName, Inline c := fun c hc ↦
    inline_of_continuesName (List.mem_takeWhile_imp hc)
  unfold nameLength
  dsimp only
  split
  · rw [List.take_add, hword, ← List.prefix_iff_eq_take.mp (nameSuffix_front _)]
    intro c hc
    obtain hc | hc := List.mem_append.mp hc
    · exact hw c hc
    · exact nameSuffix_inline _ c hc
  · rw [hword]
    exact hw

theorem numberParts_whole {text whole : List Char} {fraction : Option (List Char)}
    (h : numberParts text = (whole, fraction)) : whole = text.takeWhile isDigitPart := by
  unfold numberParts at h
  dsimp only at h
  split at h
  · split at h <;> exact (congrArg Prod.fst h).symm
  · exact (congrArg Prod.fst h).symm

theorem numberParts_fraction {text whole fraction : List Char}
    (h : numberParts text = (whole, some fraction)) :
    (whole ++ '.' :: fraction) <+: text ∧ ∀ c ∈ fraction, isDigitPart c = true := by
  have hwhole := numberParts_whole h
  unfold numberParts at h
  dsimp only at h
  split at h
  case h_2 => cases h
  rename_i d rest hdrop
  split at h
  · cases h
    refine ⟨?_, fun c hc ↦ List.mem_takeWhile_imp hc⟩
    have htext := List.take_append_drop (text.takeWhile isDigitPart).length text
    rw [take_takeWhile, hdrop] at htext
    have hp : text.takeWhile isDigitPart ++ '.' :: (d :: rest).takeWhile isDigitPart <+:
        text.takeWhile isDigitPart ++ '.' :: d :: rest := by
      rw [List.prefix_append_right_inj, List.cons_prefix_cons]
      exact ⟨rfl, List.takeWhile_prefix _⟩
    rwa [htext] at hp
  · cases h

/-- Between double quotes there is no NUL, and what follows the closing one does not matter. -/
theorem readQuoted_closed {value value' text : List Char} {n m : Nat}
    (h : readQuoted value n text = .closed value' m) :
    ∃ inner rest, text = inner ++ '"' :: rest ∧ m = n + inner.length + 1 ∧ nul ∉ inner ∧
      ∀ rest', readQuoted value n (inner ++ '"' :: rest') = .closed value' m := by
  fun_induction readQuoted value n text with
  | case1 => cases h
  | case2 value n rest =>
    cases h
    exact ⟨[], rest, rfl, rfl, List.not_mem_nil, fun _ ↦ rfl⟩
  | case3 => cases h
  | case4 => cases h
  | case5 value n e rest he v hv ih =>
    obtain ⟨inner, rest', rfl, rfl, hn, hr⟩ := ih h
    refine ⟨'\\' :: e :: inner, rest', rfl, ?_, ?_, fun rest'' ↦ ?_⟩
    · simp only [List.length_cons]
      omega
    · simp only [List.mem_cons, not_or]
      exact ⟨by decide, Ne.symm he, hn⟩
    · rw [List.cons_append, List.cons_append, readQuoted, if_neg he, hv]
      exact hr rest''
  | case6 => cases h
  | case7 => cases h
  | case8 value n c rest hquote halone hescape hc ih =>
    obtain ⟨inner, rest', rfl, rfl, hn, hr⟩ := ih h
    have hbackslash : c ≠ '\\' := by
      rintro rfl
      cases inner <;> exact hescape _ _ rfl rfl
    refine ⟨c :: inner, rest', rfl, ?_, ?_, fun rest'' ↦ ?_⟩
    · simp only [List.length_cons]
      omega
    · simp only [List.mem_cons, not_or]
      exact ⟨Ne.symm hc, hn⟩
    · rw [List.cons_append, readQuoted, if_neg hc]
      · exact hr rest''
      · exact hquote
      · exact fun hb ↦ absurd hb hbackslash
      · exact fun _ _ hb ↦ absurd hb hbackslash

theorem readRaw_closed {value value' text : List Char} {n m : Nat}
    (h : readRaw value n text = .closed value' m) :
    ∃ inner rest, text = inner ++ '\'' :: rest ∧ m = n + inner.length + 1 ∧ nul ∉ inner ∧
      ∀ rest', readRaw value n (inner ++ '\'' :: rest') = .closed value' m := by
  fun_induction readRaw value n text with
  | case1 => cases h
  | case2 value n rest =>
    cases h
    exact ⟨[], rest, rfl, rfl, List.not_mem_nil, fun _ ↦ rfl⟩
  | case3 value n rest ih =>
    obtain ⟨inner, rest', rfl, rfl, hn, hr⟩ := ih h
    refine ⟨'\\' :: '\'' :: inner, rest', rfl, ?_, ?_, hr⟩
    · simp only [List.length_cons]
      omega
    · simp only [List.mem_cons, not_or]
      exact ⟨by decide, by decide, hn⟩
  | case4 value n rest ih =>
    obtain ⟨inner, rest', rfl, rfl, hn, hr⟩ := ih h
    refine ⟨'\\' :: '\\' :: inner, rest', rfl, ?_, ?_, hr⟩
    · simp only [List.length_cons]
      omega
    · simp only [List.mem_cons, not_or]
      exact ⟨by decide, by decide, hn⟩
  | case5 => cases h
  | case6 value n c rest hquote hescape hescape' hc ih =>
    obtain ⟨inner, rest', rfl, rfl, hn, hr⟩ := ih h
    refine ⟨c :: inner, rest', rfl, ?_, ?_, fun rest'' ↦ ?_⟩
    · simp only [List.length_cons]
      omega
    · simp only [List.mem_cons, not_or]
      exact ⟨Ne.symm hc, hn⟩
    · rw [List.cons_append, readRaw, if_neg hc]
      · exact hr rest''
      · exact hquote
      -- Behind a backslash stands neither a quote nor a backslash, so `inner` goes on.
      all_goals
        rintro more rfl hmore
        cases inner with
        | nil => exact hescape _ rfl rfl
        | cons d inner =>
          cases hmore
          first | exact hescape _ rfl rfl | exact hescape' _ rfl rfl

/-- A token is a piece of the text, and goes on to the next line only where it has to. -/
structure Scanned.IsFront (s : Scanned) (c : Char) (rest : List Char) : Prop where
  split : s.read ++ s.rest = c :: rest
  starts : s.read.head? = some c
  nul : nul ∉ s.read
  kind : s.kind ≠ .eof
  newline : s.kind = .newline → s.read = ['\n']
  inline : s.kind ≠ .newline → s.read.getLast? ≠ some '\n'
  line : s.kind ≠ .newline → (∀ text, s.kind ≠ .str text) → '\n' ∉ s.read
  visible : s.kind ≠ .whitespace → s.kind ≠ .newline → c ≠ '\n' ∧ c ≠ '\r'

theorem Scanned.IsFront.read_ne_nil {s : Scanned} {c : Char} {rest : List Char}
    (h : s.IsFront c rest) : s.read ≠ [] := by
  intro hs
  have hc := h.starts
  rw [hs] at hc
  cases hc

section

variable {c : Char} {rest : List Char} {n : Nat} {kind : List Char → Kind}

theorem take_isFront (hn : 0 < n)
    (hk : kind ((c :: rest).take n) ≠ .eof ∧ kind ((c :: rest).take n) ≠ .newline)
    (hc : kind ((c :: rest).take n) ≠ .whitespace → c ≠ '\n' ∧ c ≠ '\r')
    (hnul : nul ∉ (c :: rest).take n) (hlast : ((c :: rest).take n).getLast? ≠ some '\n')
    (hline : (∀ text, kind ((c :: rest).take n) ≠ .str text) → '\n' ∉ (c :: rest).take n) :
    (take n (c :: rest) kind).IsFront c rest where
  split := List.take_append_drop n (c :: rest)
  starts := by
    obtain ⟨k, rfl⟩ : ∃ k, n = k + 1 := ⟨n - 1, by omega⟩
    rfl
  nul := hnul
  kind := hk.1
  newline h := absurd h hk.2
  inline _ := hlast
  line _ := hline
  visible h _ := hc h

theorem take_isFront_of_inline (hn : 0 < n)
    (hk : kind ((c :: rest).take n) ≠ .eof ∧ kind ((c :: rest).take n) ≠ .newline)
    (hc : kind ((c :: rest).take n) ≠ .whitespace → c ≠ '\r')
    (h : ∀ d ∈ (c :: rest).take n, Inline d) : (take n (c :: rest) kind).IsFront c rest := by
  have hmem : c ∈ (c :: rest).take n := by
    obtain ⟨k, rfl⟩ : ∃ k, n = k + 1 := ⟨n - 1, by omega⟩
    exact List.mem_cons_self
  refine take_isFront hn hk (fun hw ↦ ⟨(h c hmem).1, hc hw⟩) (fun hd ↦ (h _ hd).2 rfl)
    (fun hl ↦ ?_) fun _ hd ↦ (h _ hd).1 rfl
  exact (h _ (List.mem_of_getLast? hl)).1 rfl

theorem named_isFront (suffixed : Bool)
    (hk : ∀ read, kind read ≠ .eof ∧ kind read ≠ .newline) (hc : c ≠ '\r') (hi : Inline c) :
    (take (1 + nameLength suffixed rest) (c :: rest) kind).IsFront c rest := by
  refine take_isFront_of_inline (by omega) (hk _) (fun _ ↦ hc) ?_
  rw [Nat.add_comm, List.take_succ_cons]
  intro d hd
  obtain rfl | hd := List.mem_cons.mp hd
  · exact hi
  · exact nameLength_inline suffixed rest d hd

theorem string_isFront {text : String} {quote : Char} {inner rest : List Char} {n : Nat}
    (hn : n = inner.length + 1) (hq : Inline quote) (hr : quote ≠ '\r') (hi : nul ∉ inner) :
    (take (n + 1) (quote :: (inner ++ quote :: rest)) fun _ ↦ .str text).IsFront quote
      (inner ++ quote :: rest) := by
  have hread : (quote :: (inner ++ quote :: rest)).take (n + 1) = quote :: inner ++ [quote] := by
    rw [List.take_succ_cons, List.append_cons, take_of_append (by simp [hn])]
    rfl
  refine take_isFront (by omega) ⟨nofun, nofun⟩ (fun _ ↦ ⟨hq.1, hr⟩) ?_ ?_ fun h ↦ absurd rfl (h _)
  · rw [hread]
    simp only [List.mem_append, List.mem_cons, List.not_mem_nil, or_false, not_or]
    exact ⟨⟨Ne.symm hq.2, hi⟩, Ne.symm hq.2⟩
  · rw [hread, List.getLast?_append]
    exact fun h ↦ hq.1 (Option.some.inj h)

end

theorem nameKind_ne (read : List Char) : nameKind read ≠ .eof ∧ nameKind read ≠ .newline := by
  unfold nameKind
  dsimp only
  split <;> exact ⟨nofun, nofun⟩

theorem ne_return_of_continuesName {c : Char} (h : continuesName c = true) : c ≠ '\r' := by
  rintro rfl
  exact absurd h (by decide)

theorem continuesName_of_isUpper {c : Char} (h : c.isUpper = true) : continuesName c = true := by
  unfold continuesName Char.isAlphanum Char.isAlpha
  grind

theorem mark_text_inline (m : Mark) :
    0 < m.text.length ∧ ∀ c ∈ m.text.toList, Inline c ∧ c ≠ '\r' := by
  cases m <;> exact ⟨by decide, by simp [Mark.text, Inline, nul]⟩

theorem mark_spelled {c : Char} {rest : List Char} {m : Mark}
    (h : marksByLength.find? (marks (c :: rest)) = some m) :
    (c :: rest).take m.text.length = m.text.toList := by
  have hm := List.find?_some h
  unfold marks at hm
  have hp := List.isPrefixOf_iff_prefix.mp (Bool.and_eq_true_iff.mp hm).1
  rw [← String.length_toList]
  exact (List.prefix_iff_eq_take.mp hp).symm

theorem Takes.isFront {c : Char} {rest : List Char} {s : Scanned} (h : Takes c rest s)
    (hc : c ≠ nul) : s.IsFront c rest := by
  cases h with
  | whitespace hs =>
    refine take_isFront_of_inline (by simp [hs]) ⟨nofun, nofun⟩ (absurd rfl) ?_
    rw [take_takeWhile]
    exact fun d hd ↦ inline_of_isSpace (List.mem_takeWhile_imp hd)
  | newline hn =>
    subst hn
    exact ⟨rfl, rfl, by simp [take, nul], nofun, fun _ ↦ rfl, absurd rfl, absurd rfl,
      fun _ ↦ absurd rfl⟩
  | comment hh =>
    subst hh
    refine take_isFront_of_inline (by simp [nul]) ⟨nofun, nofun⟩ (fun _ ↦ by decide) ?_
    rw [take_takeWhile]
    intro d hd
    have hp := List.mem_takeWhile_imp hd
    simpa [Inline] using hp
  | @int whole hd hparts hv =>
    obtain rfl := numberParts_whole hparts
    have hdp : isDigitPart c = true := by simp [isDigitPart, hd]
    refine take_isFront_of_inline (by simp [hdp]) ⟨nofun, nofun⟩ (fun _ ↦ ?_) ?_
    · rintro rfl
      exact absurd hd (by decide)
    · rw [take_takeWhile]
      exact fun d hd ↦ inline_of_isDigitPart (List.mem_takeWhile_imp hd)
  -- The point is the only character that is read and is in none of the two runs of digits.
  | @float whole fraction x hd hparts =>
    obtain rfl := numberParts_whole hparts
    obtain ⟨hp, hf⟩ := numberParts_fraction hparts
    have hread := List.prefix_iff_eq_take.mp hp
    rw [List.length_append, List.length_cons, ← Nat.add_assoc, Nat.add_right_comm] at hread
    refine take_isFront_of_inline (by omega) ⟨nofun, nofun⟩ (fun _ ↦ ?_) ?_
    · rintro rfl
      exact absurd hd (by decide)
    · rw [← hread]
      intro d hd
      obtain hd | hd := List.mem_append.mp hd
      · exact inline_of_isDigitPart (List.mem_takeWhile_imp hd)
      · obtain rfl | hd := List.mem_cons.mp hd
        · exact ⟨by decide, by decide⟩
        · exact inline_of_isDigitPart (hf d hd)
  | quoted hq hr =>
    obtain ⟨inner, rest', rfl, hn, hi, -⟩ := readQuoted_closed hr
    subst hq
    exact string_isFront (by omega) ⟨by decide, by decide⟩ (by decide) hi
  | raw hq hr =>
    obtain ⟨inner, rest', rfl, hn, hi, -⟩ := readRaw_closed hr
    subst hq
    exact string_isFront (by omega) ⟨by decide, by decide⟩ (by decide) hi
  | attr ha hn =>
    subst ha
    exact named_isFront true (fun _ ↦ ⟨nofun, nofun⟩) (by decide) ⟨by decide, by decide⟩
  | symbol hs hn =>
    subst hs
    exact named_isFront true (fun _ ↦ ⟨nofun, nofun⟩) (by decide) ⟨by decide, by decide⟩
  | colon hs =>
    subst hs
    refine take_isFront_of_inline (by omega) ⟨nofun, nofun⟩ (fun _ ↦ by decide) ?_
    simp [Inline, nul]
  | name hs =>
    have hcn := continuesName_of_startsName hs
    exact named_isFront true nameKind_ne (ne_return_of_continuesName hcn)
      (inline_of_continuesName hcn)
  | constant hu =>
    have hcn := continuesName_of_isUpper hu
    exact named_isFront false (fun _ ↦ ⟨nofun, nofun⟩) (ne_return_of_continuesName hcn)
      (inline_of_continuesName hcn)
  | @mark m hm =>
    have hread := mark_spelled hm
    obtain ⟨hlen, htext⟩ := mark_text_inline m
    refine take_isFront_of_inline hlen ⟨nofun, nofun⟩ (fun _ ↦ ?_) ?_
    · obtain ⟨k, hk⟩ : ∃ k, m.text.length = k + 1 := ⟨m.text.length - 1, by omega⟩
      have hmem : c ∈ (c :: rest).take m.text.length := by
        rw [hk, List.take_succ_cons]
        exact List.mem_cons_self
      rw [hread] at hmem
      exact (htext c hmem).2
    · rw [hread]
      exact fun d hd ↦ (htext d hd).1

end Quill.Token
