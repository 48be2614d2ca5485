import Quill.Proofs.Token.Bytes
import Quill.Proofs.Token.Place

/-!
# Reading byte by byte

A scan of bytes tests each of them as the character with its number, and goes on to the next column
at a byte that does not continue a character. Of a text it makes the tokens that are read from its
characters, at the same places: `Token.ofBytes_bytewise`. The byte offsets at which lines start part
its bytes as its line feeds do: `SourceFile.byteLine?_utf8`.
-/

namespace Quill

/-- A byte behind the first one of a character. -/
def isContinuation (b : UInt8) : Bool := b &&& 0xC0 == 0x80

theorem isContinuation_iff (b : UInt8) :
    isContinuation b = true ↔ 128 ≤ b.toNat ∧ b.toNat < 192 := by
  have hmask : ∀ n < 256, n &&& 192 = 128 ↔ 128 ≤ n ∧ n < 192 := by decide +kernel
  rw [isContinuation, beq_iff_eq, ← UInt8.toNat_inj, UInt8.toNat_and]
  exact hmask b.toNat b.toNat_lt

namespace Position

/-- The position after a byte, which is given as the character with its number. -/
def nextByte (p : Position) (b : Char) : Position :=
  if b = '\n' then ⟨p.line + 1, 1⟩
  else if isContinuation b.toUInt8 then p
  else ⟨p.line, p.column + 1⟩

def afterBytes (p : Position) (bs : List Char) : Position := bs.foldl nextByte p

theorem afterBytes_append (p : Position) (s t : List Char) :
    p.afterBytes (s ++ t) = (p.afterBytes s).afterBytes t := List.foldl_append

end Position

/-- What bytes are refused for where characters are refused for something. An unexpected character
is shown as a whole, which its first byte does not tell. -/
inductive LexFault.Bytewise : LexFault → LexFault → Prop
  | same (f : LexFault) : Bytewise f f
  | unexpectedCharacter (x y : String) :
    Bytewise (.unexpectedCharacter x) (.unexpectedCharacter y)
  | invalidEscape (e : Char) : Bytewise (.invalidEscape (LexFault.firstByte e)) (.invalidEscape e)

namespace Token

/-! ## Bytes as characters -/

def byteChar (b : UInt8) : Char := Char.ofNat b.toNat

/-- The bytes of a text, each as the character with its number. -/
def bytewise (text : List Char) : List Char := (utf8 text).map byteChar

@[simp] theorem bytewise_nil : bytewise [] = [] := rfl

theorem bytewise_append (s t : List Char) : bytewise (s ++ t) = bytewise s ++ bytewise t := by
  simp [bytewise]

theorem toNat_byteChar (b : UInt8) : (byteChar b).toNat = b.toNat := by
  rw [byteChar, Char.ofNat, dif_pos (.inl (b.toNat_lt.trans (by decide)))]
  rfl

theorem toUInt8_byteChar (b : UInt8) : (byteChar b).toUInt8 = b := by
  rw [← UInt8.toNat_inj]
  change (UInt8.ofNat (byteChar b).toNat).toNat = b.toNat
  rw [toNat_byteChar, UInt8.ofNat_toNat]

theorem bytewise_char (c : Char) (text : List Char) :
    bytewise (c :: text) = bytewise [c] ++ bytewise text := bytewise_append [c] text

variable {c : Char} {text front : List Char} {p : Char → Bool}

theorem IsAscii.bytewise (h : IsAscii c) : bytewise [c] = [c] := by
  have hchar : byteChar c.toUInt8 = c := by
    rw [← Char.toNat_inj, toNat_byteChar, h.toNat_toUInt8]
  rw [Token.bytewise, utf8_cons, utf8_nil, List.append_nil, h.utf8, List.map_singleton, hchar]

theorem bytewise_cons (h : IsAscii c) (text : List Char) :
    bytewise (c :: text) = c :: bytewise text := by
  rw [bytewise_char, h.bytewise, List.singleton_append]

theorem bytewise_of_ascii (h : ∀ c ∈ text, IsAscii c) : bytewise text = text := by
  induction text with
  | nil => rfl
  | cons c text ih =>
    obtain ⟨hc, htext⟩ := List.forall_mem_cons.mp h
    rw [bytewise_cons hc, ih htext]

theorem bytewise_front (h : ∀ c ∈ front, IsAscii c) (back : List Char) :
    bytewise (front ++ back) = front ++ bytewise back := by
  rw [bytewise_append, bytewise_of_ascii h]

/-- A character of several bytes: none of them is the byte of a character, and all but the first
continue it. -/
theorem bytewise_wide (h : ¬ IsAscii c) : ∃ d ds, bytewise [c] = d :: ds ∧
    (∀ e ∈ d :: ds, ¬ IsAscii e) ∧ isContinuation d.toUInt8 = false ∧
      ∀ e ∈ ds, isContinuation e.toUInt8 = true := by
  obtain ⟨b, bs, hbytes⟩ := List.exists_cons_of_ne_nil (String.utf8EncodeChar_ne_nil (c := c))
  have hwide : ∀ e ∈ String.utf8EncodeChar c, ¬ e.toNat < 128 := fun e he hlt ↦
    h ((utf8EncodeChar_of_mem he hlt).1.trans_lt hlt)
  have hkinds : isContinuation b = false ∧ ∀ e ∈ bs, isContinuation e = true := by
    have hcontinues (n : Nat) : isContinuation (UInt8.ofNat (n % 64 + 128)) = true := by
      rw [isContinuation_iff, UInt8.toNat_ofNat']
      omega
    have hstarts (n : Nat) (hn : 192 ≤ n) (hn' : n < 256) :
        isContinuation (UInt8.ofNat n) = false := by
      rw [Bool.eq_false_iff, ne_eq, isContinuation_iff, UInt8.toNat_ofNat']
      omega
    unfold String.utf8EncodeChar at hbytes
    dsimp only at hbytes
    split_ifs at hbytes with hone
    · exact absurd (Nat.lt_succ_of_le hone) h
    all_goals
      obtain ⟨rfl, rfl⟩ := List.cons.inj hbytes
      refine ⟨hstarts _ (by omega) (by omega), ?_⟩
      simp only [List.forall_mem_cons, hcontinues, true_and, List.not_mem_nil, false_implies,
        implies_true]
  refine ⟨byteChar b, bs.map byteChar, ?_, ?_, ?_, ?_⟩
  · rw [bytewise, utf8_cons, utf8_nil, List.append_nil, hbytes, List.map_cons]
  · rw [← List.map_cons, ← hbytes]
    rintro _ he
    obtain ⟨e, hmem, rfl⟩ := List.mem_map.mp he
    rw [IsAscii, toNat_byteChar]
    exact hwide e hmem
  · rw [toUInt8_byteChar]
    exact hkinds.1
  · rintro _ he
    obtain ⟨e, hmem, rfl⟩ := List.mem_map.mp he
    rw [toUInt8_byteChar]
    exact hkinds.2 e hmem

theorem bytewise_cons_cases (c : Char) (text : List Char) :
    (IsAscii c ∧ bytewise (c :: text) = c :: bytewise text) ∨
      ∃ d ds, bytewise (c :: text) = d :: ds ++ bytewise text ∧ ¬ IsAscii c ∧
        ∀ e ∈ d :: ds, ¬ IsAscii e := by
  by_cases hc : IsAscii c
  · exact .inl ⟨hc, bytewise_cons hc text⟩
  · obtain ⟨d, ds, hbytes, hwide, -, -⟩ := bytewise_wide hc
    exact .inr ⟨d, ds, by rw [bytewise_char, hbytes], hc, hwide⟩

theorem afterBytes_continuation {bs : List Char}
    (h : ∀ b ∈ bs, b ≠ '\n' ∧ isContinuation b.toUInt8 = true) (p : Position) :
    p.afterBytes bs = p := by
  induction bs with
  | nil => rfl
  | cons b bs ih =>
    obtain ⟨⟨hline, hcontinues⟩, hbs⟩ := List.forall_mem_cons.mp h
    have hstays : p.nextByte b = p := by
      rw [Position.nextByte, if_neg hline, if_pos hcontinues]
    exact (congrArg (Position.afterBytes · bs) hstays).trans (ih hbs)

/-- The first byte of a character is where the character is, and those behind it are too. -/
theorem afterBytes_char (p : Position) (c : Char) :
    p.afterBytes (bytewise [c]) = p.next c ∧
      ∀ d ds, bytewise [c] = d :: ds → p.nextByte d = p.next c := by
  by_cases hc : IsAscii c
  · have hno : isContinuation c.toUInt8 = false := by
      rw [Bool.eq_false_iff, ne_eq, isContinuation_iff, hc.toNat_toUInt8]
      have hlt : c.toNat < 128 := hc
      omega
    have hnext : p.nextByte c = p.next c := by
      rw [Position.nextByte, hno]
      rfl
    rw [hc.bytewise]
    refine ⟨hnext, ?_⟩
    rintro _ _ ⟨⟩
    exact hnext
  · obtain ⟨d, ds, hbytes, hwide, hd, hds⟩ := bytewise_wide hc
    have hline {e : Char} (he : ¬ IsAscii e) : e ≠ '\n' := by
      rintro rfl
      exact he (by decide)
    obtain ⟨hwide, hwides⟩ := List.forall_mem_cons.mp hwide
    have hnext : p.nextByte d = p.next c := by
      rw [Position.nextByte, if_neg (hline hwide), hd, Position.next, if_neg (hline hc)]
      rfl
    rw [hbytes]
    refine ⟨?_, ?_⟩
    · change (p.nextByte d).afterBytes ds = _
      rw [afterBytes_continuation fun e he ↦ ⟨hline (hwides e he), hds e he⟩, hnext]
    · rintro _ _ ⟨⟩
      exact hnext

theorem afterBytes_bytewise (p : Position) (text : List Char) :
    p.afterBytes (bytewise text) = p.after text := by
  induction text generalizing p with
  | nil => rfl
  | cons c text ih =>
    rw [bytewise_char, Position.afterBytes_append, ih, (afterBytes_char p c).1]
    rfl

/-! ## Tests that only characters of a single byte pass -/

def Narrow (p : Char → Bool) : Prop := ∀ c, p c = true → IsAscii c

theorem Narrow.eq_false (h : Narrow p) (hc : ¬ IsAscii c) : p c = false :=
  Bool.eq_false_iff.mpr fun hp ↦ hc (h c hp)

theorem Narrow.takeWhile_bytewise (h : Narrow p) (text : List Char) :
    (bytewise text).takeWhile p = text.takeWhile p := by
  induction text with
  | nil => rfl
  | cons c text ih =>
    obtain ⟨hc, hbytes⟩ | ⟨d, ds, hbytes, hc, hwide⟩ := bytewise_cons_cases c text
    · rw [hbytes, List.takeWhile_cons, List.takeWhile_cons, ih]
    · have hd : p d = false := h.eq_false (hwide d List.mem_cons_self)
      rw [hbytes, List.cons_append, List.takeWhile_cons_of_neg (Bool.eq_false_iff.mp hd),
        List.takeWhile_cons_of_neg (Bool.eq_false_iff.mp (h.eq_false hc))]

theorem Narrow.head_bytewise (h : Narrow p) (text : List Char) :
    (bytewise text).head?.any p = text.head?.any p := by
  cases text with
  | nil => rfl
  | cons c text =>
    obtain ⟨hc, hbytes⟩ | ⟨d, ds, hbytes, hc, hwide⟩ := bytewise_cons_cases c text
    · rw [hbytes]
      rfl
    · rw [hbytes]
      exact (h.eq_false (hwide d List.mem_cons_self)).trans (h.eq_false hc).symm

theorem Narrow.ascii_takeWhile (h : Narrow p) (text : List Char) :
    ∀ c ∈ text.takeWhile p, IsAscii c := fun c hc ↦ h c (List.mem_takeWhile_imp hc)

theorem take_drop_bytewise (n : Nat) (text : List Char) :
    (bytewise text).take (bytewise (text.take n)).length = bytewise (text.take n) ∧
      (bytewise text).drop (bytewise (text.take n)).length = bytewise (text.drop n) := by
  have hsplit : bytewise text = bytewise (text.take n) ++ bytewise (text.drop n) := by
    rw [← bytewise_append, List.take_append_drop]
  rw [hsplit]
  exact ⟨List.take_left, List.drop_left⟩

theorem Narrow.drop_bytewise (h : Narrow p) (text : List Char) :
    (bytewise text).drop (text.takeWhile p).length =
      bytewise (text.drop (text.takeWhile p).length) := by
  have hdrop := (take_drop_bytewise (text.takeWhile p).length text).2
  rwa [take_takeWhile, bytewise_of_ascii (h.ascii_takeWhile text)] at hdrop

theorem narrow_char (h : IsAscii c) : Narrow (· == c) := fun d hd ↦ by
  rwa [beq_iff_eq.mp hd]

theorem narrow_isSpace : Narrow isSpace := by
  intro c hc
  simp only [isSpace, Bool.or_eq_true, beq_iff_eq] at hc
  obtain (rfl | rfl) | rfl := hc <;> decide

theorem narrow_continuesName : Narrow continuesName := by
  intro c hc
  have below {d : Char} (hd : IsAscii d) (h : c.val ≤ d.val) : IsAscii c :=
    Nat.lt_of_le_of_lt (UInt32.le_iff_toNat_le.mp h) hd
  obtain hword | hline := Bool.or_eq_true_iff.mp hc
  · obtain hletter | hdigit := Bool.or_eq_true_iff.mp hword
    · obtain hupper | hlower := Bool.or_eq_true_iff.mp hletter
      · exact below (by decide) (of_decide_eq_true hupper).2
      · exact below (by decide) (of_decide_eq_true (Bool.and_eq_true_iff.mp hlower).2)
    · exact below (by decide) (of_decide_eq_true (Bool.and_eq_true_iff.mp hdigit).2)
  · obtain rfl := beq_iff_eq.mp hline
    decide

theorem narrow_isDigit : Narrow Char.isDigit := fun c hc ↦
  narrow_continuesName c (by simp [continuesName, Char.isAlphanum, hc])

theorem narrow_isUpper : Narrow Char.isUpper := fun c hc ↦
  narrow_continuesName c (continuesName_of_isUpper hc)

theorem narrow_isDigitPart : Narrow isDigitPart := fun c hc ↦ by
  obtain hdigit | hline := Bool.or_eq_true_iff.mp hc
  · exact narrow_isDigit c hdigit
  · obtain rfl := beq_iff_eq.mp hline
    decide

theorem narrow_startsName : Narrow startsName := fun c hc ↦
  narrow_continuesName c (continuesName_of_startsName hc)

/-! ## The parts of tokens -/

theorem nameSuffix_bytewise (text : List Char) : nameSuffix (bytewise text) = nameSuffix text := by
  have hequal : Narrow (· == '=') := narrow_char (by decide)
  cases text with
  | nil => rfl
  | cons c text =>
    obtain ⟨hc, hbytes⟩ | ⟨d, ds, hbytes, hc, hwide⟩ := bytewise_cons_cases c text
    · rw [hbytes, nameSuffix_cons, nameSuffix_cons, hequal.head_bytewise]
    · have hno {e : Char} {more : List Char} (he : ¬ IsAscii e) : nameSuffix (e :: more) = [] := by
        rw [nameSuffix_cons, if_neg]
        rintro (rfl | ⟨rfl, -⟩) <;> exact he (by decide)
      rw [hbytes, List.cons_append, hno (hwide d List.mem_cons_self), hno hc]

theorem nameLength_bytewise (suffixed : Bool) (text : List Char) :
    nameLength suffixed (bytewise text) = nameLength suffixed text := by
  unfold nameLength
  dsimp only
  rw [narrow_continuesName.takeWhile_bytewise, narrow_continuesName.drop_bytewise,
    nameSuffix_bytewise]

theorem ascii_name (suffixed : Bool) (text : List Char) :
    ∀ c ∈ text.take (nameLength suffixed text), IsAscii c := by
  have hword := narrow_continuesName.ascii_takeWhile text
  have hsuffix (rest : List Char) : ∀ c ∈ nameSuffix rest, IsAscii c := by
    unfold nameSuffix
    split <;> simp [IsAscii]
  unfold nameLength
  dsimp only
  split
  · rw [List.take_add, take_takeWhile, ← List.prefix_iff_eq_take.mp (nameSuffix_front _)]
    exact List.forall_mem_append.mpr ⟨hword, hsuffix _⟩
  · rwa [take_takeWhile]

theorem numberParts_bytewise (text : List Char) :
    numberParts (bytewise text) = numberParts text := by
  have hrun (more : List Char) : (bytewise more).takeWhile isDigitPart =
      more.takeWhile isDigitPart := narrow_isDigitPart.takeWhile_bytewise more
  have hdrop : (bytewise text).drop ((bytewise text).takeWhile isDigitPart).length =
      bytewise (text.drop (text.takeWhile isDigitPart).length) := by
    rw [hrun, narrow_isDigitPart.drop_bytewise]
  rw [numberParts_eq hdrop, numberParts_eq rfl, hrun]
  cases text.drop (text.takeWhile isDigitPart).length with
  | nil => rfl
  | cons c more =>
    obtain ⟨hc, hbytes⟩ | ⟨d, ds, hbytes, hc, hwide⟩ := bytewise_cons_cases c more
    · rw [hbytes, List.head?_cons, List.head?_cons, List.tail_cons, List.tail_cons, hrun,
        narrow_isDigit.head_bytewise]
    · have hno {e : Char} {rest : List Char} (he : ¬ IsAscii e) :
          (e :: rest).head? ≠ some '.' := by
        rintro ⟨⟩
        exact he (by decide)
      rw [hbytes, List.cons_append, if_neg fun h ↦ hno (hwide d List.mem_cons_self) h.1,
        if_neg fun h ↦ hno hc h.1]

theorem isPrefixOf_bytewise (h : ∀ c ∈ front, IsAscii c)
    (text : List Char) : front.isPrefixOf (bytewise text) = front.isPrefixOf text := by
  induction front generalizing text with
  | nil => rfl
  | cons a front ih =>
    obtain ⟨ha, hfront⟩ := List.forall_mem_cons.mp h
    cases text with
    | nil => rfl
    | cons c text =>
      obtain ⟨hc, hbytes⟩ | ⟨d, ds, hbytes, hc, hwide⟩ := bytewise_cons_cases c text
      · rw [hbytes, List.isPrefixOf, List.isPrefixOf, ih hfront]
      · have hno {e : Char} (he : ¬ IsAscii e) : (a == e) = false :=
          beq_eq_false_iff_ne.mpr fun heq ↦ he (heq ▸ ha)
        rw [hbytes, List.cons_append, List.isPrefixOf, List.isPrefixOf,
          hno (hwide d List.mem_cons_self), hno hc]
        rfl

theorem ascii_mark (m : Mark) : ∀ c ∈ m.text.toList, IsAscii c := by
  cases m <;> simp [Mark.text, IsAscii]

theorem marks_bytewise (text : List Char) (m : Mark) : marks (bytewise text) m = marks text m := by
  unfold marks
  rw [isPrefixOf_bytewise (ascii_mark m)]
  cases hm : m.text.toList.isPrefixOf text with
  | false => rfl
  | true =>
    cases hat : m != .minusAt with
    | true => rfl
    | false =>
      obtain rfl : m = .minusAt := bne_eq_false_iff_eq.mp hat
      obtain ⟨rest, rfl⟩ := List.isPrefixOf_iff_prefix.mp hm
      rw [bytewise_front (ascii_mark .minusAt)]
      exact congrArg (!·) (narrow_startsName.head_bytewise rest)

/-! ## Strings -/

theorem bytewise_ne {d : Char} (hd : IsAscii d) (h : c ≠ d) : ∀ b ∈ bytewise [c], b ≠ d := by
  rintro b hb rfl
  obtain ⟨hc, hbytes⟩ | ⟨e, es, hbytes, hc, hwide⟩ := bytewise_cons_cases c []
  · rw [hbytes, bytewise_nil, List.mem_singleton] at hb
    exact h hb.symm
  · rw [hbytes, bytewise_nil, List.append_nil] at hb
    exact hwide b hb hd

/-- How a quotation ends, when each byte is taken for a character. -/
def Quotation.bytewise (text : List Char) : Quotation → Quotation
  | .closed value n =>
    .closed (Token.bytewise value.reverse).reverse (Token.bytewise (text.take n)).length
  | .unterminated n => .unterminated (Token.bytewise (text.take n)).length
  | .invalidEscape n e =>
    .invalidEscape (Token.bytewise (text.take n)).length (LexFault.firstByte e)

theorem take_past (front back : List Char) (c : Char) :
    (front ++ c :: back).take (front.length + 1) = front ++ [c] := by
  rw [List.append_cons]
  exact take_of_append (by simp)

theorem length_bytewise_past (h : IsAscii c) (front : List Char) :
    (bytewise (front ++ [c])).length = (bytewise front).length + 1 := by
  rw [bytewise_append, h.bytewise, List.length_append, List.length_singleton]

theorem readQuoted_plain {bs : List Char} (h : ∀ b ∈ bs, b ≠ '"' ∧ b ≠ '\\' ∧ b ≠ nul)
    (value : List Char) (n : Nat) (rest : List Char) :
    readQuoted value n (bs ++ rest) = readQuoted (bs.reverse ++ value) (n + bs.length) rest := by
  induction bs generalizing value n with
  | nil => rfl
  | cons b bs ih =>
    obtain ⟨⟨hquote, hback, hnul⟩, hbs⟩ := List.forall_mem_cons.mp h
    rw [List.cons_append, readQuoted, if_neg hnul, ih hbs, List.reverse_cons, List.length_cons,
      List.append_assoc, List.singleton_append, Nat.add_right_comm, Nat.add_assoc]
    · exact hquote
    · exact fun hb ↦ absurd hb hback
    · exact fun _ _ hb ↦ absurd hb hback

theorem eq_of_mem_bytewise {d : Char} (hd : IsAscii d) (h : d ∈ bytewise [c]) : d = c := by
  by_contra hne
  exact bytewise_ne hd (Ne.symm hne) d h rfl

theorem bytewise_firstByte (c : Char) : ∃ ds, bytewise [c] = LexFault.firstByte c :: ds := by
  obtain ⟨b, bs, hbytes⟩ := List.exists_cons_of_ne_nil (String.utf8EncodeChar_ne_nil (c := c))
  refine ⟨bs.map byteChar, ?_⟩
  rw [bytewise, utf8_cons, utf8_nil, List.append_nil, LexFault.firstByte, hbytes]
  rfl

theorem readQuoted_bytewise (value front : List Char) {text : List Char} {n : Nat}
    (hn : n = front.length) :
    readQuoted (bytewise value.reverse).reverse (bytewise front).length (bytewise text) =
      (readQuoted value n text).bytewise (front ++ text) := by
  have hback : IsAscii '\\' := by decide
  have hnul : IsAscii nul := by decide
  fun_induction readQuoted value n text generalizing front with
  | case1 =>
    rw [hn, Quotation.bytewise, List.append_nil, List.take_length]
    rfl
  | case2 =>
    rw [hn, Quotation.bytewise, take_past, length_bytewise_past (by decide),
      bytewise_cons (by decide), readQuoted]
  | case3 =>
    rw [hn, Quotation.bytewise, take_past, length_bytewise_past hback, hback.bytewise]
    rfl
  | case4 value n rest =>
    rw [hn, Quotation.bytewise, take_past, length_bytewise_past hback, bytewise_cons hback,
      bytewise_cons hnul, readQuoted, if_pos rfl]
  | case5 value n e rest he v hv ih =>
    obtain ⟨hascii, hvalue, -⟩ := escape_ascii hv
    have hrest := ih (front ++ ['\\', e]) (by simp [hn])
    rw [List.append_assoc, List.cons_append, List.singleton_append] at hrest
    rw [← hrest, bytewise_cons hback, bytewise_cons hascii, readQuoted, if_neg he, hv]
    simp [bytewise_append, hvalue.bytewise, bytewise_cons hback, hascii.bytewise]
  -- No byte of a character without an escape has one.
  | case6 value n e rest he hv =>
    obtain ⟨ds, hbytes⟩ := bytewise_firstByte e
    have hmem : LexFault.firstByte e ∈ bytewise [e] := hbytes ▸ List.mem_cons_self
    have hnone : escapeValue (LexFault.firstByte e) = none := by
      by_contra hne
      obtain ⟨v, hsome⟩ := Option.ne_none_iff_exists'.mp hne
      rw [eq_of_mem_bytewise (escape_ascii hsome).1 hmem, hv] at hsome
      cases hsome
    have hno : LexFault.firstByte e ≠ nul := bytewise_ne hnul he _ hmem
    rw [hn, Quotation.bytewise, take_of_append rfl, bytewise_cons hback, bytewise_char,
      hbytes, List.cons_append, readQuoted, if_neg hno, hnone]
  | case7 =>
    rw [hn, Quotation.bytewise, take_of_append rfl, bytewise_cons hnul, readQuoted, if_pos rfl]
    · decide
    · exact fun hb ↦ absurd hb (by decide)
    · exact fun _ _ hb ↦ absurd hb (by decide)
  | case8 value n c rest hquote halone hescape hc ih =>
    have hbackslash : c ≠ '\\' := by
      rintro rfl
      cases rest with
      | nil => exact halone rfl rfl
      | cons e rest => exact hescape _ _ rfl rfl
    have hplain : ∀ b ∈ bytewise [c], b ≠ '"' ∧ b ≠ '\\' ∧ b ≠ nul := fun b hb ↦
      ⟨bytewise_ne (by decide) hquote b hb, bytewise_ne hback hbackslash b hb,
        bytewise_ne hnul hc b hb⟩
    have hrest := ih (front ++ [c]) (by simp [hn])
    rw [List.append_assoc, List.singleton_append] at hrest
    rw [← hrest, bytewise_char, readQuoted_plain hplain]
    simp [bytewise_append]

theorem readRaw_plain {bs : List Char} (h : ∀ b ∈ bs, b ≠ '\'' ∧ b ≠ '\\' ∧ b ≠ nul)
    (value : List Char) (n : Nat) (rest : List Char) :
    readRaw value n (bs ++ rest) = readRaw (bs.reverse ++ value) (n + bs.length) rest := by
  induction bs generalizing value n with
  | nil => rfl
  | cons b bs ih =>
    obtain ⟨⟨hquote, hback, hnul⟩, hbs⟩ := List.forall_mem_cons.mp h
    rw [List.cons_append, readRaw, if_neg hnul, ih hbs, List.reverse_cons, List.length_cons,
      List.append_assoc, List.singleton_append, Nat.add_right_comm, Nat.add_assoc]
    · exact hquote
    · exact fun _ hb ↦ absurd hb hback
    · exact fun _ hb ↦ absurd hb hback

theorem readRaw_backslash {rest : List Char} (hquote : rest.head?.any (· == '\'') = false)
    (hback : rest.head?.any (· == '\\') = false) (value : List Char) (n : Nat) :
    readRaw value n ('\\' :: rest) = readRaw ('\\' :: value) (n + 1) rest := by
  rw [readRaw, if_neg (by decide)]
  · decide
  · rintro more - rfl
    cases hquote
  · rintro more - rfl
    cases hback

theorem readRaw_bytewise (value front : List Char) {text : List Char} {n : Nat}
    (hn : n = front.length) :
    readRaw (bytewise value.reverse).reverse (bytewise front).length (bytewise text) =
      (readRaw value n text).bytewise (front ++ text) := by
  have hback : IsAscii '\\' := by decide
  have hquote : IsAscii '\'' := by decide
  have hnul : IsAscii nul := by decide
  fun_induction readRaw value n text generalizing front with
  | case1 =>
    rw [hn, Quotation.bytewise, List.append_nil, List.take_length]
    rfl
  | case2 =>
    rw [hn, Quotation.bytewise, take_past, length_bytewise_past hquote, bytewise_cons hquote,
      readRaw]
  | case3 value n rest ih =>
    have hrest := ih (front ++ ['\\', '\'']) (by simp [hn])
    rw [List.append_assoc, List.cons_append, List.singleton_append] at hrest
    rw [← hrest, bytewise_cons hback, bytewise_cons hquote, readRaw]
    simp [bytewise_append, bytewise_cons hback, hquote.bytewise]
  | case4 value n rest ih =>
    have hrest := ih (front ++ ['\\', '\\']) (by simp [hn])
    rw [List.append_assoc, List.cons_append, List.singleton_append] at hrest
    rw [← hrest, bytewise_cons hback, bytewise_cons hback, readRaw]
    simp [bytewise_append, bytewise_cons hback]
  | case5 =>
    rw [hn, Quotation.bytewise, take_of_append rfl, bytewise_cons hnul, readRaw, if_pos rfl]
    · decide
    · exact fun _ hb ↦ absurd hb (by decide)
    · exact fun _ hb ↦ absurd hb (by decide)
  | case6 value n c rest hquote hescape hescape' hc ih =>
    have hrest := ih (front ++ [c]) (by simp [hn])
    rw [List.append_assoc, List.singleton_append] at hrest
    rw [← hrest]
    by_cases hb : c = '\\'
    · subst hb
      have hno {d : Char} (hd : IsAscii d) (h : ∀ more, rest ≠ d :: more) :
          (bytewise rest).head?.any (· == d) = false := by
        rw [(narrow_char hd).head_bytewise]
        cases rest with
        | nil => rfl
        | cons e more => exact beq_eq_false_iff_ne.mpr fun he ↦ h more (by rw [he])
      rw [bytewise_cons hback, readRaw_backslash (hno (by decide) fun _ h ↦ hescape _ rfl h)
        (hno hback fun _ h ↦ hescape' _ rfl h)]
      simp [bytewise_append, hback.bytewise]
    · have hplain : ∀ b ∈ bytewise [c], b ≠ '\'' ∧ b ≠ '\\' ∧ b ≠ nul := fun b h ↦
        ⟨bytewise_ne (by decide) hquote b h, bytewise_ne hback hb b h, bytewise_ne hnul hc b h⟩
      rw [bytewise_char, readRaw_plain hplain]
      simp [bytewise_append]

/-! ## Tokens -/

/-- What a token is whose text is given by its bytes. -/
def Kind.bytewise : Kind → Kind
  | .str value => .str (String.ofList (Token.bytewise value.toList))
  | .comment text => .comment (String.ofList (Token.bytewise text.toList))
  | kind => kind

def Scanned.bytewise (s : Scanned) : Scanned :=
  ⟨s.kind.bytewise, Token.bytewise s.read, Token.bytewise s.rest⟩

/-- The failure `g` of the bytes is at the same place as that of the characters. -/
structure Failure.Bytewise (g f : Failure) : Prop where
  fault : g.fault.Bytewise f.fault
  before : g.before = Token.bytewise f.before
  read (p : Position) : p.afterBytes g.read = p.after f.read

/-- The scan of the bytes ends as that of the characters. -/
inductive SameScan : Except Failure Scanned → Except Failure Scanned → Prop
  | ok (s : Scanned) : SameScan (.ok s.bytewise) (.ok s)
  | error {g f : Failure} : g.Bytewise f → SameScan (.error g) (.error f)

namespace SameScan

variable {x x' y y' : Except Failure Scanned} {rest : List Char} {n : Nat}
  {kind : List Char → Kind}

theorem ite {P : Prop} [Decidable P] (ht : P → SameScan x x') (he : ¬ P → SameScan y y') :
    SameScan (if P then x else y) (if P then x' else y') := by
  by_cases h : P
  · rw [if_pos h, if_pos h]
    exact ht h
  · rw [if_neg h, if_neg h]
    exact he h

theorem take (h : ∀ c ∈ text.take n, IsAscii c)
    (hk : (kind (text.take n)).bytewise = kind (text.take n)) :
    SameScan (.ok (take n (bytewise text) kind)) (.ok (take n text kind)) := by
  have hbytes : (bytewise text).take n = text.take n ∧
      (bytewise text).drop n = bytewise (text.drop n) := by
    obtain hn | hn := Nat.le_total n text.length
    · obtain ⟨htake, hdrop⟩ := take_drop_bytewise n text
      rw [bytewise_of_ascii h, List.length_take_of_le hn] at htake hdrop
      exact ⟨htake, hdrop⟩
    · rw [List.take_of_length_le hn] at h
      rw [bytewise_of_ascii h, List.drop_of_length_le hn]
      exact ⟨rfl, rfl⟩
  have hsame : Token.take n (bytewise text) kind = (Token.take n text kind).bytewise := by
    rw [Token.take, Token.take, Scanned.bytewise, hbytes.1, hbytes.2, hk, bytewise_of_ascii h]
  rw [hsame]
  exact .ok _

theorem run (hp : Narrow p) (hk : (kind (text.takeWhile p)).bytewise = kind (text.takeWhile p)) :
    SameScan (.ok (Token.take (text.takeWhile p).length (bytewise text) kind))
      (.ok (Token.take (text.takeWhile p).length text kind)) := by
  refine take ?_ ?_
  · rw [take_takeWhile]
    exact hp.ascii_takeWhile text
  · rwa [take_takeWhile]

theorem name (hc : IsAscii c) (suffixed : Bool) (rest : List Char)
    (hk : ∀ read, (kind read).bytewise = kind read) :
    SameScan
      (.ok (Token.take (1 + nameLength suffixed (bytewise rest)) (bytewise (c :: rest)) kind))
      (.ok (Token.take (1 + nameLength suffixed rest) (c :: rest) kind)) := by
  rw [nameLength_bytewise]
  refine take ?_ (hk _)
  rw [Nat.add_comm, List.take_succ_cons]
  exact List.forall_mem_cons.mpr ⟨hc, ascii_name suffixed rest⟩

theorem refused (f : LexFault) (h : ∀ c ∈ text, IsAscii c) :
    SameScan (.error ⟨f, [], text⟩) (.error ⟨f, [], text⟩) :=
  .error ⟨.same f, rfl, fun p ↦ by
    rw [← afterBytes_bytewise, bytewise_of_ascii h]⟩

end SameScan

theorem scan_wide (h : ¬ IsAscii c) (rest : List Char) :
    scan c rest = .error ⟨.unexpectedCharacter (Text.escapeAlone c), [], [c]⟩ := by
  have hne {d : Char} (hd : IsAscii d) : ¬ c = d := by
    rintro rfl
    exact h hd
  have hno {p : Char → Bool} (hp : Narrow p) : ¬ p c = true := by
    rw [hp.eq_false h]
    exact Bool.false_ne_true
  have hmark : marksByLength.find? (marks (c :: rest)) = none := by
    refine List.find?_eq_none.mpr fun m _ hm ↦ ?_
    obtain ⟨more, htext⟩ := List.isPrefixOf_iff_prefix.mp (Bool.and_eq_true_iff.mp hm).1
    have hfirst : c ∈ m.text.toList := by
      have hlength := (mark_text_inline m).1
      rw [← String.length_toList] at hlength
      obtain ⟨d, ds, htoList⟩ := List.exists_cons_of_ne_nil (List.ne_nil_of_length_pos hlength)
      rw [htoList] at htext ⊢
      obtain ⟨rfl, -⟩ := List.cons.inj htext
      exact List.mem_cons_self
    exact h (ascii_mark m c hfirst)
  unfold scan
  dsimp only
  rw [if_neg (hno narrow_isSpace), if_neg (hne (by decide)), if_neg (hne (by decide)),
    if_neg (hno narrow_isDigit), if_neg (hne (by decide)), if_neg (hne (by decide)),
    if_neg (hne (by decide)), if_neg (hne (by decide)), if_neg (hno narrow_startsName),
    if_neg (hno narrow_isUpper), scanMark, hmark]

theorem scanNumber_bytewise (text : List Char) :
    SameScan (scanNumber (bytewise text)) (scanNumber text) := by
  unfold scanNumber
  rw [numberParts_bytewise]
  split
  · rename_i whole hparts
    obtain rfl := numberParts_whole hparts
    have hwhole := narrow_isDigitPart.ascii_takeWhile text
    dsimp only
    exact .ite (fun _ ↦ .run narrow_isDigitPart rfl) fun _ ↦ .refused _ hwhole
  · rename_i whole fraction hparts
    obtain rfl := numberParts_whole hparts
    obtain ⟨hfront, hfraction⟩ := numberParts_fraction hparts
    have hread := List.prefix_iff_eq_take.mp hfront
    rw [List.length_append, List.length_cons, ← Nat.add_assoc, Nat.add_right_comm] at hread
    refine .take ?_ rfl
    rw [← hread]
    refine List.forall_mem_append.mpr ⟨narrow_isDigitPart.ascii_takeWhile text,
      List.forall_mem_cons.mpr ⟨by decide, fun c hc ↦ narrow_isDigitPart c (hfraction c hc)⟩⟩

theorem scanString_bytewise (hc : IsAscii c) (rest : List Char) (q : Quotation) :
    SameScan (scanString (c :: bytewise rest) (q.bytewise rest)) (scanString (c :: rest) q) := by
  have htake (n : Nat) : (c :: bytewise rest).take ((bytewise (rest.take n)).length + 1) =
      bytewise ((c :: rest).take (n + 1)) := by
    rw [List.take_succ_cons, List.take_succ_cons, (take_drop_bytewise n rest).1, bytewise_cons hc]
  cases q with
  | closed value n =>
    have hsame : take ((bytewise (rest.take n)).length + 1) (c :: bytewise rest)
        (fun _ ↦ .str (String.ofList (bytewise value.reverse).reverse.reverse)) =
          (take (n + 1) (c :: rest) fun _ ↦ .str (String.ofList value.reverse)).bytewise := by
      rw [take, htake, List.drop_succ_cons, (take_drop_bytewise n rest).2, List.reverse_reverse]
      simp [Scanned.bytewise, take, Kind.bytewise]
    change SameScan (.ok (take _ _ _)) _
    rw [hsame]
    exact .ok _
  | unterminated n =>
    refine .error ⟨.same _, rfl, fun p ↦ ?_⟩
    dsimp only
    rw [htake, afterBytes_bytewise]
  | invalidEscape n e =>
    refine .error ⟨.invalidEscape e, htake n, fun p ↦ ?_⟩
    obtain ⟨ds, hbytes⟩ := bytewise_firstByte e
    change (p.nextByte '\\').nextByte (LexFault.firstByte e) = (p.next '\\').next e
    rw [(afterBytes_char p '\\').2 '\\' [] rfl, (afterBytes_char _ e).2 _ ds hbytes]

theorem scanMark_bytewise (hc : IsAscii c) (rest : List Char) :
    SameScan (scanMark c (c :: bytewise rest)) (scanMark c (c :: rest)) := by
  rw [← bytewise_cons hc]
  unfold scanMark
  rw [show marks (bytewise (c :: rest)) = marks (c :: rest) from funext (marks_bytewise _)]
  split
  · rename_i m hm
    have hread := mark_spelled hm
    refine .take ?_ rfl
    rw [hread]
    exact ascii_mark m
  · exact .refused _ (List.forall_mem_singleton.mpr hc)

theorem nameKind_bytewise (read : List Char) : (nameKind read).bytewise = nameKind read := by
  unfold nameKind
  dsimp only
  split <;> rfl

theorem takeWhile_bytewise (hp : ∀ c, ¬ IsAscii c → p c = true) (text : List Char) :
    (bytewise text).takeWhile p = bytewise (text.takeWhile p) := by
  induction text with
  | nil => rfl
  | cons c text ih =>
    by_cases hc : IsAscii c
    · rw [bytewise_cons hc, List.takeWhile_cons, List.takeWhile_cons, ih]
      split
      · rw [bytewise_cons hc]
      · rfl
    · obtain ⟨d, ds, hbytes, hwide, -, -⟩ := bytewise_wide hc
      rw [bytewise_char, List.takeWhile_append_of_pos, List.takeWhile_cons_of_pos (hp c hc), ih,
        bytewise_char c (text.takeWhile p)]
      rw [hbytes]
      exact fun e he ↦ hp e (hwide e he)

theorem comment_bytewise (text : List Char) :
    SameScan
      (.ok (take ((bytewise text).takeWhile fun d ↦ d != '\n' && d != nul).length (bytewise text)
        fun read ↦ .comment (String.ofList read)))
      (.ok (take (text.takeWhile fun d ↦ d != '\n' && d != nul).length text
        fun read ↦ .comment (String.ofList read))) := by
  have hrun : (bytewise text).takeWhile (fun d ↦ d != '\n' && d != nul) =
      bytewise (text.takeWhile fun d ↦ d != '\n' && d != nul) := by
    refine takeWhile_bytewise (fun c hc ↦ ?_) text
    have hne {d : Char} (hd : IsAscii d) : c ≠ d := by
      rintro rfl
      exact hc hd
    simp [hne (show IsAscii '\n' by decide), hne (show IsAscii nul by decide)]
  obtain ⟨htake, hdrop⟩ :=
    take_drop_bytewise (text.takeWhile fun d ↦ d != '\n' && d != nul).length text
  rw [take_takeWhile] at htake hdrop
  have hsame : take ((bytewise text).takeWhile fun d ↦ d != '\n' && d != nul).length
      (bytewise text) (fun read ↦ .comment (String.ofList read)) =
        (take (text.takeWhile fun d ↦ d != '\n' && d != nul).length text
          fun read ↦ .comment (String.ofList read)).bytewise := by
    rw [hrun, take, htake, hdrop]
    simp [Scanned.bytewise, take, Kind.bytewise, take_takeWhile]
  rw [hsame]
  exact .ok _

theorem scan_bytewise {d : Char} {ds rest : List Char} (h : bytewise (c :: rest) = d :: ds) :
    SameScan (scan d ds) (scan c rest) := by
  by_cases hc : IsAscii c
  · have hone : ∀ e ∈ (c :: rest).take 1, IsAscii e := List.forall_mem_singleton.mpr hc
    have hquoted : readQuoted [] 0 (bytewise rest) = (readQuoted [] 0 rest).bytewise rest :=
      readQuoted_bytewise [] [] rfl
    have hraw : readRaw [] 0 (bytewise rest) = (readRaw [] 0 rest).bytewise rest :=
      readRaw_bytewise [] [] rfl
    have hstring (q : Quotation) :
        SameScan (scanString (bytewise (c :: rest)) (q.bytewise rest))
          (scanString (c :: rest) q) := by
      rw [bytewise_cons hc]
      exact scanString_bytewise hc rest q
    have halpha : Narrow fun d ↦ d.isAlpha || d == '_' := fun c hc ↦
      narrow_continuesName c (by
        obtain hc | hc := Bool.or_eq_true_iff.mp hc <;> simp [continuesName, Char.isAlphanum, hc])
    rw [bytewise_cons hc] at h
    obtain ⟨rfl, rfl⟩ := List.cons.inj h
    unfold scan
    rw [← bytewise_cons hc]
    dsimp only
    refine .ite (fun _ ↦ ?_) fun _ ↦ .ite (fun _ ↦ .take hone rfl) fun _ ↦
      .ite (fun _ ↦ comment_bytewise _) fun _ ↦ .ite (fun _ ↦ scanNumber_bytewise _) fun _ ↦
      .ite (fun _ ↦ ?_) fun _ ↦ .ite (fun _ ↦ ?_) fun _ ↦ .ite (fun _ ↦ ?_) fun _ ↦
      .ite (fun _ ↦ ?_) fun _ ↦ .ite (fun _ ↦ .name hc true rest nameKind_bytewise) fun _ ↦
      .ite (fun _ ↦ .name hc false rest fun _ ↦ rfl) fun _ ↦ ?_
    · rw [narrow_isSpace.takeWhile_bytewise]
      exact .run narrow_isSpace rfl
    · rw [hquoted]
      exact hstring _
    · rw [hraw]
      exact hstring _
    · rw [narrow_startsName.head_bytewise]
      exact .ite (fun _ ↦ .name hc true rest fun _ ↦ rfl) fun _ ↦
        .refused _ (List.forall_mem_singleton.mpr (by decide))
    · rw [halpha.head_bytewise]
      exact .ite (fun _ ↦ .name hc true rest fun _ ↦ rfl) fun _ ↦ .take hone rfl
    · rw [bytewise_cons hc]
      exact scanMark_bytewise hc rest
  · obtain ⟨e, es, hbytes, hwide, -, -⟩ := bytewise_wide hc
    rw [bytewise_char, hbytes] at h
    obtain ⟨rfl, -⟩ := List.cons.inj h
    rw [scan_wide hc, scan_wide (hwide e List.mem_cons_self)]
    exact .error ⟨.unexpectedCharacter _ _, rfl, fun p ↦ (afterBytes_char p c).2 e es hbytes⟩

/-! ## The tokens of a text -/

def encoded (t : Token) : Token :=
  ⟨t.kind.bytewise, String.ofList (bytewise t.lexeme.toList), t.span⟩

/-- Adds the tokens of bytes, as `scanAll` does those of a text. -/
def scanBytes (done : Array Token) (p : Position) : Nat → List Char → Stream
  | 0, _ => ⟨done, none⟩
  | _ + 1, [] => ⟨done.push ⟨.eof, "", .point p⟩, none⟩
  | fuel + 1, b :: rest =>
    if b = nul then ⟨done.push ⟨.eof, "", .point p⟩, none⟩
    else match scan b rest with
      | .ok s => scanBytes
          (done.push ⟨s.kind, String.ofList s.read, ⟨p, (p.afterBytes s.read).back⟩⟩)
          (p.afterBytes s.read) fuel s.rest
      | .error f =>
        let first := p.afterBytes f.before
        ⟨done, some ⟨f.fault, ⟨first, (first.afterBytes f.read).back⟩⟩⟩

def ofBytes (bs : List UInt8) : Stream :=
  scanBytes #[] .start (bs.length + 1) (bs.map byteChar)

/-- The tokens of bytes are those of characters, at the same places, and so is the error. -/
structure Stream.Bytewise (x y : Stream) : Prop where
  tokens : x.tokens = y.tokens.map encoded
  error : x.error = none ∧ y.error = none ∨
    ∃ g f, x.error = some g ∧ y.error = some f ∧ g.fault.Bytewise f.fault ∧ g.span = f.span

theorem scanBytes_bytewise (done : Array Token) (p : Position) (fuel : Nat) (text : List Char) :
    Stream.Bytewise (scanBytes (done.map encoded) p fuel (bytewise text))
      (scanAll done p fuel text) := by
  induction fuel generalizing done p text with
  | zero => exact ⟨rfl, .inl ⟨rfl, rfl⟩⟩
  | succ fuel ih =>
    have hend : Stream.Bytewise ⟨(done.map encoded).push ⟨.eof, "", .point p⟩, none⟩
        ⟨done.push ⟨.eof, "", .point p⟩, none⟩ :=
      ⟨by simp [encoded, Kind.bytewise], .inl ⟨rfl, rfl⟩⟩
    cases text with
    | nil => exact hend
    | cons c rest =>
      obtain ⟨more, hmore⟩ := bytewise_firstByte c
      have hbytes : bytewise (c :: rest) = LexFault.firstByte c :: (more ++ bytewise rest) := by
        rw [bytewise_char, hmore, List.cons_append]
      have hnul : LexFault.firstByte c = nul ↔ c = nul := by
        constructor
        · intro hfirst
          exact (eq_of_mem_bytewise (by decide) (by rw [hmore, hfirst]; simp)).symm
        · rintro rfl
          decide
      have hscan := scan_bytewise hbytes
      rw [hbytes, scanBytes, scanAll]
      by_cases hc : c = nul
      · rw [if_pos (hnul.mpr hc), if_pos hc]
        exact hend
      rw [if_neg (mt hnul.mp hc), if_neg hc]
      generalize scan (LexFault.firstByte c) (more ++ bytewise rest) = x at hscan
      generalize scan c rest = y at hscan
      cases hscan with
      | ok s =>
        have hrest := ih (done.push ⟨s.kind, String.ofList s.read, .ofText p s.read⟩)
          (p.after s.read) s.rest
        rw [Array.map_push] at hrest
        dsimp only [Scanned.bytewise]
        rw [afterBytes_bytewise]
        simpa [encoded, Span.ofText] using hrest
      | @error g f hfailure =>
        refine ⟨rfl, .inr ⟨_, _, rfl, rfl, hfailure.fault, ?_⟩⟩
        dsimp only [Span.ofText]
        rw [hfailure.before, afterBytes_bytewise, hfailure.read]

theorem scanAll_fuel (text : String) {fuel : Nat} (h : text.toList.length < fuel) :
    scanAll #[] .start fuel text.toList = ofText text := by
  obtain ⟨ts, e, hscan, hts⟩ := scanAll_tokenizes #[] .start h
  obtain ⟨us, e', htext, hus⟩ := ofText_tokenizes text
  obtain ⟨rfl, rfl⟩ := hts.unique hus
  rw [hscan, htext, Array.empty_append]

theorem length_le_utf8 (text : List Char) : text.length ≤ (utf8 text).length := by
  induction text with
  | nil => exact Nat.le_refl 0
  | cons c text ih =>
    have hpos := List.length_pos_iff.mpr (String.utf8EncodeChar_ne_nil (c := c))
    rw [utf8_cons, List.length_cons, List.length_append]
    omega

theorem ofBytes_bytewise (text : String) :
    (ofBytes text.toByteArray.data.toList).Bytewise (ofText text) := by
  have hscan := scanBytes_bytewise #[] .start ((utf8 text.toList).length + 1) text.toList
  rw [Array.map_empty, scanAll_fuel text (Nat.lt_succ_of_le (length_le_utf8 text.toList))] at hscan
  rwa [toByteArray_utf8]

end Token

namespace SourceFile

open Token

/-- Where lines start behind a line feed, in bytes that are at offset `i`. -/
def startsBehind (i : Nat) : List UInt8 → List Nat
  | [] => []
  | b :: bs =>
    if b = '\n'.toUInt8 then (i + 1) :: startsBehind (i + 1) bs else startsBehind (i + 1) bs

/-- The bytes from the start of a line up to the line feed before the next one. -/
def slice? (bs : List UInt8) (starts : List Nat) (n : Nat) : Option (List UInt8) :=
  starts[n]?.map fun start ↦ (bs.take ((starts[n + 1]?.map (· - 1)).getD bs.length)).drop start

def byteLine? (bs : List UInt8) (n : Nat) : Option (List UInt8) :=
  slice? bs (0 :: startsBehind 0 bs) n

theorem startsBehind_append {line : List Char} (h : '\n' ∉ line) (i : Nat) (bs : List UInt8) :
    startsBehind i (utf8 line ++ bs) = startsBehind (i + (utf8 line).length) bs := by
  have hbytes : ∀ b ∈ utf8 line, b ≠ '\n'.toUInt8 := fun b hb ↦ by
    obtain ⟨c, hc, hb⟩ := List.mem_flatMap.mp hb
    exact IsAscii.not_mem (by decide) (by rintro rfl; exact h hc) b hb
  generalize utf8 line = front at hbytes
  induction front generalizing i with
  | nil => rfl
  | cons b front ih =>
    obtain ⟨hb, hfront⟩ := List.forall_mem_cons.mp hbytes
    rw [List.cons_append, startsBehind, if_neg hb, ih _ hfront, List.length_cons, Nat.add_assoc,
      Nat.add_comm 1]

theorem splitLines_single {line : List Char} (h : '\n' ∉ line) : splitLines line = [line] := by
  induction line with
  | nil => rfl
  | cons c line ih =>
    obtain ⟨hc, hline⟩ := not_or.mp (mt List.mem_cons.mpr h)
    change consLine c (splitLines line) = _
    rw [ih hline, consLine, if_neg (Ne.symm hc)]

theorem slice_middle (before middle after : List UInt8) :
    ((before ++ (middle ++ after)).take (before.length + middle.length)).drop before.length =
      middle := by
  rw [← List.append_assoc, List.take_left' List.length_append, List.drop_left]

theorem slice?_utf8 (before : List UInt8) (text : List Char) (n : Nat) :
    slice? (before ++ utf8 text) (before.length :: startsBehind before.length (utf8 text)) n =
      (splitLines text)[n]?.map utf8 := by
  induction h : text.count '\n' generalizing before text n with
  | zero =>
    have hline : '\n' ∉ text := List.count_eq_zero.mp h
    have hstarts := startsBehind_append hline before.length []
    rw [List.append_nil] at hstarts
    rw [hstarts, splitLines_single hline]
    cases n with
    | zero => simpa [slice?, startsBehind] using slice_middle before (utf8 text) []
    | succ n => rfl
  | succ k ih =>
    have hmem : '\n' ∈ text := List.count_pos_iff.mp (by omega)
    obtain ⟨line, rest, rfl, hline⟩ := List.eq_append_cons_of_mem hmem
    have hnewline : IsAscii '\n' := by decide
    have hbytes : utf8 (line ++ '\n' :: rest) = utf8 line ++ '\n'.toUInt8 :: utf8 rest := by
      rw [utf8_append, utf8_cons, hnewline.utf8, List.singleton_append]
    rw [hbytes, startsBehind_append hline, startsBehind, if_pos rfl, splitLines_append_newline,
      splitLines_single hline]
    cases n with
    | zero => simpa [slice?] using slice_middle before (utf8 line) ('\n'.toUInt8 :: utf8 rest)
    | succ n =>
      have hcount : rest.count '\n' = k := by
        simpa [List.count_eq_zero.mpr hline] using h
      have hrest := ih (before ++ (utf8 line ++ ['\n'.toUInt8])) rest n hcount
      simpa [slice?, Nat.add_assoc] using hrest

theorem byteLine?_utf8 (text : String) (n : Nat) :
    byteLine? text.toByteArray.data.toList n = (splitLines text.toList)[n]?.map utf8 := by
  rw [toByteArray_utf8]
  exact slice?_utf8 [] text.toList n

end SourceFile

end Quill
