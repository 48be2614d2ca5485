import Quill.Proofs.Token.Classes

/-!
# The bytes of strings

A string literal read byte by byte. The bytes of a character of several bytes are none that end a
string or start an escape, so they come through together, and what is put aside is the bytes of a
text. Main statements: `bufferQuoted_utf8` and `bufferRaw_utf8`.
-/

namespace Quill.Token

def utf8 (text : List Char) : List UInt8 := text.flatMap String.utf8EncodeChar

@[simp] theorem utf8_nil : utf8 [] = [] := rfl

@[simp] theorem utf8_cons (c : Char) (text : List Char) :
    utf8 (c :: text) = String.utf8EncodeChar c ++ utf8 text := rfl

@[simp] theorem utf8_append (s t : List Char) : utf8 (s ++ t) = utf8 s ++ utf8 t :=
  List.flatMap_append

theorem toByteArray_utf8 (text : String) : text.toByteArray.data.toList = utf8 text.toList := by
  rw [← String.utf8Encode_toList, List.utf8Encode, List.data_toByteArray]
  rfl

/-- How the bytes behind an opening quote end. -/
inductive Buffered where
  /-- With a quotation mark: the bytes that were put aside, and those behind the mark. -/
  | closed (buffer rest : List UInt8)
  /-- With the end of the source. -/
  | unterminated
  /-- With a backslash before a byte that has no escape. -/
  | invalidEscape (escaped : UInt8)

/-- The letters of escapes between double quotes, with what they stand for. -/
def escapes : List (Char × Char) :=
  [('n', '\n'), ('t', '\t'), ('r', '\r'), ('0', '\x00'), ('e', '\x1b'), ('\\', '\\'), ('"', '"')]

/-- What a byte stands for after a backslash between double quotes. -/
def escapeByte (b : UInt8) : Option UInt8 :=
  escapes.findSome? fun p ↦ if b = p.1.toUInt8 then some p.2.toUInt8 else none

/-- Puts bytes aside up to a double quote; backslashes start escapes. -/
def bufferQuoted (buffer : List UInt8) : List UInt8 → Buffered
  | [] => .unterminated
  | b :: rest =>
    if b = nul.toUInt8 then .unterminated
    else if b = '"'.toUInt8 then .closed buffer rest
    else if b = '\\'.toUInt8 then
      match rest with
      | [] => .unterminated
      | e :: rest =>
        if e = nul.toUInt8 then .unterminated
        else match escapeByte e with
          | some v => bufferQuoted (buffer ++ [v]) rest
          | none => .invalidEscape e
    else bufferQuoted (buffer ++ [b]) rest

/-- Puts bytes aside up to a single quote; a backslash counts only before a quote or another
backslash. -/
def bufferRaw (buffer : List UInt8) : List UInt8 → Buffered
  | [] => .unterminated
  | b :: rest =>
    if b = nul.toUInt8 then .unterminated
    else if b = '\''.toUInt8 then .closed buffer rest
    else match rest with
      | [] => .unterminated
      | e :: more =>
        if b = '\\'.toUInt8 ∧ (e = '\''.toUInt8 ∨ e = '\\'.toUInt8) then
          bufferRaw (buffer ++ [e]) more
        else bufferRaw (buffer ++ [b]) (e :: more)

/-- The bytes of a text at a quotation mark. -/
def bufferString? : List UInt8 → Option Buffered
  | [] => none
  | b :: rest =>
    if b = '"'.toUInt8 then some (bufferQuoted [] rest)
    else if b = '\''.toUInt8 then some (bufferRaw [] rest)
    else none

theorem utf8EncodeChar_of_mem {c : Char} {b : UInt8} (h : b ∈ String.utf8EncodeChar c)
    (hb : b.toNat < 128) : c.toNat = b.toNat ∧ String.utf8EncodeChar c = [b] := by
  have hval : c.val.toNat = c.toNat := rfl
  unfold String.utf8EncodeChar at h ⊢
  rw [hval] at h ⊢
  dsimp only at h ⊢
  split_ifs at h ⊢ with h1 h2 h3 <;> simp only [List.mem_cons, List.not_mem_nil, or_false] at h
  · subst h
    rw [UInt8.toNat_ofNat']
    exact ⟨by omega, rfl⟩
  all_goals
    have hbig : 128 ≤ b.toNat := by
      rcases h with rfl | rfl | rfl | rfl <;> simp <;> omega
    omega

def IsAscii (c : Char) : Prop := c.toNat < 128

instance (c : Char) : Decidable (IsAscii c) := inferInstanceAs (Decidable (c.toNat < 128))

theorem IsAscii.toNat_toUInt8 {c : Char} (h : IsAscii c) : c.toUInt8.toNat = c.toNat := by
  unfold IsAscii at h
  change (UInt8.ofNat c.toNat).toNat = c.toNat
  rw [UInt8.toNat_ofNat']
  omega

theorem IsAscii.utf8 {c : Char} (h : IsAscii c) : String.utf8EncodeChar c = [c.toUInt8] := by
  have hsize : c.utf8Size = 1 :=
    Char.utf8Size_eq_one_iff.mpr (UInt32.le_iff_toNat_le.mpr (Nat.le_of_lt_succ h))
  rw [String.utf8EncodeChar_eq_singleton hsize, Char.toUInt8_val]

theorem IsAscii.eq_of_mem {c d : Char} (hd : IsAscii d) (h : d.toUInt8 ∈ String.utf8EncodeChar c) :
    c = d := by
  have hbyte := hd.toNat_toUInt8
  have hc := (utf8EncodeChar_of_mem h (hbyte.trans_lt hd)).1
  exact Char.toNat_inj.mp (hc.trans hbyte)

theorem IsAscii.not_mem {c d : Char} (hd : IsAscii d) (h : c ≠ d) :
    ∀ b ∈ String.utf8EncodeChar c, b ≠ d.toUInt8 := by
  rintro b hb rfl
  exact h (hd.eq_of_mem hb)

theorem bufferQuoted_cons {b : UInt8} (hb : b ≠ '\\'.toUInt8) (buffer rest : List UInt8) :
    bufferQuoted buffer (b :: rest) =
      if b = nul.toUInt8 then .unterminated
      else if b = '"'.toUInt8 then .closed buffer rest
      else bufferQuoted (buffer ++ [b]) rest := by
  rw [bufferQuoted.eq_def]
  dsimp only
  rw [if_neg hb]

theorem bufferQuoted_plain {bs : List UInt8} (buffer rest : List UInt8)
    (h : ∀ b ∈ bs, b ≠ nul.toUInt8 ∧ b ≠ '"'.toUInt8 ∧ b ≠ '\\'.toUInt8) :
    bufferQuoted buffer (bs ++ rest) = bufferQuoted (buffer ++ bs) rest := by
  induction bs generalizing buffer with
  | nil => rw [List.append_nil, List.nil_append]
  | cons b bs ih =>
    obtain ⟨⟨hnul, hquote, hback⟩, hbs⟩ := List.forall_mem_cons.mp h
    rw [List.cons_append, bufferQuoted_cons hback, if_neg hnul, if_neg hquote, ih _ hbs,
      List.append_assoc, List.singleton_append]

theorem bufferQuoted_char {c : Char} (hquote : c ≠ '"') (hback : c ≠ '\\') (hnul : c ≠ nul)
    (buffer rest : List UInt8) : bufferQuoted buffer (String.utf8EncodeChar c ++ rest) =
      bufferQuoted (buffer ++ String.utf8EncodeChar c) rest :=
  bufferQuoted_plain buffer rest fun b hb ↦
    ⟨IsAscii.not_mem (by decide) hnul b hb, IsAscii.not_mem (by decide) hquote b hb,
      IsAscii.not_mem (by decide) hback b hb⟩

theorem escape_ascii {e v : Char} (h : escapeValue e = some v) :
    IsAscii e ∧ IsAscii v ∧ e.toUInt8 ≠ nul.toUInt8 ∧ escapeByte e.toUInt8 = some v.toUInt8 := by
  unfold escapeValue at h
  split at h <;> cases h <;> decide

theorem bufferQuoted_escape {e v : Char} (h : escapeValue e = some v) (buffer rest : List UInt8) :
    bufferQuoted buffer (utf8 ['\\', e] ++ rest) =
      bufferQuoted (buffer ++ String.utf8EncodeChar v) rest := by
  obtain ⟨he, hv, hnul, hvalue⟩ := escape_ascii h
  have hback : IsAscii '\\' := by decide
  rw [utf8_cons, utf8_cons, utf8_nil, hback.utf8, he.utf8, hv.utf8]
  change bufferQuoted buffer ('\\'.toUInt8 :: e.toUInt8 :: rest) = _
  rw [bufferQuoted, if_neg (by decide), if_neg (by decide), if_pos rfl, if_neg hnul, hvalue]

theorem Unescapes.bufferQuoted {inner value : List Char} (h : Unescapes inner value)
    (rest : List Char) (buffer : List UInt8) :
    bufferQuoted buffer (utf8 (inner ++ '"' :: rest)) =
      .closed (buffer ++ utf8 value) (utf8 rest) := by
  induction h generalizing buffer with
  | nil =>
    have hquote : IsAscii '"' := by decide
    rw [List.nil_append, utf8_cons, hquote.utf8, utf8_nil, List.append_nil, List.singleton_append,
      bufferQuoted_cons (by decide), if_neg (by decide), if_pos rfl]
  | plain hquote hback hnul _ ih =>
    rw [List.cons_append, utf8_cons, bufferQuoted_char hquote hback hnul, ih, utf8_cons,
      List.append_assoc]
  | @escape e v inner value he _ ih =>
    have hsplit : utf8 ('\\' :: e :: inner ++ '"' :: rest) =
        utf8 ['\\', e] ++ utf8 (inner ++ '"' :: rest) := utf8_append ['\\', e] _
    rw [hsplit, bufferQuoted_escape he, ih, utf8_cons, List.append_assoc]

theorem escapeByte_of_mem {e : Char} {b v : UInt8} (hb : b ∈ String.utf8EncodeChar e)
    (h : escapeByte b = some v) : (escapeValue e).isSome = true := by
  have hknown : ∀ p ∈ escapes, IsAscii p.1 ∧ (escapeValue p.1).isSome = true := by decide
  obtain ⟨p, hp, hvalue⟩ := List.exists_of_findSome?_eq_some h
  obtain ⟨hascii, hsome⟩ := hknown p hp
  split at hvalue
  · rename_i heq
    obtain rfl := hascii.eq_of_mem (heq ▸ hb)
    exact hsome
  · cases hvalue

/-- How a quotation ends, in the bytes of a text. -/
def Quotation.buffered (text : List Char) : Quotation → Buffered
  | .closed value length => .closed (utf8 value.reverse) (utf8 (text.drop length))
  | .unterminated _ => .unterminated
  | .invalidEscape _ e => .invalidEscape ((String.utf8EncodeChar e).headD 0)

theorem bufferQuoted_invalid {e : Char} (hnul : e ≠ nul) (h : escapeValue e = none)
    (buffer : List UInt8) (rest : List Char) :
    bufferQuoted buffer (utf8 ('\\' :: e :: rest)) =
      .invalidEscape ((String.utf8EncodeChar e).headD 0) := by
  have hback : IsAscii '\\' := by decide
  obtain ⟨b, bs, hbytes⟩ := List.exists_cons_of_ne_nil (String.utf8EncodeChar_ne_nil (c := e))
  have hmem : b ∈ String.utf8EncodeChar e := hbytes ▸ List.mem_cons_self
  have hb : b ≠ nul.toUInt8 := IsAscii.not_mem (by decide) hnul b hmem
  have hvalue : escapeByte b = none := by
    by_contra hne
    obtain ⟨v, hv⟩ := Option.ne_none_iff_exists'.mp hne
    have hsome := escapeByte_of_mem hmem hv
    rw [h] at hsome
    cases hsome
  rw [utf8_cons, utf8_cons, hback.utf8, hbytes, List.singleton_append, List.cons_append,
    bufferQuoted, if_neg (by decide), if_neg (by decide), if_pos rfl, if_neg hb, hvalue]
  rfl

theorem bufferQuoted_open {value text : List Char} {n : Nat}
    (h : ∀ value' m, readQuoted value n text ≠ .closed value' m) (buffer : List UInt8)
    (whole : List Char) :
    bufferQuoted buffer (utf8 text) = (readQuoted value n text).buffered whole := by
  have hback : IsAscii '\\' := by decide
  have hnul : IsAscii nul := by decide
  fun_induction readQuoted value n text generalizing buffer with
  | case1 => rfl
  | case2 => exact absurd rfl (h _ _)
  | case3 =>
    rw [utf8_cons, hback.utf8]
    rfl
  | case4 value n rest =>
    rw [utf8_cons, utf8_cons, hback.utf8, hnul.utf8, List.singleton_append, List.singleton_append,
      bufferQuoted, if_neg (by decide), if_neg (by decide), if_pos rfl, if_pos rfl]
    rfl
  -- An escape is two bytes that stand for one, whatever comes behind it.
  | case5 value n e rest he v hv ih =>
    have hsplit : utf8 ('\\' :: e :: rest) = utf8 ['\\', e] ++ utf8 rest :=
      utf8_append ['\\', e] rest
    rw [hsplit, bufferQuoted_escape hv]
    exact ih h _
  | case6 value n e rest he hv =>
    exact bufferQuoted_invalid he hv buffer rest
  | case7 =>
    rw [utf8_cons, hnul.utf8, List.singleton_append, bufferQuoted_cons (by decide), if_pos rfl]
    rfl
  | case8 value n c rest hquote halone hescape hc ih =>
    have hbackslash : c ≠ '\\' := by
      rintro rfl
      cases rest with
      | nil => exact halone rfl rfl
      | cons e rest => exact hescape _ _ rfl rfl
    rw [utf8_cons, bufferQuoted_char hquote hbackslash hc]
    exact ih h _

theorem bufferQuoted_utf8 (text : List Char) :
    bufferQuoted [] (utf8 text) = (readQuoted [] 0 text).buffered text := by
  by_cases h : ∃ value m, readQuoted [] 0 text = .closed value m
  · obtain ⟨value, m, hclosed⟩ := h
    obtain ⟨inner, read, rest, rfl, rfl, rfl, hread⟩ := readQuoted_unescapes hclosed
    rw [hclosed, hread.bufferQuoted, Quotation.buffered]
    simp
  · exact bufferQuoted_open (fun value m hclosed ↦ h ⟨value, m, hclosed⟩) [] text

theorem bufferRaw_cons {b : UInt8} (hb : b ≠ '\\'.toUInt8) (buffer rest : List UInt8) :
    bufferRaw buffer (b :: rest) =
      if b = nul.toUInt8 then .unterminated
      else if b = '\''.toUInt8 then .closed buffer rest
      else bufferRaw (buffer ++ [b]) rest := by
  rw [bufferRaw.eq_def]
  cases rest with
  | nil => rfl
  | cons e more =>
    dsimp only
    rw [if_neg (fun h : b = '\\'.toUInt8 ∧ _ ↦ hb h.1)]

theorem bufferRaw_plain {bs : List UInt8} (buffer rest : List UInt8)
    (h : ∀ b ∈ bs, b ≠ nul.toUInt8 ∧ b ≠ '\''.toUInt8 ∧ b ≠ '\\'.toUInt8) :
    bufferRaw buffer (bs ++ rest) = bufferRaw (buffer ++ bs) rest := by
  induction bs generalizing buffer with
  | nil => rw [List.append_nil, List.nil_append]
  | cons b bs ih =>
    obtain ⟨⟨hnul, hquote, hback⟩, hbs⟩ := List.forall_mem_cons.mp h
    rw [List.cons_append, bufferRaw_cons hback, if_neg hnul, if_neg hquote, ih _ hbs,
      List.append_assoc, List.singleton_append]

theorem bufferRaw_char {c : Char} (hquote : c ≠ '\'') (hback : c ≠ '\\') (hnul : c ≠ nul)
    (buffer rest : List UInt8) : bufferRaw buffer (String.utf8EncodeChar c ++ rest) =
      bufferRaw (buffer ++ String.utf8EncodeChar c) rest :=
  bufferRaw_plain buffer rest fun b hb ↦
    ⟨IsAscii.not_mem (by decide) hnul b hb, IsAscii.not_mem (by decide) hquote b hb,
      IsAscii.not_mem (by decide) hback b hb⟩

theorem bufferRaw_escape {c : Char} (hc : c = '\'' ∨ c = '\\') (buffer rest : List UInt8) :
    bufferRaw buffer (utf8 ['\\', c] ++ rest) =
      bufferRaw (buffer ++ String.utf8EncodeChar c) rest := by
  have hback : IsAscii '\\' := by decide
  have hascii : IsAscii c := by obtain rfl | rfl := hc <;> decide
  have hmark : c.toUInt8 = '\''.toUInt8 ∨ c.toUInt8 = '\\'.toUInt8 :=
    hc.imp (congrArg _) (congrArg _)
  rw [utf8_cons, utf8_cons, utf8_nil, hback.utf8, hascii.utf8]
  change bufferRaw buffer ('\\'.toUInt8 :: c.toUInt8 :: rest) = _
  rw [bufferRaw, if_neg (by decide), if_neg (by decide), if_pos ⟨rfl, hmark⟩]

theorem bufferRaw_backslash {c : Char} (hquote : c ≠ '\'') (hback : c ≠ '\\') (rest : List Char)
    (buffer : List UInt8) : bufferRaw buffer (utf8 ('\\' :: c :: rest)) =
      bufferRaw (buffer ++ utf8 ['\\']) (utf8 (c :: rest)) := by
  have hascii : IsAscii '\\' := by decide
  obtain ⟨b, bs, hbytes⟩ := List.exists_cons_of_ne_nil (String.utf8EncodeChar_ne_nil (c := c))
  have hmem : b ∈ String.utf8EncodeChar c := hbytes ▸ List.mem_cons_self
  have hmark : ¬ ('\\'.toUInt8 = '\\'.toUInt8 ∧ (b = '\''.toUInt8 ∨ b = '\\'.toUInt8)) :=
    fun h ↦ h.2.elim (IsAscii.not_mem (by decide) hquote b hmem)
      (IsAscii.not_mem (by decide) hback b hmem)
  rw [utf8_cons, utf8_cons, utf8_cons, utf8_nil, hascii.utf8, hbytes, List.singleton_append,
    List.cons_append, List.append_nil, bufferRaw, if_neg (by decide), if_neg (by decide),
    if_neg hmark]

theorem UnescapesRaw.bufferRaw {inner value : List Char} (h : UnescapesRaw inner value)
    (rest : List Char) (buffer : List UInt8) :
    bufferRaw buffer (utf8 (inner ++ '\'' :: rest)) =
      .closed (buffer ++ utf8 value) (utf8 rest) := by
  induction h generalizing buffer with
  | nil =>
    have hquote : IsAscii '\'' := by decide
    rw [List.nil_append, utf8_cons, hquote.utf8, utf8_nil, List.append_nil, List.singleton_append,
      bufferRaw_cons (by decide), if_neg (by decide), if_pos rfl]
  | plain hquote hback hnul _ ih =>
    rw [List.cons_append, utf8_cons, bufferRaw_char hquote hback hnul, ih, utf8_cons,
      List.append_assoc]
  | @escape c inner value hc _ ih =>
    have hsplit : utf8 ('\\' :: c :: inner ++ '\'' :: rest) =
        utf8 ['\\', c] ++ utf8 (inner ++ '\'' :: rest) := utf8_append ['\\', c] _
    rw [hsplit, bufferRaw_escape hc, ih, utf8_cons, List.append_assoc]
  | @backslash c inner value hquote hback _ ih =>
    rw [List.cons_append, List.cons_append, bufferRaw_backslash hquote hback, ← List.cons_append,
      ih, utf8_cons, utf8_cons, utf8_nil, List.append_nil, List.append_assoc]

theorem bufferRaw_open {value text : List Char} {n : Nat}
    (h : ∀ value' m, readRaw value n text ≠ .closed value' m) (buffer : List UInt8)
    (whole : List Char) :
    bufferRaw buffer (utf8 text) = (readRaw value n text).buffered whole := by
  have hback : IsAscii '\\' := by decide
  have hnul : IsAscii nul := by decide
  have escape {c : Char} (hc : c = '\'' ∨ c = '\\') (rest : List Char) (buffer : List UInt8) :
      bufferRaw buffer (utf8 ('\\' :: c :: rest)) =
        bufferRaw (buffer ++ String.utf8EncodeChar c) (utf8 rest) := by
    rw [← bufferRaw_escape hc, ← utf8_append]
    rfl
  fun_induction readRaw value n text generalizing buffer with
  | case1 => rfl
  | case2 => exact absurd rfl (h _ _)
  | case3 value n rest ih =>
    rw [escape (.inl rfl)]
    exact ih h _
  | case4 value n rest ih =>
    rw [escape (.inr rfl)]
    exact ih h _
  | case5 =>
    rw [utf8_cons, hnul.utf8, List.singleton_append, bufferRaw_cons (by decide), if_pos rfl]
    rfl
  | case6 value n c rest hquote hescape hescape' hc ih =>
    by_cases hb : c = '\\'
    · subst hb
      cases rest with
      | nil =>
        rw [utf8_cons, hback.utf8]
        rfl
      | cons d rest =>
        rw [bufferRaw_backslash (by rintro rfl; exact hescape _ rfl rfl)
          (by rintro rfl; exact hescape' _ rfl rfl)]
        exact ih h _
    · rw [utf8_cons, bufferRaw_char hquote hb hc]
      exact ih h _

theorem bufferRaw_utf8 (text : List Char) :
    bufferRaw [] (utf8 text) = (readRaw [] 0 text).buffered text := by
  by_cases h : ∃ value m, readRaw [] 0 text = .closed value m
  · obtain ⟨value, m, hclosed⟩ := h
    obtain ⟨inner, read, rest, rfl, rfl, rfl, hread⟩ := readRaw_unescapes hclosed
    rw [hclosed, hread.bufferRaw, Quotation.buffered]
    simp
  · exact bufferRaw_open (fun value m hclosed ↦ h ⟨value, m, hclosed⟩) [] text

theorem scan_buffered {c : Char} {rest : List Char} {s : Scanned} {value : String}
    (h : scan c rest = .ok s) (hk : s.kind = .str value) :
    bufferString? (utf8 (c :: rest)) = some (.closed (utf8 value.toList) (utf8 s.rest)) := by
  cases scan_takes h with
  | @quoted read n hc hread =>
    subst hc
    have hquote : IsAscii '"' := by decide
    obtain rfl : String.ofList read.reverse = value := Kind.str.inj hk
    rw [utf8_cons, hquote.utf8, List.singleton_append, bufferString?, if_pos rfl,
      bufferQuoted_utf8, hread, String.toList_ofList]
    rfl
  | @raw read n hc hread =>
    subst hc
    have hquote : IsAscii '\'' := by decide
    obtain rfl : String.ofList read.reverse = value := Kind.str.inj hk
    rw [utf8_cons, hquote.utf8, List.singleton_append, bufferString?, if_neg (by decide),
      if_pos rfl, bufferRaw_utf8, hread, String.toList_ofList]
    rfl
  | name =>
    have hne (read : List Char) : nameKind read ≠ .str value := by
      unfold nameKind
      dsimp only
      split <;> nofun
    exact absurd hk (hne _)
  | _ => cases hk

theorem utf8_valid (text : List Char) : (utf8 text).toByteArray.IsValidUTF8 := ⟨text, rfl⟩

theorem fromUTF8?_utf8 (text : String) :
    String.fromUTF8? (utf8 text.toList).toByteArray = some text := by
  rw [String.fromUTF8?, dif_pos (utf8_valid _), Option.some_inj, ← String.toByteArray_inj]
  exact String.utf8Encode_toList

theorem drop_bytes {text : String} {before : List Token} {rest : List Char}
    (h : text.toList = spelled before ++ rest) :
    text.toByteArray.data.toList.drop (bytes before) = utf8 rest := by
  have hsize : bytes before = (utf8 (spelled before)).length := by
    rw [bytes, ← String.size_toByteArray]
    change (String.ofList (spelled before)).toByteArray.data.size = _
    rw [← Array.length_toList, toByteArray_utf8, String.toList_ofList]
  rw [toByteArray_utf8, h, utf8_append, hsize, List.drop_left]

end Quill.Token
