import Quill.Proofs.Token.Bytes

/-!
# String literals

Every text can be written between double quotes, and every text without NUL between single quotes.
The characters are read byte by byte, and what is put aside of their bytes is again the bytes of a
text. Main statement: `strings_decode`.
-/

namespace Quill.Token

/-- The letter that stands for a character behind a backslash between double quotes. -/
def escapeLetter : Char → Option Char
  | '\\' => some '\\'
  | '"' => some '"'
  | '\x00' => some '0'
  | '\n' => some 'n'
  | '\t' => some 't'
  | '\r' => some 'r'
  | '\x1b' => some 'e'
  | _ => none

/-- The second text writes the first one between double quotes. A quote, a backslash and NUL have to
be escaped; the other characters that have a letter may be. -/
inductive Writes : List Char → List Char → Prop
  | nil : Writes [] []
  | plain {c : Char} {value inner : List Char} : c ∉ ['\\', '"', nul] →
      Writes value inner → Writes (c :: value) (c :: inner)
  | escape {c letter : Char} {value inner : List Char} : escapeLetter c = some letter →
      Writes value inner → Writes (c :: value) ('\\' :: letter :: inner)

def rawChars (value : List Char) : List Char :=
  value.flatMap fun c ↦ if c = '\\' ∨ c = '\'' then ['\\', c] else [c]

theorem escapeValue_of_escapeLetter {c letter : Char} (h : escapeLetter c = some letter) :
    escapeValue letter = some c := by
  unfold escapeLetter at h
  split at h <;> cases h <;> rfl

theorem Writes.unescapes {value inner : List Char} (h : Writes value inner) :
    Unescapes inner value := by
  induction h with
  | nil => exact .nil
  | plain hc _ ih =>
    simp only [List.mem_cons, List.not_mem_nil, or_false, not_or] at hc
    exact .plain hc.2.1 hc.1 hc.2.2 ih
  | escape hc _ ih => exact .escape (escapeValue_of_escapeLetter hc) ih

theorem rawChars_unescapes {value : List Char} (h : nul ∉ value) :
    UnescapesRaw (rawChars value) value := by
  induction value with
  | nil => exact .nil
  | cons c value ih =>
    rw [List.mem_cons, not_or] at h
    rw [rawChars, List.flatMap_cons]
    split
    · rename_i hc
      exact .escape hc.symm (ih h.2)
    · rename_i hc
      rw [not_or] at hc
      exact .plain hc.2 hc.1 (Ne.symm h.1) (ih h.2)

theorem Unescapes.readQuoted {inner value : List Char} (h : Unescapes inner value)
    (acc rest : List Char) (n : Nat) :
    readQuoted acc n (inner ++ '"' :: rest) =
      .closed (value.reverse ++ acc) (n + inner.length + 1) := by
  induction h generalizing acc n with
  | nil => rfl
  | plain hquote hback hnul _ ih =>
    rw [List.cons_append, Token.readQuoted, if_neg hnul, ih]
    · simp [Nat.add_right_comm, Nat.add_assoc]
    · exact hquote
    · exact fun hc _ ↦ hback hc
    · exact fun _ _ hc _ ↦ hback hc
  | @escape e v inner value he _ ih =>
    have hnul : e ≠ nul := by
      rintro rfl
      cases he
    rw [List.cons_append, List.cons_append, Token.readQuoted, if_neg hnul, he]
    dsimp only
    rw [ih]
    simp [Nat.add_right_comm, Nat.add_assoc]

theorem UnescapesRaw.readRaw {inner value : List Char} (h : UnescapesRaw inner value)
    (acc rest : List Char) (n : Nat) :
    readRaw acc n (inner ++ '\'' :: rest) =
      .closed (value.reverse ++ acc) (n + inner.length + 1) := by
  induction h generalizing acc n with
  | nil => rfl
  | plain hquote hback hnul _ ih =>
    rw [List.cons_append, Token.readRaw, if_neg hnul, ih]
    · simp [Nat.add_right_comm, Nat.add_assoc]
    · exact hquote
    · exact fun _ hc _ ↦ hback hc
    · exact fun _ hc _ ↦ hback hc
  | @escape c inner value hc _ ih =>
    obtain rfl | rfl := hc <;>
    · rw [List.cons_append, List.cons_append, Token.readRaw, ih]
      simp [Nat.add_right_comm, Nat.add_assoc]
  | @backslash c inner value hquote hback _ ih =>
    rw [List.cons_append, Token.readRaw, if_neg (by decide), ih]
    · simp [Nat.add_assoc, Nat.add_comm 1]
    · decide
    · rintro more - hmore
      exact hquote (List.cons.inj hmore).1
    · rintro more - hmore
      exact hback (List.cons.inj hmore).1

/-- The text is a string with this value, and nothing else. -/
def IsString (text value : String) : Prop :=
  ofText? text = .ok #[⟨.str value, text, .ofText .start text.toList⟩,
    endAt (Position.start.after text.toList)]

theorem isString_of_scan {text value : String} {c : Char} {rest : List Char}
    (htext : text.toList = c :: rest) (hc : c ≠ nul)
    (h : scan c rest = .ok ⟨.str value, text.toList, []⟩) : IsString text value := by
  have hstop : Tokenizes (Position.start.after text.toList) [] [endAt _] none := .stop rfl
  have htokens := Tokenizes.token (p := .start) hc h hstop
  rw [String.ofList_toList, ← htext] at htokens
  exact ofText?_iff.mpr htokens

theorem Unescapes.isString {inner value : List Char} (h : Unescapes inner value) :
    IsString (String.ofList ('"' :: inner ++ ['"'])) (String.ofList value) := by
  have htext : (String.ofList ('"' :: inner ++ ['"'])).toList = '"' :: (inner ++ ['"']) := by
    simp
  refine isString_of_scan htext (by decide) ?_
  have hscan : scan '"' (inner ++ ['"']) =
      scanString ('"' :: (inner ++ ['"'])) (Token.readQuoted [] 0 (inner ++ ['"'])) := rfl
  rw [hscan, h.readQuoted, scanString, take_string (by omega)]
  simp

theorem UnescapesRaw.isString {inner value : List Char} (h : UnescapesRaw inner value) :
    IsString (String.ofList ('\'' :: inner ++ ['\''])) (String.ofList value) := by
  have htext : (String.ofList ('\'' :: inner ++ ['\''])).toList = '\'' :: (inner ++ ['\'']) := by
    simp
  refine isString_of_scan htext (by decide) ?_
  have hscan : scan '\'' (inner ++ ['\'']) =
      scanString ('\'' :: (inner ++ ['\''])) (Token.readRaw [] 0 (inner ++ ['\''])) := rfl
  rw [hscan, h.readRaw, scanString, take_string (by omega)]
  simp

/-- A text that is written between quotes is one string with that value. The bytes that are put
aside for a string, wherever it stands in whatever text, are valid and spell its value. -/
theorem strings_decode :
    (∀ value inner : String, Writes value.toList inner.toList →
      IsString ("\"" ++ inner ++ "\"") value) ∧
    (∀ value : String, nul ∉ value.toList →
      IsString ("'" ++ String.ofList (rawChars value.toList) ++ "'") value) ∧
    ∀ (text : String) (before after : List Token) (t : Token) (value : String),
      (ofText text).tokens.toList = before ++ t :: after → t.kind = .str value →
        ∃ buffer rest,
          bufferString? (text.toByteArray.data.toList.drop (bytes before)) =
            some (.closed buffer rest) ∧
          rest = text.toByteArray.data.toList.drop (bytes (before ++ [t])) ∧
          buffer.toByteArray.IsValidUTF8 ∧ String.fromUTF8? buffer.toByteArray = some value := by
  refine ⟨fun value inner h ↦ ?_, fun value h ↦ ?_, fun text before after t value htokens hk ↦ ?_⟩
  · have hstring := h.unescapes.isString
    rw [String.ofList_toList] at hstring
    convert hstring using 1
    simp [← String.toList_inj]
  · have hstring := (rawChars_unescapes h).isString
    rw [String.ofList_toList] at hstring
    convert hstring using 1
    simp [← String.toList_inj]
  · obtain ⟨ts, e, htext, hts⟩ := ofText_tokenizes text
    rw [htext, List.toList_toArray] at htokens
    subst htokens
    obtain ⟨chars, hchars, hat⟩ := hts.at_token
    cases hat with
    | stop => cases hk
    | @token _ c rest s _ _ hc hs _ =>
      have hbehind : text.toList = spelled before ++ s.read ++ s.rest := by
        rw [hchars, ← (scan_isFront hc hs).split, List.append_assoc]
      refine ⟨_, _, ?_, (drop_bytes (by simpa using hbehind)).symm, utf8_valid _,
        fromUTF8?_utf8 value⟩
      rw [drop_bytes hchars]
      exact scan_buffered hs hk

/-- Between double quotes NUL is escaped and a line feed need not be; between single quotes a
backslash at the end is escaped. -/
theorem mixed_strings_decode :
    (Writes "\\\"\x00\né\t".toList "\\\\\\\"\\0\né\\t".toList ∧
      IsString ("\"" ++ "\\\\\\\"\\0\né\\t" ++ "\"") "\\\"\x00\né\t") ∧
    (nul ∉ "é\\n'\\".toList ∧
      IsString ("'" ++ String.ofList (rawChars "é\\n'\\".toList) ++ "'") "é\\n'\\") ∧
    ∃ before t after, (ofText "x '\\é'").tokens.toList = before ++ t :: after ∧
      t.kind = .str "\\é" ∧ ∃ buffer rest,
        bufferString? ("x '\\é'".toByteArray.data.toList.drop (bytes before)) =
          some (.closed buffer rest) ∧
        rest = "x '\\é'".toByteArray.data.toList.drop (bytes (before ++ [t])) ∧
        buffer.toByteArray.IsValidUTF8 ∧ String.fromUTF8? buffer.toByteArray = some "\\é" := by
  have hwrites : Writes "\\\"\x00\né\t".toList "\\\\\\\"\\0\né\\t".toList :=
    .escape rfl (.escape rfl (.escape rfl (.plain (by decide) (.plain (by decide)
      (.escape rfl .nil)))))
  have hnul : nul ∉ "é\\n'\\".toList := by decide
  obtain ⟨hquoted, hraw, hbytes⟩ := strings_decode
  exact ⟨⟨hwrites, hquoted _ _ hwrites⟩, ⟨hnul, hraw _ hnul⟩,
    _, _, _, rfl, rfl, hbytes _ [_, _] [_] _ _ rfl rfl⟩

end Quill.Token
