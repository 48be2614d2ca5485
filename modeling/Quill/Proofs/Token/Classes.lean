import Quill.Proofs.Printing.Kinds
import Quill.Proofs.Token.Lookahead

/-!
# The words of the language

Main statement: `tokens_follow_grammar`. What a token was read from is spelled as its kind says, and
the token goes on as far as it can.
-/

namespace Quill.Token

structure IsNumeral (text : List Char) : Prop where
  starts : text.head?.any Char.isDigit = true
  digits : ∀ c ∈ text, c.isDigit = true ∨ c = '_'

def numeralDigits (text : List Char) : List Char := text.filter (· != '_')

def numeralValue (text : List Char) : Nat := Nat.ofDigitChars 10 (numeralDigits text) 0

/-- What the characters between double quotes stand for. -/
inductive Unescapes : List Char → List Char → Prop
  | nil : Unescapes [] []
  | plain {c : Char} {inner value : List Char} : c ≠ '"' → c ≠ '\\' → c ≠ nul →
      Unescapes inner value → Unescapes (c :: inner) (c :: value)
  | escape {c v : Char} {inner value : List Char} : escapeValue c = some v →
      Unescapes inner value → Unescapes ('\\' :: c :: inner) (v :: value)

/-- What the characters between single quotes stand for. A backslash stands for itself, unless it is
before a quote or another backslash. -/
inductive UnescapesRaw : List Char → List Char → Prop
  | nil : UnescapesRaw [] []
  | plain {c : Char} {inner value : List Char} : c ≠ '\'' → c ≠ '\\' → c ≠ nul →
      UnescapesRaw inner value → UnescapesRaw (c :: inner) (c :: value)
  | escape {c : Char} {inner value : List Char} : c = '\'' ∨ c = '\\' →
      UnescapesRaw inner value → UnescapesRaw ('\\' :: c :: inner) (c :: value)
  | backslash {c : Char} {inner value : List Char} : c ≠ '\'' → c ≠ '\\' →
      UnescapesRaw (c :: inner) value → UnescapesRaw ('\\' :: c :: inner) ('\\' :: value)

/-- What a token of the kind is read from: it stands for what the kind carries. -/
def Kind.Spelled : Kind → List Char → Prop
  | int n, text => IsNumeral text ∧ numeralValue text ≤ maxInt ∧ n.toInt = numeralValue text
  | float x, text => ∃ whole fraction, text = whole ++ '.' :: fraction ∧
      IsNumeral whole ∧ IsNumeral fraction ∧
      x = Decimal.toFloat
        ⟨numeralValue (whole ++ fraction), -((numeralDigits fraction).length : Int)⟩
  | str value, text => ∃ inner,
      text = '"' :: inner ++ ['"'] ∧ Unescapes inner value.toList ∨
      text = '\'' :: inner ++ ['\''] ∧ UnescapesRaw inner value.toList
  | symbol name, text => text = ':' :: name.toList ∧
      isName (fun c ↦ c.isAlpha || c == '_') true name = true
  | identifier name, text => text = name.toList ∧ isName startsName true name = true ∧
      ∀ k : Keyword, name ≠ k.text
  | constant name, text => text = name.toList ∧ isName Char.isUpper false name = true
  | attr name, text => text = '@' :: name.toList ∧ isName startsName true name = true
  | keyword k, text => text = k.text.toList
  | mark m, text => text = m.text.toList
  | whitespace, text => text ≠ [] ∧ ∀ c ∈ text, c = ' ' ∨ c = '\t' ∨ c = '\r'
  | newline, text => text = ['\n']
  | comment value, text => text = value.toList ∧ text.head? = some '#' ∧ '\n' ∉ text ∧ nul ∉ text
  | eof, text => text = []

/-- A name has a mark at its end, or neither a character of a name nor such a mark is after it. -/
def NameEnds (text rest : List Char) : Prop :=
  text.getLast? = some '?' ∨ text.getLast? = some '!' ∨
    rest.head?.any continuesName = false ∧ nameSuffix rest = []

/-- The token does not go on in the rest of the text. -/
def Kind.Ends : Kind → List Char → List Char → Prop
  | int _, _, rest => rest.head?.any isDigitPart = false ∧
      ¬ (rest.head? = some '.' ∧ rest.tail.head?.any Char.isDigit = true)
  | float _, _, rest => rest.head?.any isDigitPart = false
  | symbol _, text, rest | identifier _, text, rest | attr _, text, rest
  | keyword _, text, rest => NameEnds text rest
  | constant _, _, rest => rest.head?.any continuesName = false
  | whitespace, _, rest => rest.head?.any isSpace = false
  | comment _, _, rest => rest.head? = some '\n' ∨ rest.takeWhile (· != nul) = []
  | eof, _, rest => rest.takeWhile (· != nul) = []
  | str _, _, _ | mark _, _, _ | newline, _, _ => True

/-- A token is spelled as its kind says, and goes on as far as it can. -/
structure Scanned.IsWord (s : Scanned) : Prop where
  spelled : s.kind.Spelled s.read
  ends : s.kind.Ends s.read s.rest

theorem head_run {p q : Char → Bool} {front back : List Char} (hb : back.head?.any q = false)
    (h : (front ++ back).head?.any p = true) (hpq : ∀ c, p c = true → q c = true) :
    front.head?.any p = true := by
  cases front with
  | nil =>
    cases back with
    | nil => cases h
    | cons c back =>
      have hc : q c = true := hpq c h
      rw [List.head?_cons, Option.any_some, hc] at hb
      cases hb
  | cons c front => exact h

theorem nameLength_ends (suffixed : Bool) (text : List Char) :
    (suffixed = true ∧ ∃ c, (text.take (nameLength suffixed text)).getLast? = some c ∧
        (c = '?' ∨ c = '!')) ∨
      (text.drop (nameLength suffixed text)).head?.any continuesName = false ∧
        (suffixed = true → nameSuffix (text.drop (nameLength suffixed text)) = []) := by
  induction text with
  | nil =>
    rw [List.drop_nil]
    exact .inr ⟨rfl, fun _ ↦ rfl⟩
  | cons c text ih =>
    cases hc : continuesName c with
    | true =>
      rw [nameLength_cons hc, List.take_succ_cons, List.drop_succ_cons]
      refine ih.imp_left fun ⟨hs, d, hd, hmark⟩ ↦ ⟨hs, d, ?_, hmark⟩
      rw [List.getLast?_cons, hd]
      rfl
    | false =>
      rw [nameLength_stop hc]
      cases suffixed with
      | false => exact .inr ⟨hc, nofun⟩
      | true =>
        rw [if_pos rfl]
        obtain hs | ⟨d, rest, heq, hs, hd⟩ := nameSuffix_cases (c :: text)
        · rw [hs]
          exact .inr ⟨hc, fun _ ↦ hs⟩
        · obtain ⟨rfl, rfl⟩ := List.cons.inj heq
          rw [hs]
          exact .inl ⟨rfl, c, rfl, hd⟩

theorem take_name_ends (c : Char) (rest : List Char) (kind : List Char → Kind) :
    NameEnds (take (1 + nameLength true rest) (c :: rest) kind).read
      (take (1 + nameLength true rest) (c :: rest) kind).rest := by
  dsimp only [take]
  rw [Nat.add_comm, List.take_succ_cons, List.drop_succ_cons]
  obtain ⟨-, d, hd, hmark⟩ | ⟨hend, hs⟩ := nameLength_ends true rest
  · have hlast : (c :: rest.take (nameLength true rest)).getLast? = some d := by
      rw [List.getLast?_cons, hd]
      rfl
    obtain rfl | rfl := hmark
    · exact .inl hlast
    · exact .inr (.inl hlast)
  · exact .inr (.inr ⟨hend, hs rfl⟩)

theorem take_constant_ends (c : Char) (rest : List Char) :
    ((c :: rest).drop (1 + nameLength false rest)).head?.any continuesName = false := by
  rw [Nat.add_comm, List.drop_succ_cons]
  obtain ⟨hs, -⟩ | ⟨hend, -⟩ := nameLength_ends false rest
  · cases hs
  · exact hend

theorem nameKind_spelled {read : List Char}
    (h : isName startsName true (String.ofList read) = true) : (nameKind read).Spelled read := by
  unfold nameKind
  dsimp only
  split
  · rename_i k hk
    have htext : k.text = String.ofList read := by
      have hfound := List.find?_some hk
      exact beq_iff_eq.mp hfound
    change read = k.text.toList
    rw [htext, String.toList_ofList]
  · rename_i hk
    refine ⟨String.toList_ofList.symm, h, fun k hname ↦ ?_⟩
    rw [hname, Keyword.ofText?_text] at hk
    cases hk

theorem nameKind_ends {read rest : List Char} (h : NameEnds read rest) :
    (nameKind read).Ends read rest := by
  unfold nameKind
  dsimp only
  split <;> exact h

theorem marked_toList (c : Char) (rest : List Char) :
    (c :: rest).take (1 + nameLength true rest) =
      c :: (markedName ((c :: rest).take (1 + nameLength true rest))).toList := by
  rw [markedName, String.toList_ofList, Nat.add_comm, List.take_succ_cons]
  rfl

theorem isDigitPart_of_isDigit (c : Char) (h : c.isDigit = true) : isDigitPart c = true := by
  rw [isDigitPart, h]
  rfl

theorem isNumeral_run {front back : List Char} (hf : ∀ c ∈ front, isDigitPart c = true)
    (hb : back.head?.any isDigitPart = false)
    (h : (front ++ back).head?.any Char.isDigit = true) : IsNumeral front where
  starts := head_run hb h isDigitPart_of_isDigit
  digits c hc := by
    have hpart := hf c hc
    rwa [isDigitPart, Bool.or_eq_true, beq_iff_eq] at hpart

theorem scanNumber_isWord {text : List Char} {s : Scanned}
    (hd : text.head?.any Char.isDigit = true) (h : scanNumber text = .ok s) : s.IsWord := by
  obtain ⟨whole, back, rfl, hw, hb⟩ := run_split isDigitPart text
  have hwhole := isNumeral_run hw hb hd
  have hrun : (whole ++ back).takeWhile isDigitPart = whole := takeWhile_run hw hb
  unfold scanNumber at h
  rw [numberParts_eq (by rw [hrun, List.drop_left]), hrun] at h
  split_ifs at h with hpoint
  · obtain ⟨more, rfl⟩ := List.head?_eq_some_iff.mp hpoint.1
    obtain ⟨fraction, back, rfl, hf, hb⟩ := run_split isDigitPart more
    have hread : whole ++ '.' :: (fraction ++ back) = (whole ++ '.' :: fraction) ++ back := by simp
    have hlen : whole.length + 1 + fraction.length = (whole ++ '.' :: fraction).length := by
      simp
      omega
    have htake (kind : List Char → Kind) :
        take (whole.length + 1 + fraction.length) ((whole ++ '.' :: fraction) ++ back) kind =
          ⟨kind (whole ++ '.' :: fraction), whole ++ '.' :: fraction, back⟩ := take_append hlen
    rw [List.tail_cons, takeWhile_run hf hb, hread] at h
    dsimp only at h
    rw [htake] at h
    cases h
    refine ⟨⟨whole, fraction, rfl, hwhole, isNumeral_run hf hb hpoint.2, ?_⟩, hb⟩
    rw [numeralValue, numeralDigits, List.filter_append]
    rfl
  · dsimp only at h
    split at h
    · rename_i hv
      rw [take_append rfl] at h
      cases h
      have hvalue : (Int64.ofNat (digitsValue (whole.filter (· != '_')))).toInt =
          digitsValue (whole.filter (· != '_')) := by
        unfold maxInt at hv
        exact Int64.toInt_ofNat_of_lt (by omega)
      exact ⟨⟨hwhole, hv, hvalue⟩, hb, hpoint⟩
    · cases h

theorem readQuoted_unescapes {value value' text : List Char} {n m : Nat}
    (h : readQuoted value n text = .closed value' m) :
    ∃ inner read rest, text = inner ++ '"' :: rest ∧ m = n + inner.length + 1 ∧
      value' = read.reverse ++ value ∧ Unescapes inner read := by
  fun_induction readQuoted value n text with
  | case1 => cases h
  | case2 value n rest =>
    cases h
    exact ⟨[], [], rest, rfl, rfl, rfl, .nil⟩
  | case3 => cases h
  | case4 => cases h
  | case5 value n e rest he v hv ih =>
    obtain ⟨inner, read, rest, rfl, rfl, rfl, hread⟩ := ih h
    refine ⟨'\\' :: e :: inner, v :: read, rest, rfl, ?_, by simp, .escape hv hread⟩
    simp only [List.length_cons]
    omega
  | case6 => cases h
  | case7 => cases h
  | case8 value n c rest hquote halone hescape hc ih =>
    obtain ⟨inner, read, rest, rfl, rfl, rfl, hread⟩ := ih h
    have hbackslash : c ≠ '\\' := by
      rintro rfl
      cases inner <;> exact hescape _ _ rfl rfl
    refine ⟨c :: inner, c :: read, rest, rfl, ?_, by simp, .plain hquote hbackslash hc hread⟩
    simp only [List.length_cons]
    omega

theorem readRaw_unescapes {value value' text : List Char} {n m : Nat}
    (h : readRaw value n text = .closed value' m) :
    ∃ inner read rest, text = inner ++ '\'' :: rest ∧ m = n + inner.length + 1 ∧
      value' = read.reverse ++ value ∧ UnescapesRaw inner read := by
  have escape {c : Char} {value value' rest : List Char} {n m : Nat} (hc : c = '\'' ∨ c = '\\')
      (ih : ∃ inner read rest', rest = inner ++ '\'' :: rest' ∧ m = n + 2 + inner.length + 1 ∧
        value' = read.reverse ++ c :: value ∧ UnescapesRaw inner read) :
      ∃ inner read rest', '\\' :: c :: rest = inner ++ '\'' :: rest' ∧
        m = n + inner.length + 1 ∧ value' = read.reverse ++ value ∧ UnescapesRaw inner read := by
    obtain ⟨inner, read, rest, rfl, rfl, rfl, hread⟩ := ih
    refine ⟨'\\' :: c :: inner, c :: read, rest, rfl, ?_, by simp, .escape hc hread⟩
    simp only [List.length_cons]
    omega
  fun_induction readRaw value n text with
  | case1 => cases h
  | case2 value n rest =>
    cases h
    exact ⟨[], [], rest, rfl, rfl, rfl, .nil⟩
  | case3 value n rest ih => exact escape (.inl rfl) (ih h)
  | case4 value n rest ih => exact escape (.inr rfl) (ih h)
  | case5 => cases h
  | case6 value n c rest hquote hescape hescape' hc ih =>
    obtain ⟨inner, read, rest, rfl, rfl, rfl, hread⟩ := ih h
    refine ⟨c :: inner, c :: read, rest, rfl, ?_, by simp, ?_⟩
    · simp only [List.length_cons]
      omega
    · by_cases hb : c = '\\'
      · subst hb
        cases inner with
        | nil => exact absurd rfl (hescape _ rfl)
        | cons d inner =>
          refine .backslash ?_ ?_ hread
          · rintro rfl
            exact hescape _ rfl rfl
          · rintro rfl
            exact hescape' _ rfl rfl
      · exact .plain hquote hb hc hread

theorem take_string_isWord {quote : Char} {inner read rest : List Char} {n : Nat}
    (hn : n = 0 + inner.length + 1)
    (h : quote = '"' ∧ Unescapes inner read ∨ quote = '\'' ∧ UnescapesRaw inner read) :
    (take (n + 1) (quote :: (inner ++ quote :: rest)) fun _ ↦
      .str (String.ofList (read.reverse ++ []).reverse)).IsWord := by
  rw [take_string (by omega)]
  refine ⟨⟨inner, ?_⟩, trivial⟩
  rw [List.append_nil, List.reverse_reverse, String.toList_ofList]
  obtain ⟨rfl, hread⟩ | ⟨rfl, hread⟩ := h
  · exact .inl ⟨rfl, hread⟩
  · exact .inr ⟨rfl, hread⟩

theorem scan_isWord {c : Char} {rest : List Char} {s : Scanned} (h : scan c rest = .ok s) :
    s.IsWord := by
  have number (hd : c.isDigit = true) : s.IsWord := by
    have hhead : (c :: rest).head?.any Char.isDigit = true := hd
    rw [scan_digit hd] at h
    exact scanNumber_isWord hhead h
  cases scan_takes h with
  | whitespace hs =>
    obtain ⟨front, back, ht, hf, hb⟩ := run_split isSpace (c :: rest)
    rw [ht, take_run hf hb]
    refine ⟨⟨?_, fun d hd ↦ ?_⟩, hb⟩
    -- The run is not empty, for the text starts with a blank.
    · rintro rfl
      rw [← List.nil_append back, ← ht, List.head?_cons, Option.any_some, hs] at hb
      cases hb
    · have hspace := hf d hd
      simpa [isSpace, or_assoc] using hspace
  | newline hn =>
    subst hn
    exact ⟨rfl, trivial⟩
  | comment hh =>
    subst hh
    obtain ⟨front, back, ht, hf, hb⟩ := run_split (fun d ↦ d != '\n' && d != nul) ('#' :: rest)
    have hinline : ∀ d ∈ front, d ≠ '\n' ∧ d ≠ nul := fun d hd ↦ by simpa using hf d hd
    rw [ht, take_run hf hb]
    refine ⟨⟨String.toList_ofList.symm, ?_, fun hn ↦ (hinline _ hn).1 rfl,
      fun hn ↦ (hinline _ hn).2 rfl⟩, ?_⟩
    · cases front with
      | nil =>
        subst ht
        cases hb
      | cons d front =>
        cases ht
        rfl
    · cases back with
      | nil => exact .inr rfl
      | cons d back =>
        by_cases hd : d = '\n'
        · exact .inl (by rw [hd]; rfl)
        · exact .inr (by simp_all)
  | int hd => exact number hd
  | float x hd => exact number hd
  | quoted hq hr =>
    obtain ⟨inner, read, rest, rfl, hn, rfl, hread⟩ := readQuoted_unescapes hr
    subst hq
    exact take_string_isWord hn (.inl ⟨rfl, hread⟩)
  | raw hq hr =>
    obtain ⟨inner, read, rest, rfl, hn, rfl, hread⟩ := readRaw_unescapes hr
    subst hq
    exact take_string_isWord hn (.inr ⟨rfl, hread⟩)
  | attr ha hn =>
    subst ha
    exact ⟨⟨marked_toList '@' rest, isName_marked '@' hn fun d ↦ continuesName_of_startsName⟩,
      take_name_ends '@' rest _⟩
  | symbol hs hn =>
    subst hs
    exact ⟨⟨marked_toList ':' rest, isName_marked ':' hn fun d ↦ continuesName_of_symbol⟩,
      take_name_ends ':' rest _⟩
  | colon hs =>
    subst hs
    exact ⟨rfl, trivial⟩
  | name hs =>
    exact ⟨nameKind_spelled (isName_take hs rest), nameKind_ends (take_name_ends c rest nameKind)⟩
  | constant hu =>
    exact ⟨⟨String.toList_ofList.symm, isName_take hu rest⟩, take_constant_ends c rest⟩
  | mark hm => exact ⟨mark_spelled hm, trivial⟩

theorem Tokenizes.isWord {p : Position} {text : List Char} {t : Token} {after : List Token}
    {e : Option LexError} (h : Tokenizes p text (t :: after) e) :
    ∃ rest, text = t.lexeme.toList ++ rest ∧ t.kind.Spelled t.lexeme.toList ∧
      t.kind.Ends t.lexeme.toList rest ∧
      ('\n' ∈ t.lexeme.toList → t.kind = .newline ∨ ∃ value, t.kind = .str value) := by
  cases h with
  | stop hs => exact ⟨text, rfl, rfl, hs, nofun⟩
  | @token _ c rest s _ _ hc hs _ =>
    have word := scan_isWord hs
    have front := scan_isFront hc hs
    rw [String.toList_ofList]
    refine ⟨s.rest, front.split.symm, word.spelled, word.ends, fun hn ↦ ?_⟩
    by_contra hkind
    rw [not_or, not_exists] at hkind
    exact front.line hkind.1 hkind.2 hn

theorem Tokenizes.whitespace_apart {p : Position} {text : List Char} {ts : List Token}
    {e : Option LexError} (h : Tokenizes p text ts e) :
    ts.IsChain fun t u ↦ t.kind = .whitespace → u.kind ≠ .whitespace := by
  induction h with
  | stop => exact .singleton _
  | fail => exact .nil
  | @token p c rest s ts e hc hs htokens ih =>
    cases ts with
    | nil => exact .singleton _
    | cons u us =>
      refine .cons_cons (fun hk hu ↦ ?_) ih
      have hkind : s.kind = .whitespace := hk
      have hends := (scan_isWord hs).ends
      obtain ⟨more, hrest, hspelled, -⟩ := htokens.isWord
      rw [hu] at hspelled
      obtain ⟨d, read, hread⟩ := List.exists_cons_of_ne_nil hspelled.1
      have hd : isSpace d = true := by
        have hmem := hspelled.2 d (hread ▸ List.mem_cons_self)
        simpa [isSpace, or_assoc] using hmem
      rw [hkind, hrest, hread, List.cons_append] at hends
      have hnot : isSpace d = false := hends
      rw [hd] at hnot
      cases hnot

/-- The tokens of a text are spelled as their kinds say, and carry what they were read from. None of
them could be longer, and only line breaks and strings hold line feeds. -/
theorem tokens_follow_grammar (text : String) :
    (∀ before t after, (ofText text).tokens.toList = before ++ t :: after →
      ∃ rest, text.toList = spelled before ++ t.lexeme.toList ++ rest ∧
        t.kind.Spelled t.lexeme.toList ∧ t.kind.Ends t.lexeme.toList rest ∧
        ('\n' ∈ t.lexeme.toList → t.kind = .newline ∨ ∃ value, t.kind = .str value)) ∧
      (ofText text).tokens.toList.IsChain fun t u ↦
        t.kind = .whitespace → u.kind ≠ .whitespace := by
  obtain ⟨ts, e, htext, hts⟩ := ofText_tokenizes text
  rw [htext]
  refine ⟨fun before t after heq ↦ ?_, hts.whitespace_apart⟩
  rw [List.toList_toArray] at heq
  subst heq
  obtain ⟨chars, hchars, hat⟩ := hts.at_token
  obtain ⟨rest, rfl, hword⟩ := hat.isWord
  exact ⟨rest, by rw [hchars, List.append_assoc], hword⟩

theorem tokens_follow_grammar_of_name : ∃ rest, "ok!=1".toList = "ok".toList ++ rest ∧
    (Kind.identifier "ok").Spelled "ok".toList ∧ (Kind.identifier "ok").Ends "ok".toList rest := by
  obtain ⟨rest, htext, hspelled, hends, -⟩ := (tokens_follow_grammar "ok!=1").1 []
    ⟨.identifier "ok", "ok", ⟨.start, ⟨1, 2⟩⟩⟩ _ rfl
  exact ⟨rest, htext, hspelled, hends⟩

/-- A name takes the exclamation mark, unless an equals sign follows it. -/
example : (ofText "ok! ok!=1").tokens.toList.map (·.kind) =
    [.identifier "ok!", .whitespace, .identifier "ok", .mark .bangEqual, .int 1, .eof] := rfl

end Quill.Token
