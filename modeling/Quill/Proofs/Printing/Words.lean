import Quill.Proofs.Printing.Tree
import Quill.Proofs.Token.Lookahead

/-!
# The tokens of single pieces

A piece of a written tree is the token that is read at the front of its text, where it does not run
into what is after it.
-/

namespace Quill

open Token

/-- Before `c` the text of the mark may be part of a longer one. -/
def Mark.growsBy (m : Mark) (c : Char) : Bool :=
  (Mark.all.any fun m' ↦ (m.text.toList ++ [c]).isPrefixOf m'.text.toList) ||
    (m == .minusAt && startsName c)

/-- What can stand right behind the name of a method that is defined: white space, a parenthesis, a
semicolon or a comment. -/
def nameEnds : List Char := [' ', '\t', '\r', '\n', '(', ';', '#']

namespace Mark

theorem growsBy_nameEnds {c : Char} (hc : c ∈ nameEnds) (m : Mark) : m.growsBy c = false := by
  have htails : ∀ m' ∈ all, nameEnds.any (m'.text.toList.tail.elem ·) = false := by decide
  have hstarts : nameEnds.any startsName = false := by decide
  obtain ⟨d, ds, htext⟩ : ∃ d ds, m.text.toList = d :: ds := by cases m <;> exact ⟨_, _, rfl⟩
  have hstart := Bool.eq_false_iff.mpr (List.any_eq_false.mp hstarts c hc)
  rw [growsBy, hstart, Bool.and_false, Bool.or_false, List.any_eq_false]
  intro m' hm' hfront
  obtain ⟨more, hmore⟩ := List.isPrefixOf_iff_prefix.mp hfront
  refine List.any_eq_false.mp (htails m' hm') c hc (List.elem_iff.mpr ?_)
  rw [← hmore, htext]
  simp

theorem growsBy_blank (m : Mark) : m.growsBy ' ' = false := growsBy_nameEnds (by decide) m

theorem growsBy_tab (m : Mark) : m.growsBy '\t' = false := growsBy_nameEnds (by decide) m

theorem growsBy_lParen (m : Mark) : m.growsBy '(' = false := growsBy_nameEnds (by decide) m

theorem minus_growsBy (c : Char) : minus.growsBy c = (c == '@' || c == '=') := by
  simp [growsBy, all, text, List.isPrefixOf]

theorem bang_growsBy (c : Char) : bang.growsBy c = (c == '=') := by
  simp [growsBy, all, text, List.isPrefixOf]

end Mark

namespace Piece

/-- The piece is the token at the front of its text, whatever the rest of it. -/
def Scans (q : Piece) (tail : List Char) : Prop :=
  ∃ c cs, q.text = c :: cs ∧ c ≠ nul ∧ scan c (cs ++ tail) = .ok ⟨q.kind, q.text, tail⟩

/-- The pieces are the tokens of their text. -/
def Lexes : List Piece → Prop
  | [] => True
  | q :: ps => q.Scans (spell ps) ∧ Lexes ps

@[simp] theorem spell_nil : spell [] = [] := rfl

@[simp] theorem spell_cons (q : Piece) (ps : List Piece) : spell (q :: ps) = q.text ++ spell ps :=
  rfl

@[simp] theorem spell_append (ps qs : List Piece) : spell (ps ++ qs) = spell ps ++ spell qs :=
  List.flatMap_append

end Piece

/-- A text at whose front neither a name nor a number goes on. -/
structure Delimits (tail : List Char) : Prop where
  head : ∀ c ∈ tail.head?, c ∈ nameEnds ++ [')', '[', ']', ',', '.', ':']
  fraction : ∀ d rest, tail = '.' :: d :: rest → d.isDigit = false

namespace Delimits

theorem of_cons {c : Char} {tail : List Char} (h : c ∈ nameEnds ++ [')', '[', ']', ',', ':']) :
    Delimits (c :: tail) where
  head d hd := by
    obtain rfl := Option.some.inj hd
    have hsub : [')', '[', ']', ',', ':'] ⊆ [')', '[', ']', ',', '.', ':'] := by decide
    rw [List.mem_append] at h ⊢
    exact h.imp_right fun h ↦ hsub h
  fraction d rest heq := by
    obtain ⟨rfl, -⟩ := List.cons.inj heq
    exact absurd h (by decide)

theorem of_nameEnds {tail : List Char} (h : ∀ c ∈ tail.head?, c ∈ nameEnds) : Delimits tail where
  head c hc := List.mem_append_left _ (h c hc)
  fraction d rest heq := by
    subst heq
    exact absurd (h '.' rfl) (by decide)

theorem head_not {tail : List Char} {p : Char → Bool} (h : Delimits tail)
    (hp : (nameEnds ++ [')', '[', ']', ',', '.', ':']).any p = false) :
    ∀ c ∈ tail.head?, p c = false :=
  fun c hc ↦ Bool.eq_false_iff.mpr (List.any_eq_false.mp hp c (h.head c hc))

end Delimits

theorem take_append {n : Nat} {text tail : List Char} {kind : List Char → Kind}
    (hn : n = text.length) : take n (text ++ tail) kind = ⟨kind text, text, tail⟩ := by
  subst hn
  simp [take]

theorem nameSuffix_nil {tail : List Char} (h : Delimits tail) : nameSuffix tail = [] := by
  cases tail with
  | nil => rfl
  | cons c tail =>
    have hc : (c == '?' || c == '!') = false :=
      h.head_not (p := fun c ↦ c == '?' || c == '!') rfl c rfl
    unfold nameSuffix
    split <;> simp_all

theorem nameLength_run {suffixed : Bool} {text tail : List Char}
    (ht : ∀ c ∈ text, continuesName c = true) (stop : tail.head?.any continuesName = false)
    (hs : nameSuffix tail = []) : nameLength suffixed (text ++ tail) = text.length := by
  rw [nameLength, takeWhile_run ht stop, List.drop_left, hs]
  simp

theorem nameLength_append {suffixed : Bool} {text tail : List Char} (h : Delimits tail)
    (ht : continuation suffixed text = true) :
    nameLength suffixed (text ++ tail) = text.length := by
  have stop : tail.head?.any continuesName = false :=
    (Option.any_eq_false _ _).mpr (h.head_not rfl)
  -- The characters before a mark at the end, and the mark.
  have split : ∃ body mark, text = body ++ mark ∧ (∀ c ∈ body, continuesName c = true) ∧
      (mark = [] ∨ suffixed = true ∧ (mark = ['?'] ∨ mark = ['!'])) := by
    induction text with
    | nil => exact ⟨[], [], rfl, nofun, .inl rfl⟩
    | cons c text ih =>
      rw [continuation] at ht
      split at ht
      · rename_i hc
        obtain ⟨body, mark, rfl, hbody, hmark⟩ := ih ht
        exact ⟨c :: body, mark, rfl, List.forall_mem_cons.mpr ⟨hc, hbody⟩, hmark⟩
      · simp only [Bool.and_eq_true, Bool.or_eq_true, beq_iff_eq, List.isEmpty_iff] at ht
        obtain ⟨⟨hs, rfl⟩, hc⟩ := ht
        refine ⟨[], [c], rfl, nofun, .inr ⟨hs, ?_⟩⟩
        simpa using hc
  obtain ⟨body, mark, rfl, hbody, rfl | ⟨rfl, hmark⟩⟩ := split
  · rw [List.append_nil]
    exact nameLength_run hbody stop (nameSuffix_nil h)
  · have hword : (body ++ (mark ++ tail)).takeWhile continuesName = body := by
      refine takeWhile_run hbody ?_
      obtain rfl | rfl := hmark <;> simp [continuesName]
    have hsuffix : nameSuffix (mark ++ tail) = mark := by
      obtain rfl | rfl := hmark
      · rfl
      · cases tail with
        | nil => rfl
        | cons c tail =>
          have hc : (c == '=') = false := h.head_not (p := (· == '=')) rfl c rfl
          unfold nameSuffix
          split <;> simp_all
    rw [List.append_assoc, nameLength, hword, List.drop_left, hsuffix]
    simp

theorem val_le_of_isDigit {c : Char} (h : c.isDigit = true) : c.val ≤ '9'.val :=
  of_decide_eq_true (Bool.and_eq_true_iff.mp h).2

theorem val_bounds_of_isUpper {c : Char} (h : c.isUpper = true) :
    'A'.val ≤ c.val ∧ c.val ≤ 'Z'.val := of_decide_eq_true h

theorem le_val_of_isLower {c : Char} (h : c.isLower = true) : 'a'.val ≤ c.val :=
  of_decide_eq_true (Bool.and_eq_true_iff.mp h).1

theorem startsName_disjoint {c : Char} (h : startsName c = true) :
    c.isDigit = false ∧ c.isUpper = false := by
  obtain hl | hl := Bool.or_eq_true_iff.mp h
  · have hle := le_val_of_isLower hl
    refine ⟨Bool.eq_false_iff.mpr fun hd ↦ ?_, Bool.eq_false_iff.mpr fun hu ↦ ?_⟩
    · exact absurd (UInt32.le_trans hle (val_le_of_isDigit hd)) (by decide)
    · exact absurd (UInt32.le_trans hle (val_bounds_of_isUpper hu).2) (by decide)
  · obtain rfl := beq_iff_eq.mp hl
    decide

theorem not_digit_of_isUpper {c : Char} (h : c.isUpper = true) : c.isDigit = false := by
  refine Bool.eq_false_iff.mpr fun hd ↦ ?_
  exact absurd (UInt32.le_trans (val_bounds_of_isUpper h).1 (val_le_of_isDigit hd)) (by decide)

theorem not_mem_of_holds {p : Char → Bool} {c : Char} {cs : List Char} (hc : p c = true)
    (h : cs.any p = false) : c ∉ cs :=
  fun hmem ↦ List.any_eq_false.mp h c hmem hc

theorem scan_plain {c : Char} {rest : List Char}
    (h : c ∉ [' ', '\t', '\r', '\n', '#', '"', '\'', '@', ':']) :
    scan c rest =
      if c.isDigit then scanNumber (c :: rest)
      else if startsName c then .ok (take (1 + nameLength true rest) (c :: rest) nameKind)
      else if c.isUpper then
        .ok (take (1 + nameLength false rest) (c :: rest) fun read ↦
          .constant (String.ofList read))
      else scanMark c (c :: rest) := by
  simp only [List.mem_cons, List.not_mem_nil, or_false, not_or] at h
  simp [scan, isSpace, h]

theorem scan_name {c : Char} {rest : List Char} (h : startsName c = true) :
    scan c rest = .ok (take (1 + nameLength true rest) (c :: rest) nameKind) := by
  rw [scan_plain (not_mem_of_holds h rfl), (startsName_disjoint h).1, h]
  rfl

theorem scan_constant {c : Char} {rest : List Char} (h : c.isUpper = true) :
    scan c rest = .ok (take (1 + nameLength false rest) (c :: rest) fun read ↦
      .constant (String.ofList read)) := by
  have hname : startsName c = false := Bool.eq_false_iff.mpr fun hs ↦ by
    rw [(startsName_disjoint hs).2] at h
    cases h
  rw [scan_plain (not_mem_of_holds h rfl), not_digit_of_isUpper h, hname, h]
  rfl

theorem scan_digit {c : Char} {rest : List Char} (h : c.isDigit = true) :
    scan c rest = scanNumber (c :: rest) := by
  rw [scan_plain (not_mem_of_holds h rfl), if_pos h]

theorem scan_colon (rest : List Char) :
    scan ':' rest =
      if (rest.head?.any fun d ↦ d.isAlpha || d == '_') = true then
        .ok (take (1 + nameLength true rest) (':' :: rest) fun read ↦ .symbol (markedName read))
      else .ok (take 1 (':' :: rest) fun _ ↦ .mark .colon) := rfl

theorem continuesName_of_symbol {c : Char} (hc : (c.isAlpha || c == '_') = true) :
    continuesName c = true := by
  unfold continuesName Char.isAlphanum
  grind

theorem toDigits_cons (k : Nat) :
    ∃ c cs, Nat.toDigits 10 k = c :: cs ∧ ∀ d ∈ c :: cs, d.isDigit = true := by
  obtain ⟨c, cs, hcs⟩ := List.exists_cons_of_ne_nil (Nat.toDigits_ne_nil (b := 10) (n := k))
  refine ⟨c, cs, hcs, fun d hd ↦ ?_⟩
  exact Nat.isDigit_of_mem_toDigits (by decide) (by decide) (hcs ▸ hd)

theorem Name.split {start : Char → Bool} {suffixed : Bool} (name : Name start suffixed) :
    ∃ c rest, name.text.toList = c :: rest ∧ start c = true ∧
      continuation suffixed rest = true := by
  have h := name.isName
  unfold Token.isName at h
  split at h
  · cases h
  · rename_i c rest htext
    exact ⟨c, rest, htext, Bool.and_eq_true_iff.mp h⟩

theorem continuation_of_all {suffixed : Bool} {text : List Char}
    (h : ∀ c ∈ text, continuesName c = true) : continuation suffixed text = true := by
  induction text with
  | nil => rfl
  | cons c text ih =>
    obtain ⟨hc, htext⟩ := List.forall_mem_cons.mp h
    rw [continuation, if_pos hc]
    exact ih htext

theorem all_of_continuation {text : List Char} (h : continuation false text = true) :
    ∀ c ∈ text, continuesName c = true := by
  induction text with
  | nil => exact nofun
  | cons c text ih =>
    rw [continuation] at h
    split at h
    · rename_i hc
      exact List.forall_mem_cons.mpr ⟨hc, ih h⟩
    · cases h

/-- A name that can do without a mark at its end is a word. -/
def SetterName.word (name : SetterName) : Word where
  text := name.text
  isName := by
    obtain ⟨c, rest, htext, hc, hrest⟩ := name.split
    rw [Token.isName, htext]
    exact Bool.and_eq_true_iff.mpr ⟨hc, continuation_of_all (all_of_continuation hrest)⟩

theorem Name.nameLength_append {start : Char → Bool} (name : Name start true)
    (hs : ∀ c, start c = true → continuesName c = true) {tail : List Char} (h : Delimits tail) :
    nameLength true (name.text.toList ++ tail) = name.text.toList.length := by
  obtain ⟨c, rest, htext, hc, hrest⟩ := name.split
  refine Quill.nameLength_append h ?_
  rw [htext, continuation, if_pos (hs c hc)]
  exact hrest

namespace Piece

variable {tail : List Char}

theorem word_scans (w : Word) (h : Delimits tail) : (Piece.word w.text).Scans tail := by
  obtain ⟨c, rest, htext, hc, hrest⟩ := w.split
  refine ⟨c, rest, htext, ?_, ?_⟩
  · rintro rfl
    exact absurd hc (by decide)
  · have hlen : 1 + nameLength true (rest ++ tail) = w.text.toList.length := by
      rw [nameLength_append h hrest, htext, List.length_cons, Nat.add_comm]
    rw [scan_name hc, hlen, ← List.cons_append, ← htext, take_append rfl]
    rfl

theorem constant_scans (name : ConstantName) (h : Delimits tail) :
    (Piece.constant name.text).Scans tail := by
  obtain ⟨c, rest, htext, hc, hrest⟩ := name.split
  refine ⟨c, rest, htext, ?_, ?_⟩
  · rintro rfl
    exact absurd hc (by decide)
  · have hlen : 1 + nameLength false (rest ++ tail) = name.text.toList.length := by
      rw [nameLength_append h hrest, htext, List.length_cons, Nat.add_comm]
    rw [scan_constant hc, hlen, ← List.cons_append, ← htext, take_append rfl, String.ofList_toList]
    rfl

theorem attr_scans (name : Word) (h : Delimits tail) :
    (Piece.attr name.text).Scans tail := by
  obtain ⟨c, rest, htext, hc, -⟩ := name.split
  have hhead : (name.text.toList ++ tail).head?.any startsName = true := by simp [htext, hc]
  have hlen : 1 + nameLength true (name.text.toList ++ tail) =
      ('@' :: name.text.toList).length := by
    rw [name.nameLength_append (fun _ ↦ continuesName_of_startsName) h, List.length_cons,
      Nat.add_comm]
  refine ⟨'@', name.text.toList, rfl, by decide, ?_⟩
  have hscan : scan '@' (name.text.toList ++ tail) =
      .ok (take (1 + nameLength true (name.text.toList ++ tail))
        ('@' :: (name.text.toList ++ tail)) fun read ↦ .attr (markedName read)) := by
    unfold scan
    rw [if_neg (by decide), if_neg (by decide), if_neg (by decide), if_neg (by decide),
      if_neg (by decide), if_neg (by decide), if_pos rfl, if_pos hhead]
  rw [hscan, hlen, ← List.cons_append, take_append rfl, markedName, List.drop_one, List.tail_cons,
    String.ofList_toList]
  rfl

theorem symbol_scans (name : SymbolName) (h : Delimits tail) :
    (Piece.symbol name.text).Scans tail := by
  obtain ⟨c, rest, htext, hc, -⟩ := name.split
  have hhead : ((name.text.toList ++ tail).head?.any fun d ↦ d.isAlpha || d == '_') = true := by
    simpa [htext] using hc
  have hlen : 1 + nameLength true (name.text.toList ++ tail) =
      (':' :: name.text.toList).length := by
    rw [name.nameLength_append (fun _ ↦ continuesName_of_symbol) h, List.length_cons, Nat.add_comm]
  refine ⟨':', name.text.toList, rfl, by decide, ?_⟩
  rw [scan_colon, if_pos hhead, hlen, ← List.cons_append, take_append rfl, markedName,
    List.drop_one, List.tail_cons, String.ofList_toList]
  rfl

theorem setter_scans (w : SetterName) : (Piece.word w.text).Scans ('=' :: tail) := by
  obtain ⟨c, rest, htext, hc, hrest⟩ := w.split
  refine ⟨c, rest, htext, ?_, ?_⟩
  · rintro rfl
    exact absurd hc (by decide)
  · have hlen : 1 + nameLength true (rest ++ '=' :: tail) = w.text.toList.length := by
      rw [nameLength_run (all_of_continuation hrest) rfl rfl, htext, List.length_cons, Nat.add_comm]
    rw [scan_name hc, hlen, ← List.cons_append, ← htext, take_append rfl]
    rfl

theorem keyword_scans (k : Keyword) (h : Delimits tail) : (Piece.word k.text).Scans tail :=
  word_scans ⟨k.text, by cases k <;> decide⟩ h

theorem blank_scans (h : ∀ c ∈ tail.head?, isSpace c = false) : Piece.blank.Scans tail := by
  refine ⟨' ', [], rfl, by decide, ?_⟩
  have hspace : ([' '] ++ tail).takeWhile isSpace = [' '] :=
    takeWhile_run (List.forall_mem_singleton.mpr rfl) ((Option.any_eq_false _ _).mpr h)
  have hscan : scan ' ' tail =
      .ok (take ((' ' :: tail).takeWhile isSpace).length (' ' :: tail) fun _ ↦ .whitespace) := rfl
  rw [List.nil_append, hscan, ← List.singleton_append, hspace]
  rfl

theorem readQuoted_escaped (value rest : List Char) (n : Nat) (c : Char) :
    readQuoted value n (escaped c ++ rest) =
      readQuoted (c :: value) (n + (escaped c).length) rest := by
  unfold escaped
  by_cases hq : c = '"'
  · subst hq
    rfl
  rw [if_neg hq]
  by_cases hb : c = '\\'
  · subst hb
    rfl
  rw [if_neg hb]
  by_cases hn : c = nul
  · subst hn
    rfl
  rw [if_neg hn, List.singleton_append, readQuoted, if_neg hn]
  · rfl
  · exact hq
  · exact fun hc _ ↦ hb hc
  · exact fun _ _ hc _ ↦ hb hc

theorem readQuoted_quoted (text value tail : List Char) (n : Nat) :
    readQuoted value n (text.flatMap escaped ++ '"' :: tail) =
      .closed (text.reverse ++ value) (n + (text.flatMap escaped).length + 1) := by
  induction text generalizing value n with
  | nil => rfl
  | cons c text ih =>
    rw [List.flatMap_cons, List.append_assoc, readQuoted_escaped, ih]
    simp [Nat.add_assoc]

theorem str_scans (value : String) (tail : List Char) :
    (Piece.str value).Scans tail := by
  refine ⟨'"', value.toList.flatMap escaped ++ ['"'], rfl, by decide, ?_⟩
  have hread := readQuoted_quoted value.toList [] tail 0
  have hscan (rest : List Char) :
      scan '"' rest = scanString ('"' :: rest) (readQuoted [] 0 rest) := rfl
  rw [hscan, List.append_assoc, List.singleton_append, hread, scanString]
  have hsplit : '"' :: (value.toList.flatMap escaped ++ '"' :: tail) =
      (Piece.str value).text ++ tail := by simp [text]
  rw [hsplit, take_append (by simp [text]), List.append_nil, List.reverse_reverse,
    String.ofList_toList]
  rfl

/-! Numbers -/

theorem numberParts_digits {digits : List Char} (h : Delimits tail)
    (hd : ∀ c ∈ digits, c.isDigit = true) : numberParts (digits ++ tail) = (digits, none) := by
  have hpart : ∀ c ∈ digits, isDigitPart c = true := fun c hc ↦ by simp [isDigitPart, hd c hc]
  have hwhole : (digits ++ tail).takeWhile isDigitPart = digits :=
    takeWhile_run hpart ((Option.any_eq_false _ _).mpr (h.head_not rfl))
  unfold numberParts
  rw [hwhole]
  dsimp only
  rw [List.drop_left]
  split
  · rename_i d rest
    simp [h.fraction d rest rfl]
  · rfl

theorem digits_scans {k : Nat} (hk : k ≤ maxInt) (h : Delimits tail) :
    (Piece.digits k).Scans tail := by
  obtain ⟨c, cs, hcs, hdigits⟩ := toDigits_cons k
  have hc : c.isDigit = true := hdigits c List.mem_cons_self
  have hvalue : digitsValue (c :: cs) = k := by
    rw [← hcs]
    exact Nat.ofDigitChars_toDigits (by decide) (by decide)
  have hfilter : (c :: cs).filter (· != '_') = c :: cs := by
    refine List.filter_eq_self.mpr fun d hd ↦ bne_iff_ne.mpr ?_
    rintro rfl
    exact absurd (hdigits _ hd) (by decide)
  refine ⟨c, cs, hcs, ?_, ?_⟩
  · rintro rfl
    exact absurd hc (by decide)
  · rw [scan_digit hc, ← List.cons_append, scanNumber, numberParts_digits h hdigits]
    dsimp only
    rw [hfilter, hvalue, if_pos hk, take_append rfl, text, hcs]
    rfl

theorem int_scans {n : Int64} (hn : n ≠ Int64.minValue) (h : Delimits tail) :
    (Piece.digits n.toInt.natAbs).Scans tail := by
  have hlow := n.le_toInt
  have hhigh := n.toInt_lt
  have hne : n.toInt ≠ -2 ^ 63 := fun heq ↦ hn (Int64.toInt_inj.mp heq)
  exact digits_scans (by unfold maxInt; omega) h

/-! Marks -/

theorem find?_of_takeWhile {l : List Mark} {p : Mark → Bool} {m : Mark} (hm : m ∈ l)
    (hp : p m = true) (h : ∀ m' ∈ l.takeWhile (· != m), p m' = false) : l.find? p = some m := by
  induction l with
  | nil => cases hm
  | cons m' l ih =>
    by_cases hm' : m' = m
    · rw [hm', List.find?_cons_of_pos hp]
    · rw [List.takeWhile_cons, if_pos (by simpa using hm')] at h
      rw [List.find?_cons_of_neg (by simp [h m' List.mem_cons_self])]
      exact ih (List.mem_of_ne_of_mem (Ne.symm hm') hm) fun x hx ↦ h x (List.mem_cons_of_mem _ hx)

theorem not_front_of_before (m : Mark) :
    ∀ m' ∈ marksByLength.takeWhile (· != m), ¬ m'.text.toList <+: m.text.toList := by
  cases m <;> decide

theorem mem_marksByLength {m : Mark} (hm : m ≠ .colon) : m ∈ marksByLength := by
  cases m <;> first | exact absurd rfl hm | decide

theorem marks_self {m : Mark} (h : ∀ c ∈ tail.head?, m.growsBy c = false) :
    marks (m.text.toList ++ tail) m = true := by
  have hp : m.text.toList.isPrefixOf (m.text.toList ++ tail) = true :=
    List.isPrefixOf_iff_prefix.mpr (List.prefix_append _ _)
  rw [marks, hp, Bool.true_and]
  by_cases hat : m = .minusAt
  · subst hat
    cases tail with
    | nil => rfl
    | cons c tail =>
      have hc := h c rfl
      simp only [Mark.growsBy, Bool.or_eq_false_iff] at hc
      simpa [Mark.text] using hc.2
  · simp [hat]

theorem find?_marks {m : Mark} (hm : m ≠ .colon) (h : ∀ c ∈ tail.head?, m.growsBy c = false) :
    marksByLength.find? (marks (m.text.toList ++ tail)) = some m := by
  refine find?_of_takeWhile (mem_marksByLength hm) (marks_self h) fun m' hm' ↦ ?_
  have hnot := not_front_of_before m m' hm'
  rw [marks, Bool.and_eq_false_iff]
  refine .inl (Bool.eq_false_iff.mpr fun hp ↦ ?_)
  have hfront := List.isPrefixOf_iff_prefix.mp hp
  -- A mark that comes earlier is no shorter, so it would start with this one.
  obtain hle | ⟨more, hmore⟩ := List.prefix_or_prefix_of_prefix hfront (List.prefix_append _ tail)
  · exact hnot hle
  · cases more with
    | nil => exact hnot ⟨[], by simpa using hmore.symm⟩
    | cons c more =>
      rw [← hmore, List.prefix_append_right_inj] at hfront
      obtain ⟨rest, rfl⟩ := hfront
      have hc := h c rfl
      simp only [Mark.growsBy, Bool.or_eq_false_iff, List.any_eq_false] at hc
      refine hc.1 m' (Mark.mem_all m') (List.isPrefixOf_iff_prefix.mpr ?_)
      rw [← hmore]
      exact ⟨more, by simp⟩

theorem mark_scans {m : Mark} (hm : m ≠ .colon) (h : ∀ c ∈ tail.head?, m.growsBy c = false) :
    (Piece.mark m).Scans tail := by
  have hscan : ∃ c cs, m.text.toList = c :: cs ∧ c ≠ nul ∧
      scan c (cs ++ tail) = scanMark c (m.text.toList ++ tail) := by
    cases m <;> first | exact absurd rfl hm | exact ⟨_, _, rfl, by decide, rfl⟩
  obtain ⟨c, cs, htext, hc, hscan⟩ := hscan
  refine ⟨c, cs, htext, hc, ?_⟩
  rw [hscan, scanMark, find?_marks hm h]
  dsimp only
  rw [take_append (String.length_toList).symm]
  rfl

end Piece

end Quill
