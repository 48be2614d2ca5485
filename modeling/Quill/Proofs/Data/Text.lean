import Quill.Proofs.Data.Datum
import Quill.Proofs.Printing.Precedence
import Quill.Proofs.Spacing

/-!
# Reading data

A datum as it is shown has the same words as its tree, so it is read as that tree. Main statement:
`Datum.text_read`. In a tree line feeds and tabs stand in strings as they are, while they are shown
as escapes; so both texts are taken apart in the same way, and only then compared.
-/

namespace Quill

open Token

/-- The text has no error, its words are of these kinds, and every minus touches the number after
it, wherever the text starts. -/
def Reads (text : List Char) (kinds : List Kind) : Prop :=
  ∀ front, ∃ ts, Tokenizes (Position.start.after front) text ts none ∧
    (words ts).map (·.kind) = kinds ∧ ∀ b ∈ minusTouches (words ts), b = true

/-- The text `read` is a token of the kind `k` before `tail`. -/
def Fronts (read : List Char) (k : Kind) (tail : List Char) : Prop :=
  ∃ c cs, read = c :: cs ∧ c ≠ nul ∧ scan c (cs ++ tail) = .ok ⟨k, read, tail⟩

theorem words_cons {t : Token} (h : t.isWord = true) (ts : List Token) :
    words (t :: ts) = t :: words ts := List.filter_cons_of_pos h

theorem minusTouches_cons {t : Token} (h : isMinus t.kind = false) (ts : List Token) :
    minusTouches (t :: ts) = minusTouches ts := by
  cases ts with
  | nil => rfl
  | cons u us => rw [minusTouches, h, Bool.false_and, if_neg Bool.false_ne_true]

theorem minusTouches_number {t u : Token} (ht : isMinus t.kind = true) (hu : isNumber u.kind = true)
    (ts : List Token) : minusTouches (t :: u :: ts) = t.touches u :: minusTouches (u :: ts) := by
  rw [minusTouches, ht, hu]
  rfl

theorem touches_minus (front digits : List Char) (s t : String) (k : Kind) :
    touches ⟨.mark .minus, s, .ofText (Position.start.after front) ['-']⟩
      ⟨k, t, .ofText (Position.start.after (front ++ ['-'])) digits⟩ = true := by
  have hlast : (Span.ofText (Position.start.after front) ['-']).last =
      Position.start.after front :=
    Position.back_next (c := '-') (Position.one_le_column front) (by decide)
  rw [touches, decide_eq_true_iff, hlast, Position.after_append]
  rfl

namespace Reads

variable {read tail : List Char} {k : Kind} {ks : List Kind}

theorem nil : Reads [] [] := fun _ ↦ ⟨_, .stop rfl, rfl, nofun⟩

theorem next (hf : Fronts read k tail) (front : List Char) {ts : List Token}
    (h : Tokenizes (Position.start.after (front ++ read)) tail ts none) :
    Tokenizes (Position.start.after front) (read ++ tail)
      (⟨k, String.ofList read, .ofText (Position.start.after front) read⟩ :: ts) none := by
  obtain ⟨c, cs, rfl, hc, hscan⟩ := hf
  rw [Position.after_append] at h
  exact .token hc hscan h

theorem blank (hf : Fronts read .whitespace tail) (h : Reads tail ks) :
    Reads (read ++ tail) ks := by
  intro front
  obtain ⟨ts, hts, hks, htouch⟩ := h (front ++ read)
  exact ⟨_, next hf front hts, hks, htouch⟩

theorem word (hf : Fronts read k tail) (hk : ∀ s t, Token.isWord ⟨k, s, t⟩ = true)
    (hm : isMinus k = false) (h : Reads tail ks) : Reads (read ++ tail) (k :: ks) := by
  intro front
  obtain ⟨ts, hts, hks, htouch⟩ := h (front ++ read)
  refine ⟨_, next hf front hts, ?_, ?_⟩
  · rw [words_cons (hk _ _), List.map_cons, hks]
  · rw [words_cons (hk _ _), minusTouches_cons hm]
    exact htouch

theorem negative {digits : List Char} {n : Int64}
    (hminus : Fronts ['-'] (.mark .minus) (digits ++ tail)) (hdigits : Fronts digits (.int n) tail)
    (h : Reads tail ks) : Reads ('-' :: (digits ++ tail)) (.mark .minus :: .int n :: ks) := by
  intro front
  obtain ⟨ts, hts, hks, htouch⟩ := h (front ++ ['-'] ++ digits)
  refine ⟨_, next hminus front (next hdigits (front ++ ['-']) hts), ?_, ?_⟩
  · rw [words_cons rfl, words_cons rfl, List.map_cons, List.map_cons, hks]
  · rw [words_cons rfl, words_cons rfl, minusTouches_number rfl rfl, touches_minus,
      minusTouches_cons rfl]
    exact List.forall_mem_cons.mpr ⟨rfl, htouch⟩

end Reads

theorem isMinus_eq_false {k : Kind} (h : k ≠ .mark .minus) : isMinus k = false := by
  cases k with
  | mark m => cases m <;> first | rfl | exact absurd rfl h
  | _ => rfl

theorem isWord_of_isPlain {k : Kind} (h : Piece.IsPlain k) (s : String) (t : Span) :
    isWord ⟨k, s, t⟩ = true := by
  unfold isWord
  split
  · exact absurd ‹_› h.whitespace
  · exact absurd ‹_› (h.comment _)
  · exact absurd ‹_› h.eof
  · rfl

theorem Reads.piece {q : Piece} {tail : List Char} {ks : List Kind} (hq : q.visible = true)
    (hm : q.kind ≠ .mark .minus) (hs : q.Scans tail) (h : Reads tail ks) :
    Reads (q.text ++ tail) (Piece.kinds [q] ++ ks) := by
  have hplain := Piece.kind_isPlain hq
  rw [Piece.kinds_cons hq]
  exact .word hs (isWord_of_isPlain hplain) (isMinus_eq_false hm) h

theorem Reads.mark {m : Mark} {tail : List Char} {ks : List Kind} (hm : m ≠ .minus)
    (hc : m ≠ .colon) (hg : ∀ c, m.growsBy c = false) (h : Reads tail ks) :
    Reads (m.text.toList ++ tail) (.mark m :: ks) :=
  .piece (q := .mark m) rfl (fun heq ↦ hm (Kind.mark.inj heq))
    (Piece.mark_scans hc fun c _ ↦ hg c) h

theorem Reads.space {tail : List Char} {ks : List Kind} (hc : ∀ c ∈ tail.head?, isSpace c = false)
    (h : Reads tail ks) : Reads (' ' :: tail) ks := .blank (Piece.blank_scans hc) h

/-- Texts that are quoted in this way are read as strings. -/
def Quotes (quote : String → List Char) : Prop :=
  ∀ (t : PlainText) (tail : List Char), ∃ cs, quote t.text = '"' :: cs ∧
    scan '"' (cs ++ tail) = .ok ⟨.str t.text, quote t.text, tail⟩

theorem quotes_pieces : Quotes fun t ↦ (Piece.str t).text := by
  intro t tail
  obtain ⟨c, cs, htext, -, hscan⟩ := Piece.str_scans t.text tail
  obtain ⟨rfl, rfl⟩ := List.cons.inj htext
  exact ⟨_, rfl, hscan⟩

theorem readQuoted_escapeChar {c : Char} (hc : Text.escapeChar ['"'] c ≠ Text.codeEscape c)
    (value rest : List Char) (n : Nat) :
    readQuoted value n (Text.escapeChar ['"'] c ++ rest) =
      readQuoted (c :: value) (n + (Text.escapeChar ['"'] c).length) rest := by
  unfold Text.escapeChar at hc ⊢
  split_ifs at hc ⊢ with hnul htab hreturn hnewline hmark hgraphic
  · rw [hnul]
    rfl
  · rw [htab]
    rfl
  · rw [hreturn]
    rfl
  · rw [hnewline]
    rfl
  · obtain rfl | rfl : c = '\\' ∨ c = '"' := by simpa using hmark
    · rfl
    · rfl
  · -- A character that stands for itself is neither a quote nor a backslash.
    simp only [Bool.or_eq_true, decide_eq_true_eq, List.mem_singleton, not_or] at hmark
    have hend : ¬c = nul := hnul
    rw [List.singleton_append, readQuoted, if_neg hend]
    · rfl
    · exact hmark.2
    · exact fun hc _ ↦ hmark.1 hc
    · exact fun _ _ hc _ ↦ hmark.1 hc
  · exact absurd rfl hc

theorem readQuoted_shown {text : List Char}
    (h : ∀ c ∈ text, Text.escapeChar ['"'] c ≠ Text.codeEscape c) (value tail : List Char)
    (n : Nat) :
    readQuoted value n (text.flatMap (Text.escapeChar ['"']) ++ '"' :: tail) =
      .closed (text.reverse ++ value)
        (n + (text.flatMap (Text.escapeChar ['"'])).length + 1) := by
  induction text generalizing value n with
  | nil => rfl
  | cons c text ih =>
    obtain ⟨hc, htext⟩ := List.forall_mem_cons.mp h
    rw [List.flatMap_cons, List.append_assoc, readQuoted_escapeChar hc, ih htext]
    simp [Nat.add_assoc]

theorem quotes_shown : Quotes fun t ↦ (Text.quote t).toList := by
  intro t tail
  have hplain : ∀ c ∈ t.text.toList, Text.escapeChar ['"'] c ≠ Text.codeEscape c :=
    fun c hc ↦ bne_iff_ne.mp (List.all_eq_true.mp t.isPlain c hc)
  have hread := readQuoted_shown hplain [] tail 0
  have hscan (rest : List Char) :
      scan '"' rest = scanString ('"' :: rest) (readQuoted [] 0 rest) := rfl
  have hquote : (Text.quote t.text).toList =
      '"' :: (t.text.toList.flatMap (Text.escapeChar ['"']) ++ ['"']) := String.toList_ofList
  refine ⟨_, hquote, ?_⟩
  rw [hscan, List.append_assoc, List.singleton_append, hread, scanString]
  have hsplit : '"' :: (t.text.toList.flatMap (Text.escapeChar ['"']) ++ '"' :: tail) =
      (Text.quote t.text).toList ++ tail := by simp [hquote]
  rw [hsplit, take_append (by simp [hquote]), List.append_nil, List.reverse_reverse,
    String.ofList_toList]

theorem toString_chars (z : Int) :
    (toString z).toList =
      if z < 0 then '-' :: Nat.toDigits 10 z.natAbs else Nat.toDigits 10 z.natAbs := by
  cases z with
  | ofNat n => exact String.toList_ofList
  | negSucc n =>
    rw [if_pos (Int.negSucc_lt_zero n)]
    exact (String.toList_append).trans (congrArg _ String.toList_ofList)

theorem isSpace_of_not_mem {c : Char} (h : c ∉ [' ', '\t', '\r']) : isSpace c = false := by
  simp only [List.mem_cons, List.not_mem_nil, or_false, not_or] at h
  simp [isSpace, h]

theorem toString_opens (z : Int) : ∃ c cs, (toString z).toList = c :: cs ∧ isSpace c = false := by
  obtain ⟨c, cs, hcs, hall⟩ := toDigits_cons z.natAbs
  rw [toString_chars, hcs]
  split
  · exact ⟨'-', _, rfl, rfl⟩
  · exact ⟨c, cs, rfl, isSpace_of_not_mem (not_mem_of_holds (hall c List.mem_cons_self) rfl)⟩

section

variable {quote : String → List Char} (hq : Quotes quote) {tail : List Char} {ks : List Kind}

theorem Numeral.reads (n : Numeral) (hd : Delimits tail) (h : Reads tail ks) :
    Reads ((toString n.value.toInt).toList ++ tail)
      (Piece.kinds (Tree.intPieces n.value) ++ ks) := by
  have hdigits := Piece.int_scans n.isWritten hd
  have hsign : n.value < 0 ↔ n.value.toInt < 0 := Int64.lt_iff_toInt_lt
  rw [toString_chars, Tree.intPieces]
  by_cases hneg : n.value < 0
  · rw [if_pos hneg, if_pos (hsign.mp hneg)]
    refine .negative (Piece.mark_scans (m := .minus) (by decide) fun c hc ↦ ?_) hdigits h
    obtain ⟨d, cs, hcs, hall⟩ := toDigits_cons n.value.toInt.natAbs
    rw [hcs] at hc
    obtain rfl := Option.some.inj hc
    have hnot : d ∉ ['@', '='] := not_mem_of_holds (hall d List.mem_cons_self) rfl
    simpa [Mark.minus_growsBy] using hnot
  · rw [if_neg hneg, if_neg (fun hz ↦ hneg (hsign.mpr hz))]
    exact .piece (q := .digits _) rfl nofun hdigits h

include hq in
theorem Scalar.reads (x : Scalar) (hd : Delimits tail) (h : Reads tail ks) :
    Reads (x.chars quote ++ tail) (Piece.kinds x.tree.pieces ++ ks) := by
  cases x with
  | nil => exact .piece (q := .word Keyword.nil.text) rfl nofun (Piece.keyword_scans .nil hd) h
  | bool b =>
    cases b with
    | false =>
      exact .piece (q := .word Keyword.false_.text) rfl nofun (Piece.keyword_scans .false_ hd) h
    | true =>
      exact .piece (q := .word Keyword.true_.text) rfl nofun (Piece.keyword_scans .true_ hd) h
  | int n => exact n.reads hd h
  | symbol name =>
    exact .piece (q := .symbol name.text) rfl nofun (Piece.symbol_scans name.symbol hd) h
  | str t =>
    obtain ⟨cs, hquote, hscan⟩ := hq t tail
    exact .word ⟨'"', cs, hquote, by decide, hscan⟩ (fun _ _ ↦ rfl) rfl h

include hq in
theorem Scalar.head (x : Scalar) : ∀ c ∈ (x.chars quote ++ tail).head?, isSpace c = false := by
  have hstart : ∃ c cs, x.chars quote = c :: cs ∧ isSpace c = false := by
    cases x with
    | nil => exact ⟨'n', _, rfl, rfl⟩
    | bool b => cases b <;> exact ⟨_, _, rfl, rfl⟩
    | int n => exact toString_opens n.value.toInt
    | symbol name => exact ⟨':', _, rfl, rfl⟩
    | str t =>
      obtain ⟨cs, hquote, -⟩ := hq t []
      exact ⟨'"', cs, hquote, rfl⟩
  obtain ⟨c, cs, hcs, hc⟩ := hstart
  rw [hcs]
  rintro d ⟨⟩
  exact hc

include hq in
theorem Datum.head (d : Datum) : ∀ c ∈ (d.chars quote ++ tail).head?, isSpace c = false := by
  cases d with
  | scalar x => exact x.head hq
  | list ds =>
    rintro c ⟨⟩
    rfl

end

mutual

theorem Datum.reads {quote : String → List Char} (hq : Quotes quote) :
    (d : Datum) → ∀ (tail : List Char) (ks : List Kind), Delimits tail → Reads tail ks →
      Reads (d.chars quote ++ tail) (Piece.kinds d.tree.pieces ++ ks)
  | .scalar x, _, _, hd, h => x.reads hq hd h
  | .list ds, tail, ks, _, h => by
    have hclose : Reads (']' :: tail) (.mark .rBracket :: ks) :=
      .mark (m := .rBracket) (by decide) (by decide) (fun _ ↦ rfl) h
    have hitems := Datum.reads_all hq ds _ _ (.of_cons (by decide)) hclose
    have hkinds : Piece.kinds (Datum.list ds).tree.pieces ++ ks = .mark .lBracket ::
        (Piece.kinds (Tree.separated (Datum.treesOf ds)) ++ .mark .rBracket :: ks) := by
      rw [Datum.tree, Tree.pieces, Tree.brackets, List.cons_append, Piece.kinds_cons rfl,
        Piece.kinds_append, List.cons_append, List.append_assoc]
      rfl
    have hchars : (Datum.list ds).chars quote ++ tail =
        '[' :: (Datum.charsOf quote ds ++ ']' :: tail) := by
      rw [Datum.chars, List.append_assoc, List.cons_append]
      rfl
    rw [hkinds, hchars]
    exact .mark (m := .lBracket) (by decide) (by decide) (fun _ ↦ rfl) hitems

theorem Datum.reads_all {quote : String → List Char} (hq : Quotes quote) :
    (ds : List Datum) → ∀ (tail : List Char) (ks : List Kind), Delimits tail → Reads tail ks →
      Reads (Datum.charsOf quote ds ++ tail)
        (Piece.kinds (Tree.separated (Datum.treesOf ds)) ++ ks)
  | [], _, _, _, h => h
  | [d], tail, ks, hd, h => by
    have hread := d.reads hq tail ks hd h
    have htrees : Tree.separated (Datum.treesOf [d]) = d.tree.pieces := by
      simp [Datum.treesOf, Tree.separated]
    have hchars : Datum.charsOf quote [d] = d.chars quote := by simp [Datum.charsOf]
    rw [htrees, hchars]
    exact hread
  | d :: d' :: ds, tail, ks, hd, h => by
    -- The blank after a comma ends where the next item starts.
    have hrest := Datum.reads_all hq (d' :: ds) tail ks hd h
    have hhead : ∀ c ∈ (Datum.charsOf quote (d' :: ds) ++ tail).head?, isSpace c = false := by
      rw [Datum.charsOf, List.append_assoc, List.append_assoc]
      exact d'.head hq
    have hcomma : Reads (',' :: ' ' :: (Datum.charsOf quote (d' :: ds) ++ tail))
        (.mark .comma :: (Piece.kinds (Tree.separated (Datum.treesOf (d' :: ds))) ++ ks)) :=
      .mark (m := .comma) (by decide) (by decide) (fun _ ↦ rfl) (.space hhead hrest)
    have hread := d.reads hq _ _ (.of_cons (by decide)) hcomma
    have hkinds : Piece.kinds (Tree.separated (Datum.treesOf (d :: d' :: ds))) ++ ks =
        Piece.kinds d.tree.pieces ++
          .mark .comma :: (Piece.kinds (Tree.separated (Datum.treesOf (d' :: ds))) ++ ks) := by
      rw [Datum.treesOf, Tree.separated, Piece.kinds_append, Piece.kinds_append, List.append_assoc,
        List.append_assoc]
      rfl
    rw [hkinds, Datum.charsOf_cons_cons, List.append_assoc, List.cons_append, List.cons_append]
    exact hread

end

/-- Where every minus touches the number after it, nothing but the kinds of the words is left. -/
theorem minusTouches_of_all {ts us : List Token} (hkinds : ts.map (·.kind) = us.map (·.kind))
    (ht : ∀ b ∈ minusTouches ts, b = true) (hu : ∀ b ∈ minusTouches us, b = true) :
    minusTouches ts = minusTouches us := by
  -- The lists hold nothing but `true`, so their lengths say all, and these go by the kinds.
  suffices hlength : (minusTouches ts).length = (minusTouches us).length by
    rw [List.eq_replicate_of_mem ht, List.eq_replicate_of_mem hu, hlength]
  clear ht hu
  induction ts generalizing us with
  | nil =>
    cases us with
    | nil => rfl
    | cons u us => cases hkinds
  | cons t ts ih =>
    cases us with
    | nil => cases hkinds
    | cons u us =>
      have hkind : t.kind = u.kind := (List.cons.inj hkinds).1
      have hkinds := (List.cons.inj hkinds).2
      have hrest := ih hkinds
      cases ts with
      | nil =>
        cases us with
        | nil => rfl
        | cons u' us => cases hkinds
      | cons t' ts =>
        cases us with
        | nil => cases hkinds
        | cons u' us =>
          have hkind' : t'.kind = u'.kind := (List.cons.inj hkinds).1
          rw [minusTouches, minusTouches, hkind, hkind']
          split
          · rw [List.length_cons, List.length_cons, hrest]
          · exact hrest

theorem Reads.tokens {text : List Char} {ks : List Kind} (h : Reads text ks) :
    ∃ ts, Token.ofText? (String.ofList text) = .ok ts.toArray ∧ (words ts).map (·.kind) = ks ∧
      ∀ b ∈ minusTouches (words ts), b = true := by
  obtain ⟨ts, hts, hwords⟩ := h []
  obtain ⟨ts', e, htext, hts'⟩ := ofText_tokenizes (String.ofList text)
  rw [String.toList_ofList] at hts'
  obtain ⟨rfl, rfl⟩ := hts'.unique hts
  exact ⟨ts', by rw [Token.ofText?, htext], hwords⟩

theorem Scalar.spanned_iff (x : Scalar) (e : Expr) :
    x.tree.Spanned e ↔ e.kind = .literal x.literal := by
  obtain ⟨k, s⟩ := e
  constructor
  · intro h
    cases x <;> (cases h; rfl)
  · rintro rfl
    cases x with
    | int n => exact .int
    | nil => exact .atom (a := .nil)
    | bool b => exact .atom (a := .bool b)
    | symbol name => exact .atom (a := .symbol name.symbol)
    | str t => exact .atom (a := .str t.text)

open Grammar (View)

mutual

theorem Datum.spanned_of_alike : (d : Datum) → ∀ {e e' : Expr}, d.tree.Spanned e' →
    View.blank.expr e = View.blank.expr e' → d.tree.Spanned e
  | .scalar x, ⟨k, s⟩, ⟨k', s'⟩, h, hsame => by
    obtain rfl : k' = .literal x.literal := (x.spanned_iff _).mp h
    have hkind : View.blank.kind k = .literal x.literal := (Expr.mk.inj hsame).1
    cases k with
    | literal value => exact (x.spanned_iff _).mpr hkind
    | _ => cases hkind
  | .list ds, ⟨k, s⟩, _, .list hs, hsame => by
    have hkind := (Expr.mk.inj hsame).1
    cases k with
    | list es => exact .list (Datum.spanned_of_alike_all ds hs (Expr.Kind.list.inj hkind))
    | _ => cases hkind

theorem Datum.spanned_of_alike_all : (ds : List Datum) → ∀ {es es' : List Expr},
    List.Forall₂ Tree.Spanned (treesOf ds) es' → View.blank.exprs es = View.blank.exprs es' →
      List.Forall₂ Tree.Spanned (treesOf ds) es
  | [], [], _, .nil, _ => .nil
  | [], _ :: _, _, .nil, hsame => nomatch hsame
  | d :: ds, [], _, .cons .., hsame => nomatch hsame
  | d :: ds, _ :: _, _, .cons hd hds, hsame =>
    have ⟨hhead, htail⟩ := List.cons.inj hsame
    .cons (d.spanned_of_alike hd hhead) (Datum.spanned_of_alike_all ds hds htail)

end

mutual

theorem Datum.ints_ne : (d : Datum) → Int64.minValue ∉ d.tree.ints
  | .scalar x => by
    cases x with
    | int n => simpa [tree, Scalar.tree, Tree.ints] using n.isWritten.symm
    | _ => exact List.not_mem_nil
  | .list ds => Datum.ints_ne_all ds

theorem Datum.ints_ne_all : (ds : List Datum) → Int64.minValue ∉ Tree.intsOf (treesOf ds)
  | [] => List.not_mem_nil
  | d :: ds => by
    rw [treesOf, Tree.intsOf, List.mem_append, not_or]
    exact ⟨d.ints_ne, Datum.ints_ne_all ds⟩

end

mutual

theorem Datum.spell_pieces : (d : Datum) →
    d.chars (fun t ↦ (Piece.str t).text) = Piece.spell d.tree.pieces
  | .scalar x => by
    cases x with
    | nil => rfl
    | bool b => cases b <;> rfl
    | int n =>
      have hsign : n.value < 0 ↔ n.value.toInt < 0 := Int64.lt_iff_toInt_lt
      rw [chars, Scalar.chars, toString_chars, tree, Scalar.tree, Tree.pieces, Tree.intPieces]
      simp only [hsign]
      split <;> simp [Piece.text, Mark.text]
    | symbol name => exact (List.append_nil _).symm
    | str t => exact (List.append_nil _).symm
  | .list ds => by
    rw [chars, spell_separated, tree, Tree.pieces, Tree.brackets, Piece.spell_append]
    rfl

theorem Datum.spell_separated : (ds : List Datum) →
    Datum.charsOf (fun t ↦ (Piece.str t).text) ds = Piece.spell (Tree.separated (treesOf ds))
  | [] => rfl
  | d :: ds => by
    rw [charsOf, spell_pieces, spell_separated, treesOf, Tree.separated]
    cases ds with
    | nil => simp [treesOf]
    | cons d' ds => simp [treesOf, Piece.text, Mark.text]

end

theorem Datum.text_read (d : Datum) :
    ∃ e s, Program.ofText? d.text = .ok ⟨[e], s⟩ ∧ d.tree.Spanned e := by
  have hnil : Delimits [] := ⟨nofun, nofun⟩
  obtain ⟨ts, hts, hkinds, htouch⟩ := (d.reads quotes_shown [] [] hnil .nil).tokens
  obtain ⟨us, hus, hkinds', htouch'⟩ := (d.reads quotes_pieces [] [] hnil .nil).tokens
  obtain ⟨stop, hstop⟩ := Token.ofText?_spell (d.tree.lexes d.ints_ne)
  rw [List.append_nil] at hts
  rw [List.append_nil, d.spell_pieces, hstop] at hus
  obtain rfl := List.toArray_inj (Except.ok.inj hus)
  obtain ⟨e', s', hprogram, he'⟩ := Grammar.ofTokens?_tokens d.tree stop
  have hkinds := hkinds.trans hkinds'.symm
  have hsame := Grammar.ofTokens?_same
    (Grammar.Cursor.ofTokens_alike (ofText?_ended hts) (ofText?_ended hstop) hkinds
      (minusTouches_of_all hkinds htouch htouch'))
  rw [hprogram] at hsame
  rw [Program.ofText?, Datum.text, hts]
  dsimp only
  generalize Program.ofTokens? ts = outcome at hsame
  obtain ⟨⟨body, s⟩, rfl, hbody⟩ : ∃ p, outcome = .ok p ∧
      View.blank.exprs p.body = View.blank.exprs [e'] := by
    cases hsame with
    | ok h => exact ⟨_, rfl, h⟩
  cases body with
  | nil => cases hbody
  | cons e es =>
    obtain ⟨hhead, htail⟩ := List.cons.inj hbody
    cases es with
    | nil => exact ⟨e, s, rfl, d.spanned_of_alike he' hhead⟩
    | cons e'' es => cases htail

end Quill
