import Quill.Proofs.Data.Text

/-!
# Patterns as they are shown

The pieces that a pattern or a parameter list is shown as. Their kinds are those of the words of the
shown text, whatever delimits it. Only strings that need an escape by a code point and numbers with
a fraction cannot be shown in this way.
-/

namespace Quill

open Token

def TypePath.pieces (p : TypePath) : List Piece :=
  [Piece.mark .dot].intercalate (p.segments.map fun i ↦ [.constant i.name])

namespace Literal

/-- It has no fraction and is shown without an escape by a code point. -/
def isPlain : Literal → Bool
  | float _ => false
  | str value => value.toList.all fun c ↦ Text.escapeChar ['"'] c != Text.codeEscape c
  | _ => true

def pieces : Literal → List Piece
  | nil => [.word Keyword.nil.text]
  | bool true => [.word Keyword.true_.text]
  | bool false => [.word Keyword.false_.text]
  | int n => Tree.intPieces n
  | float _ => []
  | str value => [.str value]
  | symbol name => [.symbol name]

end Literal

/-- A comma and a blank part each two of the groups of pieces. -/
def Piece.commas (groups : List (List Piece)) : List Piece :=
  [Piece.mark .comma, .blank].intercalate groups

namespace Pattern

def pieces : Pattern → List Piece
  | wildcard _ => [.word "_"]
  | bind name none => [.word name.name]
  | bind name (some path) => .word name.name :: .mark .colon :: .blank :: path.pieces
  | const path => path.pieces
  | literal value _ => value.pieces
  | list items _ => Tree.brackets (Piece.commas (all items))
  | splat (some name) _ => [.mark .star, .word name.name]
  | splat none _ => [.mark .star]
where
  all : List Pattern → List (List Piece)
    | [] => []
    | p :: ps => pieces p :: all ps

theorem pieces.all_eq_map (ps : List Pattern) : pieces.all ps = ps.map pieces := by
  induction ps with
  | nil => rfl
  | cons p ps ih => rw [pieces.all, ih, List.map_cons]

theorem text.texts_eq_map (ps : List Pattern) : text.texts ps = ps.map text := by
  induction ps with
  | nil => rfl
  | cons p ps ih => rw [text.texts, ih, List.map_cons]

def literals : Pattern → List Literal
  | literal value _ => [value]
  | list items _ => all items
  | _ => []
where
  all : List Pattern → List Literal
    | [] => []
    | p :: ps => literals p ++ all ps

theorem literals.all_eq_flatMap (ps : List Pattern) : literals.all ps = ps.flatMap literals := by
  induction ps with
  | nil => rfl
  | cons p ps ih => rw [literals.all, ih, List.flatMap_cons]

end Pattern

namespace Params

def pieces (p : Params) : List Piece :=
  Tree.parens (Piece.commas (p.items.map Pattern.pieces ++
    p.block.toList.map fun b ↦ [.mark .amp, .word b.name]))

def literals (p : Params) : List Literal := p.items.flatMap Pattern.literals

end Params

theorem Piece.kinds_words (p : Position) (ps : List Piece) :
    (words (tokens p ps)).map (·.kind) = kinds ps := by
  induction ps generalizing p with
  | nil => rfl
  | cons q ps ih =>
    rw [tokens]
    cases hq : q.visible with
    | true =>
      rw [words_cons (isWord_of_isPlain (kind_isPlain hq) _ _), List.map_cons, ih, kinds_cons hq]
    | false =>
      cases q with
      | blank => exact ih _
      | _ => cases hq

theorem Piece.words_tokens (p stop : Position) (ps : List Piece) :
    (words (tokens p ps ++ [endAt stop])).map (·.kind) = kinds ps := by
  rw [words, List.filter_append, List.map_append]
  exact (List.append_nil _).trans (kinds_words p ps)

theorem Piece.tokens_ended (p stop : Position) (ps : List Piece) :
    Ended (tokens p ps ++ [endAt stop]) := by
  refine ⟨_, _, rfl, ?_⟩
  induction ps generalizing p with
  | nil => exact nofun
  | cons q ps ih =>
    refine List.forall_mem_cons.mpr ⟨?_, ih _⟩
    cases hq : q.visible with
    | true => exact (kind_isPlain hq).eof
    | false =>
      cases q with
      | blank => exact nofun
      | _ => cases hq

/-- Every minus stands right before digits. -/
def Snug : List Piece → Prop
  | [] => True
  | .mark .minus :: ps => (∃ k rest, ps = .digits k :: rest) ∧ Snug ps
  | _ :: ps => Snug ps

namespace Snug

theorem nil : Snug [] := trivial

theorem cons {q : Piece} {ps : List Piece} (h : Snug ps) (hq : q ≠ .mark .minus) :
    Snug (q :: ps) := by
  unfold Snug
  split
  · exact trivial
  · rename_i heq
    exact absurd (List.cons.inj heq).1 hq
  · rename_i heq
    obtain ⟨-, rfl⟩ := List.cons.inj heq
    exact h

theorem append {ps qs : List Piece} (hp : Snug ps) (hq : Snug qs) : Snug (ps ++ qs) := by
  fun_induction Snug ps with
  | case1 => exact hq
  | case2 ps ih =>
    obtain ⟨⟨k, rest, rfl⟩, hp⟩ := hp
    exact ⟨⟨k, rest ++ qs, rfl⟩, ih hp⟩
  | case3 q ps hne ih => exact (ih hp).cons hne

theorem intercalate {sep : List Piece} (hs : Snug sep) {groups : List (List Piece)}
    (h : ∀ qs ∈ groups, Snug qs) : Snug (sep.intercalate groups) := by
  induction groups with
  | nil => exact trivial
  | cons qs groups ih =>
    obtain ⟨hq, hrest⟩ := List.forall_mem_cons.mp h
    cases groups with
    | nil => rwa [List.intercalate_singleton]
    | cons rs groups =>
      rw [List.intercalate_cons_cons]
      exact (hq.append hs).append (ih hrest)

theorem int (n : Int64) : Snug (Tree.intPieces n) := by
  unfold Tree.intPieces
  split
  · exact ⟨⟨_, _, rfl⟩, trivial⟩
  · exact trivial

theorem touches {ps : List Piece} (h : Snug ps) (front : List Char) (stop : Position) :
    ∀ b ∈ minusTouches (words (Piece.tokens (Position.start.after front) ps ++ [endAt stop])),
      b = true := by
  fun_induction Snug ps generalizing front with
  | case1 => exact List.forall_mem_nil _
  | case2 ps ih =>
    obtain ⟨⟨k, rest, rfl⟩, hp⟩ := h
    have hrest := ih hp (front ++ ['-'])
    rw [Piece.tokens, List.cons_append, words_cons rfl] at hrest ⊢
    rw [Piece.tokens, List.cons_append, words_cons rfl, minusTouches_number rfl rfl]
    refine List.forall_mem_cons.mpr ⟨?_, ?_⟩
    · rw [← Position.after_append]
      exact touches_minus front _ _ _ _
    · rw [← Position.after_append]
      exact hrest
  | case3 q ps hne ih =>
    have hrest := ih h (front ++ q.text)
    rw [Piece.tokens, ← Position.after_append, List.cons_append]
    cases hq : q.visible with
    | true =>
      have hminus : q.kind ≠ .mark .minus := by
        cases q with
        | mark m => exact fun heq ↦ hne (by rw [Kind.mark.inj heq])
        | word text => exact nameKind_not_mark _ _
        | _ =>
          intro h
          cases h
      rw [words_cons (isWord_of_isPlain (Piece.kind_isPlain hq) _ _),
        minusTouches_cons (isMinus_eq_false hminus)]
      exact hrest
    | false =>
      cases q with
      | blank => exact hrest
      | _ => cases hq

end Snug

namespace Mark

theorem star_growsBy (c : Char) : star.growsBy c = (c == '=') := by
  simp [growsBy, all, text, List.isPrefixOf]

theorem amp_growsBy (c : Char) : amp.growsBy c = (c == '&') := by
  simp [growsBy, all, text, List.isPrefixOf]

end Mark

/-- The text is read as the pieces, whatever delimits it, and each minus belongs to a number. -/
structure Shown (text : List Char) (qs : List Piece) : Prop where
  opens : ∃ c cs, text = c :: cs ∧ isSpace c = false
  snug : Snug qs
  reads {tail : List Char} {ks : List Kind} : Delimits tail → Reads tail ks →
    Reads (text ++ tail) (Piece.kinds qs ++ ks)

namespace Shown

variable {text tail : List Char} {qs : List Piece} {ks : List Kind}

theorem head (h : Shown text qs) (tail : List Char) :
    ∀ c ∈ (text ++ tail).head?, isSpace c = false := by
  obtain ⟨c, cs, rfl, hc⟩ := h.opens
  rintro _ ⟨⟩
  exact hc

theorem piece {q : Piece} (hq : q.visible = true) (hm : q.kind ≠ .mark .minus)
    (ho : ∃ c cs, q.text = c :: cs ∧ isSpace c = false)
    (h : ∀ tail, Delimits tail → q.Scans tail) : Shown q.text [q] :=
  ⟨ho, .cons .nil fun heq ↦ hm (congrArg Piece.kind heq), fun hd hr ↦ .piece hq hm (h _ hd) hr⟩

theorem name_opens {start : Char → Bool} {suffixed : Bool} (name : Name start suffixed)
    (hs : [' ', '\t', '\r'].any start = false) :
    ∃ c cs, name.text.toList = c :: cs ∧ isSpace c = false := by
  obtain ⟨c, cs, htext, hc, -⟩ := name.split
  exact ⟨c, cs, htext, isSpace_of_not_mem (not_mem_of_holds hc hs)⟩

theorem word (w : Word) : Shown w.text.toList [.word w.text] :=
  piece (q := .word w.text) rfl (nameKind_not_mark _ _) (name_opens w rfl)
    fun _ ↦ Piece.word_scans w

theorem keyword (k : Keyword) : Shown k.text.toList [.word k.text] :=
  word ⟨k.text, by cases k <;> decide⟩

theorem constant (c : ConstantName) : Shown c.text.toList [.constant c.text] :=
  piece (q := .constant c.text) rfl nofun (name_opens c rfl) fun _ ↦ Piece.constant_scans c

theorem symbol (s : SymbolName) : Shown (':' :: s.text.toList) [.symbol s.text] :=
  piece (q := .symbol s.text) rfl nofun ⟨':', _, rfl, rfl⟩ fun _ ↦ Piece.symbol_scans s

theorem int {n : Int64} (hn : n ≠ Int64.minValue) :
    Shown (toString n.toInt).toList (Tree.intPieces n) :=
  ⟨toString_opens n.toInt, .int n, Numeral.reads ⟨n, hn⟩⟩

theorem str {value : String} (h : (Literal.str value).isPlain = true) :
    Shown (Text.quote value).toList [.str value] := by
  obtain ⟨cs, hquote, -⟩ := quotes_shown ⟨value, h⟩ []
  refine ⟨⟨'"', cs, hquote, rfl⟩, .cons .nil nofun, fun {tail ks} _ hr ↦ ?_⟩
  obtain ⟨cs, hquote, hscan⟩ := quotes_shown ⟨value, h⟩ tail
  exact .word ⟨'"', cs, hquote, by decide, hscan⟩ (fun _ _ ↦ rfl) rfl hr

theorem marked {m : Mark} (hm : m = .star ∨ m = .amp) (w : Word) :
    Shown (m.text.toList ++ w.text.toList) [.mark m, .word w.text] where
  opens := by obtain rfl | rfl := hm <;> exact ⟨_, _, rfl, rfl⟩
  snug := .cons (.cons .nil nofun) (by obtain rfl | rfl := hm <;> exact nofun)
  reads {tail ks} hd hr := by
    obtain ⟨c, cs, htext, hc, -⟩ := w.split
    have hgrows : m.growsBy c = false := by
      have hnot : c ∉ ['=', '&'] := not_mem_of_holds hc rfl
      simp only [List.mem_cons, List.not_mem_nil, or_false, not_or] at hnot
      obtain rfl | rfl := hm
      · rw [Mark.star_growsBy, beq_false_of_ne hnot.1]
      · rw [Mark.amp_growsBy, beq_false_of_ne hnot.2]
    have hscans : (Piece.mark m).Scans (w.text.toList ++ tail) := by
      refine Piece.mark_scans (by obtain rfl | rfl := hm <;> decide) fun d hd ↦ ?_
      rw [htext] at hd
      obtain rfl := Option.some.inj hd
      exact hgrows
    rw [List.append_assoc]
    exact .piece (q := .mark m) rfl (by obtain rfl | rfl := hm <;> simp [Piece.kind]) hscans
      ((word w).reads hd hr)

theorem star : Shown ['*'] [.mark .star] :=
  piece (q := .mark .star) rfl nofun ⟨'*', _, rfl, rfl⟩ fun tail hd ↦
    Piece.mark_scans (by decide) fun c hc ↦ by
      rw [Mark.star_growsBy]
      exact hd.head_not (p := (· == '=')) rfl c hc

/-- Shown texts with another text between each two, which delimits the one before it and is read as
`ms` where a character as `p` says is next. -/
theorem separated {sep : List Char} {ms : List Piece} {p : Char → Bool}
    (hsep : ∀ c cs ks, p c = true → Reads (c :: cs) ks →
      Delimits (sep ++ c :: cs) ∧ Reads (sep ++ c :: cs) (Piece.kinds ms ++ ks))
    {texts : List (List Char)} {groups : List (List Piece)}
    (h : List.Forall₂ (fun text qs ↦ Shown text qs ∧ ∃ c cs, text = c :: cs ∧ p c = true)
      texts groups) (hd : Delimits tail) (hr : Reads tail ks) :
    Reads (sep.intercalate texts ++ tail) (Piece.kinds (ms.intercalate groups) ++ ks) := by
  induction h with
  | nil => exact hr
  | @cons text qs texts groups hfirst hrest ih =>
    cases hrest with
    | nil =>
      rw [List.intercalate_singleton, List.intercalate_singleton]
      exact hfirst.1.reads hd hr
    | @cons text' qs' texts groups hsecond _ =>
      obtain ⟨c, cs, hc, hp⟩ : ∃ c cs, sep.intercalate (text' :: texts) ++ tail = c :: cs ∧
          p c = true := by
        obtain ⟨c, cs, rfl, hp⟩ := hsecond.2
        cases texts with
        | nil => exact ⟨c, cs ++ tail, by rw [List.intercalate_singleton, List.cons_append], hp⟩
        | cons text texts => exact ⟨c, _, by rw [List.intercalate_cons_cons]; rfl, hp⟩
      rw [hc] at ih
      obtain ⟨hdelim, hread⟩ := hsep c cs _ hp ih
      have hall := hfirst.1.reads hdelim hread
      rw [← hc] at hall
      simpa [List.intercalate_cons_cons] using hall

theorem constants {names : List ConstantName} (h : names ≠ []) :
    Shown (['.'].intercalate (names.map (·.text.toList)))
      ([Piece.mark .dot].intercalate (names.map fun c ↦ [.constant c.text])) where
  opens := by
    obtain ⟨c, names, rfl⟩ := List.exists_cons_of_ne_nil h
    obtain ⟨d, ds, htext, hd⟩ := (constant c).opens
    cases names with
    | nil => exact ⟨d, ds, by simpa using htext, hd⟩
    | cons c' names => exact ⟨d, _, by rw [List.map_cons, List.map_cons, htext]; rfl, hd⟩
  snug := by
    have hdot : Snug [.mark .dot] := trivial
    refine .intercalate hdot fun qs hqs ↦ ?_
    obtain ⟨c, -, rfl⟩ := List.mem_map.mp hqs
    exact .cons .nil nofun
  reads {tail ks} hd hr := by
    refine separated (p := fun c ↦ !c.isDigit) (fun c cs ks hc hr ↦ ⟨⟨by simp, ?_⟩, ?_⟩) ?_ hd hr
    · rintro d rest ⟨⟩
      simpa using hc
    · exact .mark (m := .dot) (by decide) (by decide) (fun _ ↦ rfl) hr
    · rw [List.forall₂_map_left_iff, List.forall₂_map_right_iff, List.forall₂_same]
      intro c _
      obtain ⟨d, ds, htext, hd, -⟩ := c.split
      exact ⟨constant c, d, ds, htext, by simp [not_digit_of_isUpper hd]⟩

theorem commas {texts : List (List Char)} {groups : List (List Piece)}
    (h : List.Forall₂ Shown texts groups) (hd : Delimits tail) (hr : Reads tail ks) :
    Reads ([',', ' '].intercalate texts ++ tail) (Piece.kinds (Piece.commas groups) ++ ks) := by
  refine separated (p := fun c ↦ !isSpace c) (fun c cs ks hc hr ↦ ⟨.of_cons (by decide), ?_⟩)
    (h.imp fun text qs hs ↦ ⟨hs, ?_⟩) hd hr
  · have hhead : ∀ d ∈ (c :: cs).head?, isSpace d = false := by
      rintro _ ⟨⟩
      simpa using hc
    exact .mark (m := .comma) (by decide) (by decide) (fun _ ↦ rfl) (.space hhead hr)
  · obtain ⟨c, cs, htext, hc⟩ := hs.opens
    exact ⟨c, cs, htext, by simp [hc]⟩

theorem snug_commas {texts : List (List Char)} {groups : List (List Piece)}
    (h : List.Forall₂ Shown texts groups) : Snug (Piece.commas groups) := by
  have hcomma : Snug [.mark .comma, .blank] := trivial
  refine .intercalate hcomma ?_
  induction h with
  | nil => exact nofun
  | cons hfirst _ ih => exact List.forall_mem_cons.mpr ⟨hfirst.snug, ih⟩

end Shown

theorem Literal.Spelled.ne_minValue {n : Int64} (h : (Literal.int n).Spelled Kind.IsRead) :
    n ≠ Int64.minValue := by
  obtain ⟨k, hk, hv⟩ := h
  rintro rfl
  cases k with
  | int m =>
    have hm : 0 ≤ m := hk
    obtain hv | hv := hv
    · cases hv
      exact absurd hm (by decide)
    · have hneg : -m = Int64.minValue := by simpa [Grammar.negatedLiteral] using hv
      obtain rfl : m = Int64.minValue := by
        rw [← Int64.neg_neg (a := m), hneg]
        rfl
      exact absurd hm (by decide)
  | keyword w => cases w <;> simp [Grammar.literalOf, Grammar.negatedLiteral] at hv
  | _ => simp [Grammar.literalOf, Grammar.negatedLiteral] at hv

theorem Literal.Spelled.symbolName {name : String} (h : (Literal.symbol name).Spelled Kind.IsRead) :
    isName (fun c ↦ c.isAlpha || c == '_') true name = true := by
  obtain ⟨k, hk, hv⟩ := h
  cases k with
  | symbol s =>
    obtain rfl : s = name := by simpa [Grammar.literalOf, Grammar.negatedLiteral] using hv
    exact hk
  | keyword w => cases w <;> simp [Grammar.literalOf, Grammar.negatedLiteral] at hv
  | _ => simp [Grammar.literalOf, Grammar.negatedLiteral] at hv

theorem Literal.Spelled.shown {value : Literal} (h : value.Spelled Kind.IsRead)
    (hp : value.isPlain = true) : Shown value.text.toList value.pieces := by
  cases value with
  | nil => exact .keyword .nil
  | bool b =>
    cases b with
    | false => exact .keyword .false_
    | true => exact .keyword .true_
  | int n => exact .int h.ne_minValue
  | float x => cases hp
  | str value => exact .str hp
  | symbol name =>
    have hshown := Shown.symbol ⟨name, h.symbolName⟩
    rw [Literal.text, String.toList_append]
    exact hshown

theorem TypePath.Spelled.shown {p : TypePath} (h : p.Spelled Kind.IsRead) :
    Shown p.text.toList p.pieces := by
  have hname (i : Ident) (hi : i ∈ p.segments) : isName Char.isUpper false i.name = true :=
    h.constants i hi
  let names : List ConstantName := p.segments.attach.map fun i ↦ ⟨i.1.name, hname i.1 i.2⟩
  have hnames : names ≠ [] := by simpa [names] using h.ne_nil
  have hshown := Shown.constants hnames
  simpa [names, TypePath.text, TypePath.pieces, Function.comp_def] using hshown

theorem Shown.identifier {name : String} (h : Kind.IsRead (.identifier name)) :
    Shown name.toList [.word name] := .word ⟨name, h.1⟩

theorem Shown.typed {name : String} {path : TypePath} (hn : Kind.IsRead (.identifier name))
    (hp : path.Spelled Kind.IsRead) :
    Shown (name ++ ": " ++ path.text).toList
      (.word name :: .mark .colon :: .blank :: path.pieces) := by
  have hpath := hp.shown
  have hname := Shown.identifier hn
  refine ⟨?_, .cons (.cons (.cons hpath.snug nofun) nofun) nofun, fun {tail ks} hd hr ↦ ?_⟩
  · obtain ⟨c, cs, hc, hspace⟩ := hname.opens
    exact ⟨c, _, by rw [String.toList_append, String.toList_append, hc]; rfl, hspace⟩
  · have hcolon : (Piece.mark .colon).Scans (' ' :: (path.text.toList ++ tail)) :=
      ⟨':', [], rfl, by decide, rfl⟩
    have hread : Reads (':' :: ' ' :: (path.text.toList ++ tail)) (.mark .colon :: _) :=
      .piece (q := .mark .colon) rfl nofun hcolon
        (.space (hpath.head tail) (hpath.reads hd hr))
    simpa using hname.reads (.of_cons (by decide)) hread

mutual

theorem Pattern.shown : (p : Pattern) → p.Spelled Kind.IsRead →
    (∀ v ∈ p.literals, v.isPlain = true) → Shown p.text.toList p.pieces
  | .wildcard _, _, _ => .word ⟨"_", by decide⟩
  | .bind _ none, h, _ => .identifier h.1
  | .bind _ (some _), h, _ => .typed h.1 h.2
  | .const _, h, _ => TypePath.Spelled.shown h
  | .literal _ _, h, hp => Literal.Spelled.shown h (hp _ List.mem_cons_self)
  | .splat none _, _, _ => by
    rw [text]
    exact .star
  | .splat (some name) _, h, _ => by
    rw [text, String.toList_append]
    exact .marked (.inl rfl) ⟨name.name, h.1.1⟩
  | .list items s, h, hp => by
    have hitems := Pattern.shown_all items (spelled_list.mp h).spelled hp
    have htext : (list items s).text.toList =
        '[' :: ([',', ' '].intercalate ((text.texts items).map String.toList) ++ [']']) := by
      simp [text]
    rw [htext]
    refine ⟨⟨'[', _, rfl, rfl⟩,
      .cons ((Shown.snug_commas hitems).append (.cons .nil nofun)) nofun, fun {tail ks} hd hr ↦ ?_⟩
    have hclose : Reads (']' :: tail) (.mark .rBracket :: ks) :=
      .mark (m := .rBracket) (by decide) (by decide) (fun _ ↦ rfl) hr
    have hread : Reads ('[' :: _) (.mark .lBracket :: _) :=
      .mark (m := .lBracket) (by decide) (by decide) (fun _ ↦ rfl)
        (Shown.commas hitems (.of_cons (by decide)) hclose)
    simpa [pieces, Tree.brackets] using hread

theorem Pattern.shown_all : (ps : List Pattern) → (∀ p ∈ ps, p.Spelled Kind.IsRead) →
    (∀ v ∈ literals.all ps, v.isPlain = true) →
      List.Forall₂ Shown ((text.texts ps).map String.toList) (pieces.all ps)
  | [], _, _ => .nil
  | p :: ps, h, hp => by
    rw [literals.all, List.forall_mem_append] at hp
    have ⟨hfirst, hrest⟩ := List.forall_mem_cons.mp h
    exact .cons (p.shown hfirst hp.1) (Pattern.shown_all ps hrest hp.2)

end

theorem Params.text_chars (p : Params) :
    p.text.toList = '(' :: ([',', ' '].intercalate
      ((Pattern.text.texts p.items).map String.toList ++
        p.block.toList.map fun b ↦ '&' :: b.name.toList) ++ [')']) := by
  rw [text, Pattern.text.texts_eq_map]
  cases p.block <;> simp

theorem Params.Spelled.reads {p : Params} (h : p.Spelled Kind.IsRead)
    (hp : ∀ v ∈ p.literals, v.isPlain = true) :
    Snug p.pieces ∧ ∀ tail ks, Reads tail ks →
      Reads (p.text.toList ++ tail) (Piece.kinds p.pieces ++ ks) := by
  have hitems := Pattern.shown_all p.items h.items.spelled
    (by rwa [Pattern.literals.all_eq_flatMap])
  have hblock : List.Forall₂ Shown (p.block.toList.map fun b ↦ '&' :: b.name.toList)
      (p.block.toList.map fun b ↦ [.mark .amp, .word b.name]) := by
    rw [List.forall₂_map_left_iff, List.forall₂_map_right_iff, List.forall₂_same]
    intro b hb
    have hname : isName startsName true b.name = true := (h.block b (by simpa using hb)).1
    exact .marked (.inr rfl) ⟨b.name, hname⟩
  have hall := List.rel_append hitems hblock
  refine ⟨?_, fun tail ks hr ↦ ?_⟩
  · rw [pieces, Tree.parens, ← Pattern.pieces.all_eq_map]
    exact .cons ((Shown.snug_commas hall).append (.cons .nil (by simp))) (by simp)
  · have hclose : Reads (')' :: tail) (.mark .rParen :: ks) :=
      .mark (m := .rParen) (by decide) (by decide) (fun _ ↦ rfl) hr
    have hread : Reads ('(' :: _) (.mark .lParen :: _) :=
      .mark (m := .lParen) (by decide) (by decide) (fun _ ↦ rfl)
        (Shown.commas hall (.of_cons (by decide)) hclose)
    rw [Params.text_chars]
    simpa [pieces, Tree.parens, Pattern.pieces.all_eq_map] using hread

end Quill
