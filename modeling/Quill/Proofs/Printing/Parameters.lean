import Quill.Proofs.Printing.Patterns

/-!
# Reading patterns and parameters

The pieces of a pattern are read as that pattern, up to spans, wherever a comma or a closing bracket
is next, and those of a parameter list as that list.
-/

namespace Quill

open Token (Kind)

namespace Grammar

open Piece Parse

variable {α : Type} {n k : Nat} {ps qs : List Piece}

theorem ident_alike {i j : Ident} (h : i.name = j.name) :
    View.blank.ident i = View.blank.ident j := by
  rw [View.ident, View.ident, h]
  rfl

theorem nameKind_of_isRead {name : String} (h : Kind.IsRead (.identifier name)) :
    Token.nameKind name.toList = .identifier name :=
  nameKind_variable ⟨⟨name, h.1⟩, h.2⟩

theorem identifier_reads {name : String} (h : Kind.IsRead (.identifier name)) :
    Parse.Reads n identifier (.word name :: ps) ps (·.name = name) := by
  refine .bind .kind fun j hj ↦ ?_
  obtain rfl : j = .identifier name := hj.trans (nameKind_of_isRead h)
  exact .bind (.advance rfl) fun _ _ ↦ .pure rfl

theorem constantName_reads {name : String} :
    Parse.Reads n constantName (.constant name :: ps) ps (·.name = name) := by
  refine .bind_eq .kind ?_
  exact .bind (.advance rfl) fun _ _ ↦ .pure rfl

theorem Cursor.Before.second {c : Cursor} (h : c.Before n ps) :
    c.second = (Piece.kinds ps).tail.headD .eof := by
  rw [← h.kinds, Cursor.second]
  rcases c.rest with - | ⟨t, - | ⟨t', rest⟩⟩ <;> rfl

theorem typePath_loop (is : List Ident) (path : TypePath)
    (hp : endsExpression (first ps) = true) :
    Loops n typePathStep path
      (is.flatMap (fun i ↦ [Piece.mark .dot, .constant i.name]) ++ ps) ps
      fun q ↦ q.segments.map View.blank.ident = (path.segments ++ is).map View.blank.ident := by
  induction is generalizing path with
  | nil =>
    refine .stop (.bind .get fun c hc ↦ .bind .get fun c' hc' ↦ ?_)
    have hk : c.kind = first ps := hc.kind
    rw [hk]
    split
    · rename_i hdot _
      rw [hdot] at hp
      cases hp
    · exact .pure (by rw [List.append_nil]; rfl)
  | cons i is ih =>
    have hstep : Parse.Reads n (typePathStep path) (.mark .dot :: .constant i.name ::
        (is.flatMap (fun i ↦ [Piece.mark .dot, .constant i.name]) ++ ps))
        (is.flatMap (fun i ↦ [Piece.mark .dot, .constant i.name]) ++ ps)
        (Sum.elim (fun q ↦ ∃ j : Ident, j.name = i.name ∧ q.segments = path.segments ++ [j])
          fun _ ↦ False) := by
      refine .bind .get fun c hc ↦ .bind .get fun c' hc' ↦ ?_
      rw [hc.kind, hc'.second]
      exact .bind (.advance rfl) fun _ _ ↦ .bind constantName_reads fun j hj ↦ .pure ⟨j, hj, rfl⟩
    refine .more hstep ?_ fun q hq c hc ↦ ?_
    · rw [List.flatMap_cons, List.append_assoc]
      exact Nat.lt_succ_of_lt (Nat.lt_succ_self _)
    · obtain ⟨j, hj, hsegments⟩ := hq
      obtain ⟨r, d, hruns, hd, hr⟩ := ih q c hc
      refine ⟨r, d, hruns, hd, ?_⟩
      rw [hr, hsegments]
      simp [ident_alike hj]

theorem pieces_path (i : Ident) (is : List Ident) (s : Span) :
    TypePath.pieces ⟨i :: is, s⟩ =
      .constant i.name :: is.flatMap fun i ↦ [Piece.mark .dot, .constant i.name] := by
  unfold TypePath.pieces
  induction is generalizing i with
  | nil => rfl
  | cons j is ih =>
    have hrest := ih j
    rw [List.map_cons] at hrest
    rw [List.map_cons, List.map_cons, List.intercalate_cons_cons, hrest]
    rfl

theorem typePath_reads {p : TypePath} (h : p.segments ≠ [])
    (hp : endsExpression (first ps) = true) :
    Parse.Reads n typePath (p.pieces ++ ps) ps (View.blank.path · = View.blank.path p) := by
  obtain ⟨segments, s⟩ := p
  obtain ⟨i, is, rfl⟩ := List.exists_cons_of_ne_nil h
  rw [pieces_path]
  refine .bind constantName_reads fun j hj ↦ (typePath_loop is _ hp).iterate.mono fun q hq ↦ ?_
  rw [View.path, View.path, hq]
  simp [ident_alike hj]
  rfl

theorem commas_cons {g : List Piece} {gs : List (List Piece)} :
    commas (g :: gs) = g ++ (if gs.isEmpty then [] else .mark .comma :: .blank :: commas gs) := by
  cases gs with
  | nil => simp [commas]
  | cons g' gs => simp [commas, List.intercalate_cons_cons]

theorem commas_loop {step : α → Parse (α ⊕ α)} {closing : Mark} {a : α} {P R : α → Prop}
    {g : List Piece} {gs : List (List Piece)} (hc : endsExpression (.mark closing) = true)
    (hcomma : closing ≠ .comma)
    (hitem : ∀ qs rs r, endsExpression (first qs) = true →
      (∀ b, P b → Parse.Reads n (comma b b) qs rs r) → Parse.Reads n (step a) (g ++ qs) rs r)
    (hlast : gs = [] → ∀ b, P b → R b)
    (hmore : gs ≠ [] → ∀ b, P b →
      Loops n step b (commas gs ++ .mark closing :: ps) (.mark closing :: ps) R) :
    Loops n step a (commas (g :: gs) ++ .mark closing :: ps) (.mark closing :: ps) R := by
  rw [commas_cons, List.append_assoc]
  cases gs with
  | nil =>
    have hother : (first (.mark closing :: ps) == .mark .comma) = false := beq_mark_of_ne hcomma
    refine .stop (hitem _ _ _ hc fun b hb ↦ (comma_done b b hother).mono ?_)
    rintro _ rfl
    exact hlast rfl b hb
  | cons g' gs =>
    have hstep : Parse.Reads n (step a)
        (g ++ .mark .comma :: .blank :: (commas (g' :: gs) ++ .mark closing :: ps))
        (commas (g' :: gs) ++ .mark closing :: ps) (Sum.elim P fun _ ↦ False) := by
      refine hitem _ _ _ rfl fun b hb ↦ (comma_more b b).mono ?_
      rintro _ rfl
      exact hb
    refine .more hstep ?_ (hmore (List.cons_ne_nil g' gs))
    simp only [List.isEmpty_cons, Bool.false_eq_true, if_false, List.cons_append, size_append,
      size_mark, size_blank]
    omega

theorem keyword_starts {w : Keyword} (h : startsOperand (.keyword w) = true) :
    Starts [.word w.text] := ⟨_, _, rfl, rfl, startsOperand_keyword h⟩

theorem word_starts {name : String} (h : Kind.IsRead (.identifier name)) (rest : List Piece) :
    Starts (.word name :: rest) := by
  refine ⟨_, _, rfl, rfl, ?_⟩
  rw [Piece.kind, nameKind_of_isRead h]
  rfl

theorem path_starts {p : TypePath} (h : p.segments ≠ []) : Starts p.pieces := by
  obtain ⟨segments, s⟩ := p
  obtain ⟨i, is, rfl⟩ := List.exists_cons_of_ne_nil h
  rw [pieces_path]
  exact ⟨_, _, rfl, rfl, rfl⟩

theorem literal_starts {value : Literal} (h : value.isPlain = true) : Starts value.pieces := by
  cases value with
  | nil => exact keyword_starts (w := .nil) rfl
  | bool b =>
    cases b with
    | false => exact keyword_starts (w := .false_) rfl
    | true => exact keyword_starts (w := .true_) rfl
  | int m => exact intPieces_starts m
  | float x => cases h
  | str value => exact ⟨_, _, rfl, rfl, rfl⟩
  | symbol name => exact ⟨_, _, rfl, rfl, rfl⟩

theorem isRead_underscore : Kind.IsRead (.identifier "_") := ⟨by decide, by decide⟩

theorem pattern_starts {p : Pattern} (h : p.Spelled Kind.IsRead)
    (hp : ∀ v ∈ p.literals, v.isPlain = true) (hs : p.isSplat = false) : Starts p.pieces := by
  cases p with
  | wildcard s => exact word_starts isRead_underscore _
  | bind name type =>
    cases type with
    | none => exact word_starts h.1 _
    | some path => exact word_starts h.1 _
  | const path => exact path_starts h.ne_nil
  | literal value s => exact literal_starts (hp value List.mem_cons_self)
  | list items s => exact ⟨_, _, rfl, rfl, rfl⟩
  | splat name s => cases hs

theorem literal_reads {value : Literal} {pattern : Parse Pattern} (hv : value.isPlain = true) :
    Parse.Reads n (patternWith pattern) (value.pieces ++ ps) ps
      fun q ↦ ∃ s, q = .literal value s := by
  refine .bind .kind fun j hj ↦ .bind .span fun here _ ↦ ?_
  cases value with
  | nil =>
    obtain rfl : j = .keyword .nil := hj.trans (nameKind_keyword .nil)
    exact .bind (.advance rfl) fun _ _ ↦ .pure ⟨here, rfl⟩
  | bool b =>
    cases b with
    | false =>
      obtain rfl : j = .keyword .false_ := hj.trans (nameKind_keyword .false_)
      exact .bind (.advance rfl) fun _ _ ↦ .pure ⟨here, rfl⟩
    | true =>
      obtain rfl : j = .keyword .true_ := hj.trans (nameKind_keyword .true_)
      exact .bind (.advance rfl) fun _ _ ↦ .pure ⟨here, rfl⟩
  | int m =>
    have hvalue := ofNat_natAbs m
    rw [Literal.pieces, Tree.intPieces] at hj ⊢
    by_cases hneg : m < 0
    · rw [if_pos hneg] at hj hvalue ⊢
      obtain rfl : j = .mark .minus := hj
      refine .bind (.advance rfl) fun _ _ ↦ .bind_eq .kind ?_
      refine .bind (.advance rfl) fun s _ ↦ .pure ⟨here.merge s, ?_⟩
      rw [hvalue, Int64.neg_neg]
    · rw [if_neg hneg] at hj hvalue ⊢
      obtain rfl : j = .int (Int64.ofNat m.toInt.natAbs) := hj
      rw [hvalue]
      exact .bind (.advance rfl) fun _ _ ↦ .pure ⟨here, rfl⟩
  | float x => cases hv
  | str value =>
    obtain rfl : j = .str value := hj
    exact .bind (.advance rfl) fun _ _ ↦ .pure ⟨here, rfl⟩
  | symbol name =>
    obtain rfl : j = .symbol name := hj
    exact .bind (.advance rfl) fun _ _ ↦ .pure ⟨here, rfl⟩

theorem not_mark_of_ends {k : Kind} {m : Mark} (h : endsExpression k = true)
    (hm : endsExpression (.mark m) = false) : (k == .mark m) = false := by
  refine Bool.eq_false_iff.mpr fun heq ↦ ?_
  rw [eq_of_beq_mark heq, hm] at h
  cases h

theorem wildcard_reads {s : Span} {pattern : Parse Pattern}
    (hp : endsExpression (first ps) = true) :
    Parse.Reads n (patternWith pattern) ((Pattern.wildcard s).pieces ++ ps) ps
      (View.blank.pattern · = View.blank.pattern (.wildcard s)) := by
  refine .bind .kind fun j hj ↦ .bind .span fun here _ ↦ ?_
  obtain rfl : j = .identifier "_" := hj.trans (nameKind_of_isRead isRead_underscore)
  refine .bind (.advance rfl) fun _ _ ↦ .bind_eq (.eatMark_other (not_mark_of_ends hp rfl)) ?_
  exact .pure rfl

theorem bind_reads {name : Ident} {type : Option TypePath} {pattern : Parse Pattern}
    (h : (Pattern.bind name type).Spelled Kind.IsRead) (hp : endsExpression (first ps) = true) :
    Parse.Reads n (patternWith pattern) ((Pattern.bind name type).pieces ++ ps) ps
      (View.blank.pattern · = View.blank.pattern (.bind name type)) := by
  have hname : Kind.IsRead (.identifier name.name) := by cases type <;> exact h.1
  refine .bind .kind fun j hj ↦ .bind .span fun here _ ↦ ?_
  cases type with
  | none =>
    obtain rfl : j = .identifier name.name := hj.trans (nameKind_of_isRead hname)
    refine .bind (.advance rfl) fun _ _ ↦ .bind_eq (.eatMark_other (not_mark_of_ends hp rfl)) ?_
    rw [beq_false_of_ne h.2]
    exact .pure rfl
  | some path =>
    obtain rfl : j = .identifier name.name := hj.trans (nameKind_of_isRead hname)
    refine .bind (.advance rfl) fun _ _ ↦ .bind_eq (.eatMark .colon) ?_
    refine .blank (.bind (typePath_reads h.2.ne_nil hp) fun q hq ↦ .pure ?_)
    rw [View.pattern, View.pattern, Option.map_some, Option.map_some, hq]
    rfl

theorem const_reads {path : TypePath} {pattern : Parse Pattern} (h : path.segments ≠ [])
    (hp : endsExpression (first ps) = true) :
    Parse.Reads n (patternWith pattern) ((Pattern.const path).pieces ++ ps) ps
      (View.blank.pattern · = View.blank.pattern (.const path)) := by
  have hpath := typePath_reads (n := n) h hp
  obtain ⟨segments, s⟩ := path
  obtain ⟨i, is, rfl⟩ := List.exists_cons_of_ne_nil h
  refine .bind .kind fun j hj ↦ .bind .span fun here _ ↦ ?_
  obtain rfl : j = .constant i.name := by
    rw [hj, Pattern.pieces, pieces_path]
    rfl
  exact .bind hpath fun q hq ↦ .pure (congrArg Pattern.const hq)

theorem splat_reads {name : Option Ident} {s : Span}
    (h : (Pattern.splat name s).Spelled Kind.IsRead) (hp : endsExpression (first ps) = true) :
    Parse.Reads n splat ((Pattern.splat name s).pieces ++ ps) ps
      (View.blank.pattern · = View.blank.pattern (.splat name s)) := by
  cases name with
  | none =>
    refine .bind (.advance rfl) fun _ _ ↦ .bind .kind fun j hj ↦ ?_
    split
    · rename_i name
      have hfirst : first ps = .identifier name := hj.symm
      rw [hfirst] at hp
      cases hp
    · exact .pure rfl
  | some name =>
    refine .bind (.advance rfl) fun _ _ ↦ .bind .kind fun j hj ↦ ?_
    obtain rfl : j = .identifier name.name := hj.trans (nameKind_of_isRead h.1)
    refine .bind (identifier_reads h.1) fun i hi ↦ .pure ?_
    rw [hi, beq_false_of_ne h.2]
    exact congrArg (fun j ↦ Pattern.splat (some j) .origin) (ident_alike hi)

def ReadsPatterns (n : Nat) (pattern : Parse Pattern) (items : List Pattern) : Prop :=
  ∀ p ∈ items, p.isSplat = false → ∀ ps, endsExpression (first ps) = true →
    Starts p.pieces ∧
      Parse.Reads n pattern (p.pieces ++ ps) ps (View.blank.pattern · = View.blank.pattern p)

theorem any_isSplat_of_count {p : Pattern} {items done : List Pattern} (hs : p.isSplat = true)
    (h : (p :: items ++ done).countP (·.isSplat) ≤ 1) : done.any (·.isSplat) = false := by
  rw [List.cons_append, List.countP_cons, List.countP_append, if_pos hs] at h
  have hnone : done.countP (·.isSplat) = 0 := by omega
  simpa [List.countP_eq_zero] using hnone

theorem isSplat_of_alike {p q : Pattern} (h : View.blank.pattern q = View.blank.pattern p) :
    q.isSplat = p.isSplat := by
  rw [← isSplat_pattern q, h, isSplat_pattern]

theorem first_splat (name : Option Ident) (s : Span) (qs : List Piece) :
    first ((Pattern.splat name s).pieces ++ qs) = .mark .star := by cases name <;> rfl

theorem listPatternStep_reads {α : List Pattern ⊕ List Pattern → Prop} {pattern : Parse Pattern}
    {p : Pattern} {items done : List Pattern} {rs : List Piece}
    (hn : ReadsPatterns n pattern (p :: items)) (hp : p.Spelled Kind.IsRead)
    (hd : (p :: items ++ done).countP (·.isSplat) ≤ 1) (hqs : endsExpression (first qs) = true)
    (hcomma : ∀ q, View.blank.pattern q = View.blank.pattern p →
      Parse.Reads n (comma (q :: done) (q :: done)) qs rs α) :
    Parse.Reads n (listPatternStep pattern done) (p.pieces ++ qs) rs α := by
  refine .bind_eq (.atMark .rBracket) ?_
  cases hs : p.isSplat with
  | true =>
    cases p with
    | splat name s =>
      rw [first_splat]
      refine .bind_eq (.atMark .star) ?_
      rw [first_splat, any_isSplat_of_count hs hd]
      exact .bind (splat_reads hp hqs) hcomma
    | _ => cases hs
  | false =>
    obtain ⟨hstart, hread⟩ := hn p List.mem_cons_self hs qs hqs
    rw [ne_mark_of_starts (hstart.first qs) rfl]
    refine .bind_eq (.atMark .star) ?_
    rw [ne_mark_of_starts (hstart.first qs) rfl]
    exact .bind hread hcomma

theorem items_loop {pattern : Parse Pattern} {items : List Pattern}
    (hn : ReadsPatterns n pattern items) (h : ∀ p ∈ items, p.Spelled Kind.IsRead)
    (done : List Pattern) (hd : (items ++ done).countP (·.isSplat) ≤ 1) :
    Loops n (listPatternStep pattern) done
      (commas (Pattern.pieces.all items) ++ .mark .rBracket :: ps) (.mark .rBracket :: ps)
      fun r ↦ r.map View.blank.pattern = (items.reverse ++ done).map View.blank.pattern := by
  induction items generalizing done with
  | nil =>
    refine .stop (.bind (.atMark .rBracket) fun b hb ↦ ?_)
    obtain rfl : b = true := hb.trans (beq_self_eq_true Mark.rBracket)
    exact .pure rfl
  | cons p items ih =>
    obtain ⟨hp, hitems⟩ := List.forall_mem_cons.mp h
    refine commas_loop (P := fun b ↦ ∃ q, View.blank.pattern q = View.blank.pattern p ∧
      b = q :: done) rfl (by decide) (fun qs rs r hqs hcomma ↦ ?_) ?_ ?_
    · exact listPatternStep_reads hn hp hd hqs fun q hq ↦ hcomma _ ⟨q, hq, rfl⟩
    · rintro hnone _ ⟨q, hq, rfl⟩
      obtain rfl : items = [] := by cases items <;> first | rfl | cases hnone
      simp [hq]
    · rintro - _ ⟨q, hq, rfl⟩ c hc
      have hcount : (items ++ q :: done).countP (·.isSplat) ≤ 1 := by
        simp only [List.cons_append, List.countP_cons, List.countP_append,
          isSplat_of_alike hq] at hd ⊢
        omega
      obtain ⟨r, d, hruns, hd, hr⟩ := ih (fun p' hp' ↦ hn p' (List.mem_cons_of_mem p hp')) hitems
        (q :: done) hcount c hc
      exact ⟨r, d, hruns, hd, by simp [hr, hq]⟩

theorem size_commas {g : List Piece} {gs : List (List Piece)} (h : g ∈ gs) :
    size g ≤ size (commas gs) := by
  induction gs with
  | nil => cases h
  | cons g' gs ih =>
    rw [commas_cons, size_append]
    obtain rfl | h := List.mem_cons.mp h
    · omega
    · have hle := ih h
      have hne : gs.isEmpty = false := by cases gs <;> first | rfl | cases h
      rw [hne, if_neg Bool.false_ne_true, size_mark, size_blank]
      omega

mutual

/-- A pattern is read by a parser for patterns that are nested no deeper than it has tokens. -/
theorem pattern_reads : (p : Pattern) → ∀ {k : Nat} {ps : List Piece}, p.Spelled Kind.IsRead →
    (∀ v ∈ p.literals, v.isPlain = true) → p.isSplat = false → size p.pieces ≤ k →
    endsExpression (first ps) = true →
    Parse.Reads n (patternUpTo k) (p.pieces ++ ps) ps (View.blank.pattern · = View.blank.pattern p)
  | p, 0, _, h, hp, hs, hk, _ => absurd (pattern_starts h hp hs).size_pos (by omega)
  | .wildcard _, _ + 1, _, _, _, _, _, he => wildcard_reads he
  | .bind _ _, _ + 1, _, h, _, _, _, he => bind_reads h he
  | .const _, _ + 1, _, h, _, _, _, he => const_reads h.ne_nil he
  | .literal value s, _ + 1, _, _, hp, _, _, _ => by
    refine (literal_reads (hp value List.mem_cons_self)).mono ?_
    rintro _ ⟨s', rfl⟩
    rfl
  | .list items s, k + 1, ps, h, hp, _, hk, he => by
    have hitems := Pattern.spelled_list.mp h
    rw [Pattern.pieces, size_brackets] at hk
    have hall : ReadsPatterns n (patternUpTo k) items :=
      patterns_read items hitems.spelled hp fun q hq ↦ by
        have hle : size q.pieces ≤ size (commas (Pattern.pieces.all items)) :=
          size_commas (Pattern.pieces.all_eq_map items ▸ List.mem_map_of_mem hq)
        omega
    rw [Pattern.pieces, Tree.brackets_append]
    refine .bind_eq .kind (.bind .span fun here _ ↦ ?_)
    refine .bind (.advance rfl) fun _ _ ↦ .bind .skipNewlines fun _ _ ↦ ?_
    refine .bind (items_loop hall hitems.spelled [] (by simpa using hitems.splats)).iterate ?_
    intro r hr
    refine .bind (.expect .rBracket) fun _ _ ↦ .pure ?_
    rw [View.pattern, View.pattern, View.patterns_eq_map, View.patterns_eq_map, List.map_reverse,
      hr]
    simp
    rfl

theorem patterns_read : (items : List Pattern) → ∀ {k : Nat},
    (∀ p ∈ items, p.Spelled Kind.IsRead) →
    (∀ v ∈ Pattern.literals.all items, v.isPlain = true) →
    (∀ p ∈ items, size p.pieces ≤ k) → ReadsPatterns n (patternUpTo k) items
  | [], _, _, _, _ => nofun
  | p :: items, _, h, hp, hk => by
    rw [Pattern.literals.all, List.forall_mem_append] at hp
    have ⟨hfirst, hrest⟩ := List.forall_mem_cons.mp h
    have ⟨hkp, hks⟩ := List.forall_mem_cons.mp hk
    have hitems := patterns_read items hrest hp.2 hks
    intro q hq hs ps he
    obtain heq | hq := List.mem_cons.mp hq
    · rw [heq] at hs ⊢
      exact ⟨pattern_starts hfirst hp.1 hs, pattern_reads p hfirst hp.1 hs hkp he⟩
    · exact hitems q hq hs ps he

end

theorem patterns_readable {items : List Pattern} (h : ∀ p ∈ items, p.Spelled Kind.IsRead)
    (hp : ∀ v ∈ Pattern.literals.all items, v.isPlain = true) :
    ReadsPatterns n pattern items := by
  intro p hmem hs ps he
  have hplain : ∀ v ∈ p.literals, v.isPlain = true := fun v hv ↦ hp v (by
    rw [Pattern.literals.all_eq_flatMap]
    exact List.mem_flatMap.mpr ⟨p, hmem, hv⟩)
  refine ⟨pattern_starts (h p hmem) hplain hs, .bind .get fun c hc ↦ ?_⟩
  refine pattern_reads p (h p hmem) hplain hs ?_ he
  have hbound := hc.bound
  rw [size_append] at hbound
  rw [hc.limit]
  omega

/-- The pieces of parameters without the parentheses. -/
def paramGroups (items : List Pattern) (block : Option Ident) : List (List Piece) :=
  Pattern.pieces.all items ++ block.toList.map fun b ↦ [.mark .amp, .word b.name]

theorem paramStep_reads {α : Params ⊕ Params → Prop} {p : Pattern} {items before : List Pattern}
    {rs : List Piece} (hn : ReadsPatterns n pattern (p :: items)) (hp : p.Spelled Kind.IsRead)
    (hd : (p :: items ++ before).countP (·.isSplat) ≤ 1) (hqs : endsExpression (first qs) = true)
    (hcomma : ∀ q, View.blank.pattern q = View.blank.pattern p →
      Parse.Reads n (comma ⟨before ++ [q], none⟩ ⟨before ++ [q], none⟩) qs rs α) :
    Parse.Reads n (paramStep .rParen ⟨before, none⟩) (p.pieces ++ qs) rs α := by
  refine .bind_eq (.atMark .rParen) ?_
  cases hs : p.isSplat with
  | true =>
    cases p with
    | splat name s =>
      rw [first_splat]
      refine .bind_eq (.eatMark_other (by rw [first_splat]; rfl)) (.bind_eq (.atMark .star) ?_)
      rw [first_splat, Params.isVariadic, any_isSplat_of_count hs hd]
      exact .bind (splat_reads hp hqs) hcomma
    | _ => cases hs
  | false =>
    obtain ⟨hstart, hread⟩ := hn p List.mem_cons_self hs qs hqs
    rw [ne_mark_of_starts (hstart.first qs) rfl]
    refine .bind_eq (.eatMark_other (ne_mark_of_starts (hstart.first qs) rfl)) ?_
    refine .bind_eq (.atMark .star) ?_
    rw [ne_mark_of_starts (hstart.first qs) rfl]
    exact .bind hread hcomma

theorem params_loop {items : List Pattern} {block : Option Ident}
    (hn : ReadsPatterns n pattern items) (h : ∀ p ∈ items, p.Spelled Kind.IsRead)
    (hb : ∀ b ∈ block, Kind.IsRead (.identifier b.name)) (done : Params)
    (hdone : done.block = none) (hd : (items ++ done.items).countP (·.isSplat) ≤ 1) :
    Loops n (paramStep .rParen) done
      (commas (paramGroups items block) ++ .mark .rParen :: ps) (.mark .rParen :: ps)
      fun r ↦ r.items.map View.blank.pattern = (done.items ++ items).map View.blank.pattern ∧
        r.block.map View.blank.ident = block.map View.blank.ident := by
  obtain ⟨before, block'⟩ := done
  obtain rfl : block' = none := hdone
  induction items generalizing before with
  | nil =>
    cases block with
    | none =>
      refine .stop (.bind (.atMark .rParen) fun b hb ↦ ?_)
      obtain rfl : b = true := hb.trans (beq_self_eq_true Mark.rParen)
      exact .pure ⟨by simp, rfl⟩
    | some b =>
      refine commas_loop (P := fun r ↦ ∃ i : Ident, i.name = b.name ∧ r = ⟨before, some i⟩) rfl
        (by decide) (fun qs rs r hqs hcomma ↦ ?_) ?_ fun hne ↦ absurd rfl hne
      · refine .bind_eq (.atMark .rParen) (.bind_eq (.eatMark .amp) ?_)
        exact .bind (identifier_reads (hb b rfl)) fun i hi ↦ hcomma _ ⟨i, hi, rfl⟩
      · rintro - _ ⟨i, hi, rfl⟩
        exact ⟨by simp, congrArg some (ident_alike hi)⟩
  | cons p items ih =>
    obtain ⟨hp, hitems⟩ := List.forall_mem_cons.mp h
    refine commas_loop (P := fun r ↦ ∃ q, View.blank.pattern q = View.blank.pattern p ∧
      r = ⟨before ++ [q], none⟩) rfl (by decide) (fun qs rs r hqs hcomma ↦ ?_) ?_ ?_
    · exact paramStep_reads hn hp hd hqs fun q hq ↦ hcomma _ ⟨q, hq, rfl⟩
    · rintro hnone _ ⟨q, hq, rfl⟩
      -- The last parameter, and no block after it.
      obtain rfl : items = [] := by cases items <;> first | rfl | cases hnone
      obtain rfl : block = none := by cases block <;> first | rfl | cases hnone
      exact ⟨by simp [hq], rfl⟩
    · rintro - _ ⟨q, hq, rfl⟩ c hc
      have hcount : (items ++ (before ++ [q])).countP (·.isSplat) ≤ 1 := by
        simp only [List.cons_append, List.countP_cons, List.countP_append, List.countP_nil,
          isSplat_of_alike hq] at hd ⊢
        omega
      obtain ⟨r, d, hruns, hd, hr, hblock⟩ := ih
        (fun p' hp' ↦ hn p' (List.mem_cons_of_mem p hp')) hitems (before ++ [q]) hcount c hc
      exact ⟨r, d, hruns, hd, by simp [hr, hq], hblock⟩

theorem methodParams_reads {p : Params} (h : p.Spelled Kind.IsRead)
    (hp : ∀ v ∈ p.literals, v.isPlain = true) :
    Parse.Reads n methodParams (p.pieces ++ ps) ps (View.blank.params · = View.blank.params p) := by
  have hn : ReadsPatterns n pattern p.items := patterns_readable h.items.spelled
    (by rwa [Pattern.literals.all_eq_flatMap])
  have hsplats : (p.items ++ Params.none.items).countP (·.isSplat) ≤ 1 := by
    simpa [Params.none] using h.items.splats
  have hloop : Loops n (paramStep .rParen) .none
      (commas (paramGroups p.items p.block) ++ .mark .rParen :: ps) (.mark .rParen :: ps) _ :=
    params_loop hn h.items.spelled h.block .none rfl hsplats
  have hpieces : p.pieces = Tree.parens (commas (paramGroups p.items p.block)) := by
    rw [Params.pieces, paramGroups, Pattern.pieces.all_eq_map]
  rw [hpieces, Tree.parens_append]
  refine .bind_eq (.eatMark .lParen) (.bind (.bind .skipNewlines fun _ _ ↦ hloop.iterate) ?_)
  rintro r ⟨hitems, hblock⟩
  refine .bind (.expect .rParen) fun _ _ ↦ .pure ?_
  rw [View.params, View.params, View.patterns_eq_map, View.patterns_eq_map, hitems, hblock]
  rfl

end Grammar

end Quill
