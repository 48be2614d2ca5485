import Quill.Proofs.Printing.Brackets

/-!
# Operands

What a written tree starts with and what ends it. The operands of a tree and the arguments of a call
are read as the tree has them, given a parser for the trees that are nested inside.
-/

namespace Quill

open Piece

theorem Keyword.text_of_ofText? {s : String} {k : Keyword} (h : ofText? s = some k) :
    k.text = s := beq_iff_eq.mp (List.find?_some (p := fun k : Keyword ↦ k.text == s) h)

theorem nameKind_keyword (k : Keyword) : Token.nameKind k.text.toList = .keyword k := by
  rw [Token.nameKind, String.ofList_toList, Keyword.ofText?_text]

theorem nameKind_variable (x : VariableName) :
    Token.nameKind x.text.toList = .identifier x.text := by
  rw [Token.nameKind, String.ofList_toList, x.free]

theorem ofNat_natAbs (n : Int64) : Int64.ofNat n.toInt.natAbs = if n < 0 then -n else n := by
  rw [← Int64.ofInt_eq_ofNat]
  split
  · rename_i h
    have hneg : n.toInt < 0 := Int64.lt_iff_toInt_lt.mp h
    rw [Int.ofNat_natAbs_of_nonpos (Int.le_of_lt hneg), Int64.ofInt_neg, Int64.ofInt_toInt]
  · rename_i h
    have hnonneg : 0 ≤ n.toInt := Int.not_lt.mp fun hneg ↦ h (Int64.lt_iff_toInt_lt.mpr hneg)
    rw [Int.natAbs_of_nonneg hnonneg, Int64.ofInt_toInt]

namespace Grammar

def startsOperand : Token.Kind → Bool
  | .int _ | .str _ | .symbol _ | .identifier _ | .constant _ | .attr _ => true
  | .keyword .nil | .keyword .true_ | .keyword .false_ | .keyword .self => true
  | .mark .minus | .mark .bang | .mark .lBracket | .mark .lParen => true
  | _ => false

def endsExpression : Token.Kind → Bool
  | .eof | .mark .rParen | .mark .rBracket | .mark .comma => true
  | _ => false

def endsOperand (k : Token.Kind) : Bool :=
  endsExpression k || (Infix.ofKind? k).isSome || (assignment? k).isSome

theorem endsOperand_of_expression {k : Token.Kind} (h : endsExpression k = true) :
    endsOperand k = true := by simp [endsOperand, h]

/-- A name before this token is not called. -/
structure Apart (k : Token.Kind) : Prop where
  lParen : (k == .mark .lParen) = false
  block : startsBlock k = false

theorem ends_not_starts {k : Token.Kind} (h : endsExpression k = true) :
    startsOperand k = false := by
  cases k with
  | mark m => cases m <;> first | rfl | cases h
  | eof => rfl
  | _ => cases h

theorem apart_of_endsOperand {k : Token.Kind} (h : endsOperand k = true) : Apart k := by
  cases k with
  | mark m => cases m <;> first | exact ⟨rfl, rfl⟩ | cases h
  | eof => exact ⟨rfl, rfl⟩
  | _ => cases h

theorem ne_mark_of_starts {k : Token.Kind} {m : Mark} (h : startsOperand k = true)
    (hm : startsOperand (.mark m) = false) : (k == .mark m) = false := by
  refine Bool.eq_false_iff.mpr fun hk ↦ ?_
  rw [eq_of_beq_mark hk, hm] at h
  cases h

theorem beq_mark_of_ne {m m' : Mark} (h : m ≠ m') :
    (Token.Kind.mark m == Token.Kind.mark m') = false :=
  show (m == m') = false from beq_false_of_ne h

def Starts (qs : List Piece) : Prop :=
  ∃ q rest, qs = q :: rest ∧ q.visible = true ∧ startsOperand q.kind = true

namespace Starts

variable {qs : List Piece}

theorem first (h : Starts qs) (ps : List Piece) :
    startsOperand (Grammar.first (qs ++ ps)) = true := by
  obtain ⟨q, rest, rfl, hq, hk⟩ := h
  rw [List.cons_append, first_cons hq]
  exact hk

theorem append (h : Starts qs) (ps : List Piece) : Starts (qs ++ ps) := by
  obtain ⟨q, rest, rfl, hq, hk⟩ := h
  exact ⟨q, rest ++ ps, rfl, hq, hk⟩

theorem grouped (floor precedence : Nat) (h : Starts qs) :
    Starts (Tree.grouped floor precedence qs) := by
  unfold Tree.grouped
  split
  · exact ⟨_, _, rfl, rfl, rfl⟩
  · exact h

theorem size_pos (h : Starts qs) : 0 < size qs := by
  obtain ⟨q, rest, rfl, hq, hk⟩ := h
  rw [size_cons hq]
  exact Nat.succ_pos _

end Starts

theorem startsOperand_variable (x : Variable) : startsOperand x.piece.kind = true := by
  cases x with
  | local_ name =>
    change startsOperand (Token.nameKind name.text.toList) = true
    rw [nameKind_variable]
    rfl
  | constant name => rfl
  | attr name => rfl

theorem startsOperand_keyword {k : Keyword} (h : startsOperand (.keyword k) = true) :
    startsOperand (Piece.word k.text).kind = true := by
  rwa [Piece.kind, nameKind_keyword]

theorem startsOperand_atom (a : Atom) : startsOperand a.piece.kind = true := by
  cases a with
  | str _ => rfl
  | symbol _ => rfl
  | nil => exact startsOperand_keyword (k := .nil) rfl
  | bool value =>
    cases value with
    | false => exact startsOperand_keyword (k := .false_) rfl
    | true => exact startsOperand_keyword (k := .true_) rfl
  | self => exact startsOperand_keyword (k := .self) rfl
  | var x => exact startsOperand_variable x

theorem intPieces_starts (n : Int64) : Starts (Tree.intPieces n) := by
  unfold Tree.intPieces
  split
  · exact ⟨_, _, rfl, rfl, rfl⟩
  · exact ⟨_, _, rfl, rfl, rfl⟩

end Grammar

open Grammar

theorem Tree.starts (t : Tree) : Starts t.pieces := by
  cases t with
  | int n => exact intPieces_starts n
  | atom a => exact ⟨_, _, rfl, a.visible, startsOperand_atom a⟩
  | list _ => exact ⟨_, _, rfl, rfl, rfl⟩
  | callSelf f _ => exact ⟨_, _, rfl, rfl, startsOperand_variable (.local_ f)⟩
  | unary op _ => cases op <;> exact ⟨_, _, rfl, rfl, rfl⟩
  | assign _ x _ => exact ⟨_, _, rfl, x.visible, startsOperand_variable x⟩
  | call r _ _ | index r _ | binary _ r _ | logical _ r _ | assignIndex _ r _ _
  | assignMember _ r _ _ => exact (r.starts.grouped _ _).append _

namespace Grammar

open Parse

variable {n k : Nat} {nested : Nested} {ps qs : List Piece}

/-- The parser reads every tree of at most `k` tokens where an expression ends. -/
def ReadsUpTo (n k : Nat) (nested : Nested) : Prop :=
  ∀ (t : Tree) (ps : List Piece), size t.pieces ≤ k → endsExpression (first ps) = true →
    Reads n (nested .expression) (t.pieces ++ ps) ps t.Spanned

theorem comma_more {α β : Type} (more : α) (done : β) :
    Reads n (comma more done) (.mark .comma :: .blank :: ps) ps (· = .inl more) := by
  refine .bind .skipNewlines fun _ _ ↦ .bind_eq (.eatMark .comma) ?_
  exact .blank (.bind .skipNewlines fun _ _ ↦ .pure rfl)

theorem comma_done {α β : Type} (more : α) (done : β) (h : (first ps == .mark .comma) = false) :
    Reads n (comma more done) ps ps (· = .inr done) := by
  refine .bind .skipNewlines fun _ _ ↦ .bind_eq (.eatMark_other h) ?_
  exact .pure rfl

theorem argumentStep_reads {r : Arguments ⊕ Arguments → Prop} {t : Tree} {closing : Mark}
    (hn : ReadsUpTo n k nested) (hk : size t.pieces ≤ k) {done : Arguments}
    (hd : done.block = none) (hc : startsOperand (.mark closing) = false)
    (hq : endsExpression (first qs) = true)
    (h : ∀ e, t.Spanned e → Reads n (comma (⟨e :: done.args, none⟩ : Arguments)
      (⟨e :: done.args, none⟩ : Arguments)) qs ps r) :
    Reads n (argumentStep nested closing done) (t.pieces ++ qs) ps r := by
  obtain ⟨args, block⟩ := done
  obtain rfl : block = none := hd
  have hstart := t.starts.first qs
  refine .bind_eq (.atMark closing) ?_
  rw [ne_mark_of_starts hstart hc]
  refine .bind_eq (.eatMark_other (ne_mark_of_starts hstart rfl)) ?_
  exact .bind (hn t qs hk hq) h

theorem arguments_loop (hn : ReadsUpTo n k nested) {closing : Mark}
    (hc : endsExpression (.mark closing) = true) (hcomma : closing ≠ .comma) :
    (ts : List Tree) → (∀ t ∈ ts, size t.pieces ≤ k) → (done : List Expr) →
    Loops n (argumentStep nested closing) ⟨done, none⟩
      (Tree.separated ts ++ .mark closing :: ps) (.mark closing :: ps)
      fun a ↦ ∃ es, List.Forall₂ Tree.Spanned ts es ∧ a = ⟨es.reverse ++ done, none⟩
  | [], _, done => by
    refine .stop (.bind (.atMark closing) fun b hb ↦ ?_)
    obtain rfl : b = true := hb.trans (beq_self_eq_true closing)
    exact .pure ⟨[], .nil, rfl⟩
  | [t], hts, done => by
    have hsplit : Tree.separated [t] ++ .mark closing :: ps = t.pieces ++ .mark closing :: ps := by
      simp [Tree.separated]
    rw [hsplit]
    have hother : (first (.mark closing :: ps) == .mark .comma) = false := beq_mark_of_ne hcomma
    refine .stop (argumentStep_reads hn (hts t List.mem_cons_self) rfl (ends_not_starts hc) hc ?_)
    refine fun e he ↦ (comma_done _ _ hother).mono ?_
    rintro _ rfl
    exact ⟨[e], .cons he .nil, rfl⟩
  | t :: u :: us, hts, done => by
    have hsplit : Tree.separated (t :: u :: us) ++ .mark closing :: ps =
        t.pieces ++
          .mark .comma :: .blank :: (Tree.separated (u :: us) ++ .mark closing :: ps) := by
      simp [Tree.separated]
    rw [hsplit]
    obtain ⟨ht, hus⟩ := List.forall_mem_cons.mp hts
    have hstep : Reads n (argumentStep nested closing ⟨done, none⟩)
        (t.pieces ++ .mark .comma :: .blank :: (Tree.separated (u :: us) ++ .mark closing :: ps))
        (Tree.separated (u :: us) ++ .mark closing :: ps)
        (Sum.elim (fun a ↦ ∃ e, t.Spanned e ∧ a = ⟨e :: done, none⟩) fun _ ↦ False) := by
      refine argumentStep_reads hn ht rfl (ends_not_starts hc) rfl fun e he ↦ ?_
      refine (comma_more _ _).mono ?_
      rintro _ rfl
      exact ⟨e, he, rfl⟩
    refine .more hstep ?_ ?_
    · have hpos := t.starts.size_pos
      simp only [size_append, size_mark, size_blank]
      omega
    · rintro _ ⟨e, he, rfl⟩ c hc'
      obtain ⟨a, d, hruns, hd, es, hes, rfl⟩ :=
        arguments_loop hn hc hcomma (u :: us) hus (e :: done) c hc'
      exact ⟨_, d, hruns, hd, e :: es, .cons he hes, by simp⟩

theorem size_separated {t : Tree} {ts : List Tree} (h : t ∈ ts) :
    size t.pieces ≤ size (Tree.separated ts) := by
  induction ts with
  | nil => cases h
  | cons u us ih =>
    rw [Tree.separated, size_append, size_append]
    obtain rfl | h := List.mem_cons.mp h
    · omega
    · have := ih h
      omega

theorem arguments_reads (hn : ReadsUpTo n k nested) {closing : Mark}
    (hc : endsExpression (.mark closing) = true) (hcomma : closing ≠ .comma) {ts : List Tree}
    (hts : size (Tree.separated ts) ≤ k) :
    Reads n (arguments nested closing) (Tree.separated ts ++ .mark closing :: ps) ps
      fun a ↦ a.block = none ∧ List.Forall₂ Tree.Spanned ts a.args := by
  refine .bind .skipNewlines fun _ _ ↦ .bind (arguments_loop hn hc hcomma ts
    (fun t ht ↦ (size_separated ht).trans hts) []).iterate ?_
  rintro _ ⟨es, hes, rfl⟩
  exact .bind (.expect closing) fun _ _ ↦ .pure ⟨rfl, by simpa using hes⟩

theorem plainArguments_reads (hn : ReadsUpTo n k nested) {closing : Mark}
    (hc : endsExpression (.mark closing) = true) (hcomma : closing ≠ .comma) {ts : List Tree}
    (hts : size (Tree.separated ts) ≤ k) (expected : Expected) (place : Span) :
    Reads n (plainArguments nested closing expected place)
      (Tree.separated ts ++ .mark closing :: ps) ps (List.Forall₂ Tree.Spanned ts) := by
  refine .bind (arguments_reads hn hc hcomma hts) ?_
  rintro ⟨args, block⟩ ⟨hblock, hargs⟩
  obtain rfl : block = none := hblock
  exact .pure hargs

theorem callSuffix_reads (hn : ReadsUpTo n k nested) {ts : List Tree}
    (hts : size (Tree.separated ts) ≤ k) (hp : startsBlock (first ps) = false) :
    Reads n (callSuffix nested) (Tree.parens (Tree.separated ts) ++ ps) ps
      fun a ↦ a.block = none ∧ List.Forall₂ Tree.Spanned ts a.args := by
  rw [Tree.parens_append]
  refine .bind_eq (.eatMark .lParen) ?_
  refine .bind (arguments_reads hn rfl (by decide) hts) fun a ha ↦ .bind_eq .kind ?_
  rw [hp]
  exact .pure ha

theorem callSuffix_none (h : Apart (first ps)) :
    Reads n (callSuffix nested) ps ps fun a ↦ a.block = none ∧ a.args = [] := by
  refine .bind_eq (.eatMark_other h.lParen) ?_
  refine .bind_eq (.pure rfl) (.bind_eq .kind ?_)
  rw [h.block]
  exact .pure ⟨rfl, rfl⟩

theorem methodName_at_word {c : Cursor} {text : String}
    (h : c.kind = Token.nameKind text.toList) : methodName c = .ok (⟨text, c.span⟩, c.next) := by
  rw [Token.nameKind, String.ofList_toList] at h
  unfold methodName
  rw [kind_bind, h]
  cases hk : Keyword.ofText? text with
  | none => rfl
  | some w =>
    rw [← Keyword.text_of_ofText? hk]
    rfl

theorem methodName_at (m : MethodName) {c : Cursor} (h : c.kind = m.piece.kind) :
    methodName c = .ok (⟨m.text, c.span⟩, c.next) := by
  cases m with
  | word name => exact methodName_at_word h
  | constant name =>
    unfold methodName
    rw [kind_bind, h]
    rfl
  | operator mark names =>
    unfold methodName
    rw [kind_bind, h]
    cases mark <;> first | rfl | cases names

theorem methodName_word {text : String} :
    Reads n methodName (.word text :: ps) ps (·.name = text) :=
  fun _ hc ↦ ⟨_, _, methodName_at_word hc.kind, hc.next rfl, rfl⟩

theorem methodName_reads (m : MethodName) :
    Reads n methodName (m.piece :: ps) ps (·.name = m.text) :=
  fun _ hc ↦
    ⟨_, _, methodName_at m (hc.kind.trans (first_cons m.visible ps)), hc.next m.visible, rfl⟩

theorem atom_reads {q : Piece} (hq : q.visible = true) (kind : Expr.Kind) :
    Reads n (atom kind) (q :: ps) ps fun e ↦ ∃ s, e = ⟨kind, s⟩ :=
  .bind (.advance hq) fun s _ ↦ .pure ⟨s, rfl⟩

theorem primary_digits (m : Nat) :
    Reads n (primary nested) (.digits m :: ps) ps
      fun e ↦ ∃ s, e = ⟨.literal (.int (Int64.ofNat m)), s⟩ := by
  refine .bind_eq .kind ?_
  exact atom_reads rfl _

theorem primary_keyword {w : Keyword} {kind : Expr.Kind}
    (hw : keywordOperand nested w = atom kind) :
    Reads n (primary nested) (.word w.text :: ps) ps fun e ↦ ∃ s, e = ⟨kind, s⟩ := by
  refine .bind .kind fun j hj ↦ ?_
  obtain rfl : j = .keyword w := hj.trans (nameKind_keyword w)
  change Reads n (keywordOperand nested w) _ _ _
  rw [hw]
  exact atom_reads rfl _

theorem primary_variable (x : Variable) (h : Apart (first ps)) :
    Reads n (primary nested) (x.piece :: ps) ps fun e ↦ ∃ s, e = ⟨x.kind, s⟩ := by
  refine .bind .kind fun j hj ↦ ?_
  cases x with
  | local_ name =>
    obtain rfl : j = .identifier name.text := hj.trans (nameKind_variable name)
    refine .bind (.advance rfl) fun s _ ↦ .bind_eq .kind ?_
    rw [h.lParen, h.block]
    exact .pure ⟨s, rfl⟩
  | constant name =>
    subst hj
    exact atom_reads rfl _
  | attr name =>
    subst hj
    exact atom_reads rfl _

theorem primary_atom (a : Atom) (h : Apart (first ps)) :
    Reads n (primary nested) (a.piece :: ps) ps (Tree.atom a).Spanned := by
  have spanned : ∀ e : Expr, (∃ s, e = ⟨a.kind, s⟩) → (Tree.atom a).Spanned e := by
    rintro _ ⟨s, rfl⟩
    exact .atom
  refine .mono ?_ spanned
  cases a with
  | str value =>
    refine .bind_eq .kind ?_
    exact atom_reads rfl _
  | symbol name =>
    refine .bind_eq .kind ?_
    exact atom_reads rfl _
  | nil => exact primary_keyword (w := .nil) rfl
  | bool value =>
    cases value with
    | false => exact primary_keyword (w := .false_) rfl
    | true => exact primary_keyword (w := .true_) rfl
  | self => exact primary_keyword (w := .self) rfl
  | var x => exact primary_variable x h

theorem primary_list (hn : ReadsUpTo n k nested) {ts : List Tree}
    (hts : size (Tree.separated ts) ≤ k) :
    Reads n (primary nested) (Tree.brackets (Tree.separated ts) ++ ps) ps
      (Tree.list ts).Spanned := by
  rw [Tree.brackets_append]
  refine .bind_eq .kind ?_
  exact .bind (.advance rfl) fun _ _ ↦
    .bind (plainArguments_reads hn rfl (by decide) hts _ _) fun es hes ↦
      .bind .previous fun _ _ ↦ .pure (.list hes)

theorem primary_call (hn : ReadsUpTo n k nested) (f : VariableName) {ts : List Tree}
    (hts : size (Tree.separated ts) ≤ k) (hp : startsBlock (first ps) = false) :
    Reads n (primary nested) (.word f.text :: (Tree.parens (Tree.separated ts) ++ ps)) ps
      (Tree.callSelf f ts).Spanned := by
  refine .bind .kind fun j hj ↦ ?_
  obtain rfl : j = .identifier f.text := hj.trans (nameKind_variable f)
  refine .bind (.advance rfl) fun s _ ↦ .bind_eq .kind ?_
  refine .bind (callSuffix_reads hn hts hp) ?_
  rintro ⟨args, block⟩ ⟨hblock, hargs⟩
  obtain rfl : block = none := hblock
  exact .bind .previous fun _ _ ↦ .pure (.callSelf hargs)

theorem primary_parens (hn : ReadsUpTo n k nested) {t : Tree} (ht : size t.pieces ≤ k) :
    Reads n (primary nested) (Tree.parens t.pieces ++ ps) ps t.Spanned := by
  rw [Tree.parens_append]
  refine .bind_eq .kind ?_
  exact .bind (.advance rfl) fun _ _ ↦ .bind .skipNewlines fun _ _ ↦
    .bind (hn t _ ht rfl) fun e he ↦ .bind .skipNewlines fun _ _ ↦
      .bind (.expect .rParen) fun _ _ ↦ .pure (he.respan _)

end Grammar

end Quill
