import Quill.Proofs.Printing.Operands

/-!
# Postfix and unary operators

The operators after and before an operand are read as the tree has them. Postfix operators are read
from left to right and make the operand before them larger, so what is said of an operand leaves
open what follows it.
-/

namespace Quill

open Piece

namespace Grammar

open Parse

variable {n k : Nat} {nested : Nested} {ps qs : List Piece}

/-- The parser serves the trees of at most `k` tokens, also as operands. -/
structure Serves (n k : Nat) (nested : Nested) : Prop where
  expression : ReadsUpTo n k nested
  operand : ∃ inner, ReadsUpTo n k inner ∧ nested .operand = operand inner

theorem postfix_stop {e : Expr} (h : endsOperand (first ps) = true) :
    Reads n (postfixStep nested e) ps ps (Sum.elim (fun _ ↦ False) (· = e)) := by
  refine .bind .kind fun j hj ↦ ?_
  rw [← hj] at h
  cases j with
  | mark m => cases m <;> first | exact .pure rfl | cases h
  | eof => exact .pure rfl
  | _ => cases h

theorem postfix_call (hn : ReadsUpTo n k nested) (m : MethodName) {r : Tree} {ts : List Tree}
    {e : Expr} (he : r.Spanned e) (hts : size (Tree.separated ts) ≤ k)
    (hp : startsBlock (first ps) = false) :
    Reads n (postfixStep nested e)
      (.mark .dot :: m.piece :: (Tree.parens (Tree.separated ts) ++ ps)) ps
      (Sum.elim (Tree.call r m ts).Spanned fun _ ↦ False) := by
  refine .bind_eq .kind ?_
  refine .bind (.advance rfl) fun _ _ ↦ .bind .skipNewlines fun _ _ ↦
    .bind (methodName_reads m) fun i hi ↦ .bind (callSuffix_reads hn hts hp) ?_
  rintro ⟨args, block⟩ ⟨hblock, hargs⟩
  obtain rfl : block = none := hblock
  obtain ⟨name, s⟩ := i
  obtain rfl : name = m.text := hi
  exact .bind .previous fun _ _ ↦ .pure (.call he hargs)

theorem postfix_member {text : String} {e : Expr} (hp : Apart (first ps)) :
    Reads n (postfixStep nested e) (.mark .dot :: .word text :: ps) ps
      (Sum.elim (fun e' ↦ ∃ s s', e' = ⟨.call (some e) ⟨text, s⟩ [] none, s'⟩) fun _ ↦ False) := by
  refine .bind_eq .kind ?_
  refine .bind (.advance rfl) fun _ _ ↦ .bind .skipNewlines fun _ _ ↦
    .bind methodName_word fun i hi ↦ .bind (callSuffix_none hp) ?_
  rintro ⟨args, block⟩ ⟨hblock, hargs⟩
  obtain rfl : block = none := hblock
  obtain rfl : args = [] := hargs
  obtain ⟨name, s⟩ := i
  obtain rfl : name = text := hi
  exact .bind .previous fun s' _ ↦ .pure ⟨s, _, rfl⟩

theorem postfix_index (hn : ReadsUpTo n k nested) {r : Tree} {ts : List Tree} {e : Expr}
    (he : r.Spanned e) (hts : size (Tree.separated ts) ≤ k) :
    Reads n (postfixStep nested e) (Tree.brackets (Tree.separated ts) ++ ps) ps
      (Sum.elim (Tree.index r ts).Spanned fun _ ↦ False) := by
  rw [Tree.brackets_append]
  refine .bind_eq .kind ?_
  exact .bind (.advance rfl) fun _ _ ↦
    .bind (plainArguments_reads hn rfl (by decide) hts _ _) fun es hes ↦
      .bind .previous fun _ _ ↦ .pure (.index he hes)

theorem Cursor.Before.minus {c : Cursor} (h : c.Before n (.mark .minus :: ps)) :
    ∃ p : Position, c.span.last = p ∧ c.next.rest = Piece.cells ⟨p.line, p.column + 1⟩ ps := by
  obtain ⟨front, hrest⟩ := h.place
  refine ⟨Position.start.after front, ?_, ?_⟩
  · rw [Cursor.span, hrest]
    exact Position.back_next (c := '-') (Position.one_le_column front) (by decide)
  · rw [Cursor.next, hrest]
    rfl

theorem minus_touching {β : Type} {m : Nat} {rs : List Piece} {R : β → Prop}
    {f : Span → Cursor → Parse β}
    (hf : ∀ here c, touchingNumber .neg here c = some (.int (-Int64.ofNat m)) →
      Reads n (f here c) (.digits m :: ps) rs R) :
    Reads n (advance >>= fun here ↦ get >>= fun c ↦ f here c) (.mark .minus :: .digits m :: ps)
      rs R := by
  intro c hc
  obtain ⟨p, hlast, hrest⟩ := hc.minus
  have htouch : touchingNumber .neg c.span c.next = some (.int (-Int64.ofNat m)) := by
    rw [touchingNumber, Cursor.span, hrest, hlast, Cursor.kind, hrest]
    exact if_pos rfl
  exact hf c.span c.next htouch c.next (hc.next rfl)

theorem minus_apart {β : Type} {q : Piece} {rs : List Piece} {R : β → Prop} (hq : q.visible = true)
    {f : Span → Cursor → Parse β}
    (hf : ∀ here c, touchingNumber .neg here c = none → Reads n (f here c) (q :: ps) rs R) :
    Reads n (advance >>= fun here ↦ get >>= fun c ↦ f here c)
      (.mark .minus :: .blank :: q :: ps) rs R := by
  intro c hc
  obtain ⟨p, hlast, hrest⟩ := hc.minus
  have hapart : touchingNumber .neg c.span c.next = none := by
    have hcells : Piece.cells ⟨p.line, p.column + 1⟩ (.blank :: q :: ps) =
        Piece.cells ⟨p.line, p.column + 1 + 1⟩ (q :: ps) := rfl
    rw [hcells, Piece.cells, if_pos hq] at hrest
    rw [touchingNumber, hlast, if_neg]
    rw [Cursor.span, hrest]
    intro heq
    have hcolumn := congrArg Position.column heq
    change p.column + 1 + 1 = p.column + 1 at hcolumn
    omega
  exact hf c.span c.next hapart c.next (hc.next rfl).blank

/-- The pieces are an operand, whatever unary operators stand before it and whatever postfix
operators follow. -/
def Leads (n k : Nat) (nested : Nested) (qs : List Piece) (t : Tree) : Prop :=
  ∀ (ops : List (PrefixOp × Span)) (ps rs : List Piece) (P : Expr → Prop), Apart (first ps) →
    (∀ inner, ReadsUpTo n k inner → ∀ e, t.Spanned e →
      Loops n (postfixStep inner) e ps rs fun e ↦ P (underPrefixes e ops)) →
    Loops n (unaryStep nested) ops (qs ++ ps) rs P

namespace Leads

theorem of_primary {t : Tree} (hs : Serves n k nested)
    (hq : ∀ ps, prefixOp? (first (qs ++ ps)) = none)
    (h : ∀ inner ps, ReadsUpTo n k inner → Apart (first ps) →
      Reads n (primary inner) (qs ++ ps) ps t.Spanned) : Leads n k nested qs t := by
  intro ops ps rs P hp hl
  obtain ⟨inner, hinner, hoperand⟩ := hs.operand
  refine .stop (.bind_eq .kind ?_)
  rw [hq, hoperand]
  exact .bind (.bind (h inner ps hinner hp) fun e he ↦ (hl inner hinner e he).iterate) fun e he ↦
    .pure he

theorem parens {t : Tree} (hs : Serves n k nested) (ht : size t.pieces ≤ k) :
    Leads n k nested (Tree.parens t.pieces) t :=
  of_primary hs (fun _ ↦ rfl) fun _ _ hn _ ↦ primary_parens hn ht

theorem grouped {t : Tree} (hs : Serves n k nested) (ht : size t.pieces ≤ k)
    (h : t.precedence = 8 → Leads n k nested t.pieces t) :
    Leads n k nested (Tree.grouped 8 t.precedence t.pieces) t := by
  unfold Tree.grouped
  split
  · exact parens hs ht
  · exact h (by have := t.precedence_le; omega)

theorem int (hs : Serves n k nested) (m : Int64) :
    Leads n k nested (Tree.intPieces m) (.int m) := by
  have hvalue := ofNat_natAbs m
  unfold Tree.intPieces
  split
  · rename_i hneg
    intro ops ps rs P hp hl
    refine .stop (.bind_eq .kind ?_)
    refine minus_touching fun here c htouch ↦ ?_
    rw [htouch]
    refine .bind (.advance rfl) fun s _ ↦ .bind (hl nested hs.expression _ ?_).iterate fun e he ↦
      .pure he
    rw [hvalue, if_pos hneg, Int64.neg_neg]
    exact .int
  · rename_i hneg
    refine of_primary hs (fun _ ↦ rfl) fun inner ps _ _ ↦ (primary_digits _).mono ?_
    rintro _ ⟨s, rfl⟩
    rw [hvalue, if_neg hneg]
    exact .int

theorem append {r t : Tree} {rs : List Piece} (h : Leads n k nested qs r)
    (hr : ∀ ps, Apart (first (rs ++ ps)) ∧ size ps < size (rs ++ ps))
    (hstep : ∀ inner ps e, ReadsUpTo n k inner → Apart (first ps) → r.Spanned e →
      Reads n (postfixStep inner e) (rs ++ ps) ps (Sum.elim t.Spanned fun _ ↦ False)) :
    Leads n k nested (qs ++ rs) t := by
  intro ops ps rs' P hp hl
  rw [List.append_assoc]
  exact h ops _ rs' P (hr ps).1 fun inner hn e he ↦
    .more (hstep inner ps e hn hp he) (hr ps).2 fun e he ↦ hl inner hn e he

end Leads

theorem prefixOp_of_not_mark {k : Token.Kind} (h : ∀ m, k ≠ .mark m) : prefixOp? k = none := by
  cases k with
  | mark m => exact absurd rfl (h m)
  | _ => rfl

theorem leads (hs : Serves n k nested) :
    (t : Tree) → t.precedence = 8 → size t.pieces ≤ k + 1 → Leads n k nested t.pieces t
  | .int m, _, _ => .int hs m
  | .atom a, _, _ => by
    refine .of_primary hs (fun ps ↦ ?_) fun _ _ _ hp ↦ primary_atom a hp
    rw [Tree.pieces, List.singleton_append, first_cons a.visible]
    exact prefixOp_of_not_mark a.not_mark
  | .list ts, _, hk => by
    rw [Tree.pieces, size_brackets] at hk
    exact .of_primary hs (fun _ ↦ rfl) fun _ _ hn _ ↦ primary_list hn (by omega)
  | .callSelf f ts, _, hk => by
    rw [Tree.pieces, size_cons rfl, size_parens] at hk
    refine .of_primary hs (fun ps ↦ ?_) fun _ _ hn hp ↦ primary_call hn f (by omega) hp.block
    exact prefixOp_of_not_mark (nameKind_not_mark _)
  | .call r m ts, _, hk => by
    rw [Tree.pieces, size_append, size_mark, size_cons m.visible, size_parens] at hk
    have hr := size_grouped 8 r.precedence r.pieces
    refine (Leads.grouped hs (by omega) fun hp ↦ leads hs r hp (by omega)).append
      (fun ps ↦ ⟨⟨rfl, rfl⟩, ?_⟩) fun _ _ _ hn hp he ↦ postfix_call hn m he (by omega) hp.block
    rw [size_append, size_mark]
    omega
  | .index r ts, _, hk => by
    rw [Tree.pieces, size_append, size_brackets] at hk
    have hr := size_grouped 8 r.precedence r.pieces
    refine (Leads.grouped hs (by omega) fun hp ↦ leads hs r hp (by omega)).append
      (fun ps ↦ ⟨⟨rfl, rfl⟩, ?_⟩) fun _ _ _ hn _ he ↦ postfix_index hn he (by omega)
    rw [size_append, size_brackets]
    omega
  | .unary .., hp, _ => by cases hp
  | .binary op .., hp, _ => by cases op <;> cases hp
  | .logical op .., hp, _ => by cases op <;> cases hp
  | .assign .., hp, _ => by cases hp
  | .assignIndex .., hp, _ => by cases hp
  | .assignMember .., hp, _ => by cases hp

/-- The pieces are an operand, whatever unary operators stand before it, that ends there. -/
def LeadsUnary (n : Nat) (nested : Nested) (qs : List Piece) (R : Expr → Prop) : Prop :=
  ∀ (ops : List (PrefixOp × Span)) (ps : List Piece) (P : Expr → Prop),
    endsOperand (first ps) = true → (∀ e, R e → P (underPrefixes e ops)) →
    Loops n (unaryStep nested) ops (qs ++ ps) ps P

theorem Leads.toUnary {t : Tree} (h : Leads n k nested qs t) :
    LeadsUnary n nested qs t.Spanned := by
  intro ops ps P hp hP
  exact h ops ps ps P (apart_of_endsOperand hp) fun inner _ e he ↦
    .stop_eq (postfix_stop hp) (hP e he)

theorem LeadsUnary.mono {R Q : Expr → Prop} (h : LeadsUnary n nested qs R)
    (hRQ : ∀ e, R e → Q e) : LeadsUnary n nested qs Q :=
  fun ops ps P hp hP ↦ h ops ps P hp fun e he ↦ hP e (hRQ e he)

theorem Leads.member {r : Tree} (h : Leads n k nested qs r) (text : String) :
    LeadsUnary n nested (qs ++ [.mark .dot, .word text]) fun e ↦
      ∃ er s s', r.Spanned er ∧ e = ⟨.call (some er) ⟨text, s⟩ [] none, s'⟩ := by
  intro ops ps P hp hP
  rw [List.append_assoc]
  refine h ops _ ps P ⟨rfl, rfl⟩ fun inner _ er her ↦
    .more (postfix_member (apart_of_endsOperand hp)) ?_ ?_
  · change size ps < size (.mark .dot :: .word text :: ps)
    rw [size_mark, size_cons rfl]
    omega
  · rintro _ ⟨s, s', rfl⟩
    exact .stop_eq (postfix_stop hp) (hP _ ⟨er, s, s', her, rfl⟩)

theorem LeadsUnary.neg {t : Tree} (h : LeadsUnary n nested qs t.Spanned) (hq : Starts qs) :
    LeadsUnary n nested (.mark .minus :: .blank :: qs) (Tree.unary .neg t).Spanned := by
  intro ops ps P hp hP
  obtain ⟨q, rest, rfl, hvisible, -⟩ := hq
  have hstep : Reads n (unaryStep nested ops) (.mark .minus :: .blank :: q :: (rest ++ ps))
      (q :: (rest ++ ps)) (Sum.elim (fun ops' ↦ ∃ here, ops' = (.neg, here) :: ops)
        fun _ ↦ False) := by
    refine .bind_eq .kind ?_
    refine minus_apart hvisible fun here c hnone ↦ ?_
    rw [hnone]
    exact .pure ⟨here, rfl⟩
  refine .more hstep (Nat.lt_succ_self _) ?_
  rintro _ ⟨here, rfl⟩
  exact h _ ps P hp fun e he ↦ hP _ (.unary he)

theorem LeadsUnary.not {t : Tree} (h : LeadsUnary n nested qs t.Spanned) :
    LeadsUnary n nested (.mark .bang :: qs) (Tree.unary .not t).Spanned := by
  intro ops ps P hp hP
  have hstep : Reads n (unaryStep nested ops) (.mark .bang :: (qs ++ ps)) (qs ++ ps)
      (Sum.elim (fun ops' ↦ ∃ here, ops' = (.not, here) :: ops) fun _ ↦ False) := by
    refine .bind_eq .kind ?_
    exact .bind (.advance rfl) fun here _ ↦ .bind .get fun _ _ ↦ .pure ⟨here, rfl⟩
  refine .more hstep (Nat.lt_succ_self _) ?_
  rintro _ ⟨here, rfl⟩
  exact h _ ps P hp fun e he ↦ hP _ (.unary he)

theorem LeadsUnary.grouped {t : Tree} (hs : Serves n k nested) (ht : size t.pieces ≤ k)
    (h : 7 ≤ t.precedence → LeadsUnary n nested t.pieces t.Spanned) :
    LeadsUnary n nested (Tree.grouped 7 t.precedence t.pieces) t.Spanned := by
  unfold Tree.grouped
  split
  · exact (Leads.parens hs ht).toUnary
  · exact h (by omega)

theorem leadsUnary (hs : Serves n k nested) :
    (t : Tree) → 7 ≤ t.precedence → size t.pieces ≤ k + 1 →
      LeadsUnary n nested t.pieces t.Spanned
  | .unary .neg t, _, hk => by
    rw [Tree.pieces, size_mark, size_blank] at hk
    have ht := size_grouped 7 t.precedence t.pieces
    exact (LeadsUnary.grouped hs (by omega) fun hp ↦ leadsUnary hs t hp (by omega)).neg
      (t.starts.grouped _ _)
  | .unary .not t, _, hk => by
    rw [Tree.pieces, size_mark] at hk
    have ht := size_grouped 7 t.precedence t.pieces
    exact (LeadsUnary.grouped hs (by omega) fun hp ↦ leadsUnary hs t hp (by omega)).not
  | .int m, _, hk => (leads hs (.int m) rfl hk).toUnary
  | .atom a, _, hk => (leads hs (.atom a) rfl hk).toUnary
  | .list ts, _, hk => (leads hs (.list ts) rfl hk).toUnary
  | .callSelf f ts, _, hk => (leads hs (.callSelf f ts) rfl hk).toUnary
  | .call r m ts, _, hk => (leads hs (.call r m ts) rfl hk).toUnary
  | .index r ts, _, hk => (leads hs (.index r ts) rfl hk).toUnary
  | .binary op .., hp, _ => absurd (Nat.le_trans hp op.precedence_bounds.2) (by decide)
  | .logical op .., hp, _ => absurd (Nat.le_trans hp op.precedence_bounds.2) (by decide)
  | .assign .., hp, _ => absurd hp (Nat.not_succ_le_zero 6)
  | .assignIndex .., hp, _ => absurd hp (Nat.not_succ_le_zero 6)
  | .assignMember .., hp, _ => absurd hp (Nat.not_succ_le_zero 6)

theorem LeadsUnary.reads {R : Expr → Prop} (h : LeadsUnary n nested qs R)
    (hp : endsOperand (first ps) = true) : Reads n (unary nested) (qs ++ ps) ps R :=
  (h [] ps R hp fun _ he ↦ he).iterate

end Grammar

end Quill
