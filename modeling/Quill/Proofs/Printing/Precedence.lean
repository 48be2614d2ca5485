import Quill.Proofs.Printing.Postfix
import Quill.Proofs.Printing.Text

/-!
# Precedence and associativity

Main statement: `written_tree_is_read`. A tree that is written with parentheses only where its
precedence asks for them is read as one statement, which is the tree.
-/

namespace Quill

open Piece

namespace Grammar

open Parse

variable {n k : Nat} {nested : Nested} {ps qs : List Piece} {R : Expr → Prop}

/-- How tightly the operator binds that comes first. -/
def follow (ps : List Piece) : Nat := ((Infix.ofKind? (first ps)).map Infix.level).getD 0

theorem Infix.level_bounds (op : Infix) : 1 ≤ op.level ∧ op.level ≤ 6 := by
  cases op with
  | binary op => cases op <;> decide
  | logical op => cases op <;> decide
  | fits => decide

theorem follow_le (ps : List Piece) : follow ps ≤ 6 := by
  unfold follow
  cases Infix.ofKind? (first ps) with
  | none => exact Nat.zero_le _
  | some op => exact op.level_bounds.2

/-- The tightest operator that takes what binds so as its left operand. -/
def joins (precedence : Nat) : Nat := if precedence = 3 then 2 else min precedence 6

theorem le_joins {level precedence : Nat} (h : Tree.leftFloor level ≤ precedence)
    (hl : level ≤ 6) : level ≤ joins precedence := by
  unfold joins
  unfold Tree.leftFloor at h
  split at h <;> split <;> omega

/-- After the pieces the operators that follow are read on, from what `R` says of. -/
def Spine (n : Nat) (nested : Nested) (qs : List Piece) (R : Expr → Prop) (precedence : Nat) :
    Prop :=
  ∀ (m floor : Nat) (ps rs : List Piece) (P : Expr → Prop), 6 ≤ m + floor → floor ≤ precedence →
    endsOperand (first ps) = true → follow ps ≤ joins precedence →
    (∀ e, R e → Loops n (infixStep (infixFrom nested m) floor) ⟨e, joins precedence⟩ ps rs P) →
    Reads n (unary nested >>= fun e ↦
      iterate (infixStep (infixFrom nested m) floor) ⟨e, Infix.tightest⟩) (qs ++ ps) rs P

theorem LeadsUnary.spine {precedence : Nat} (h : LeadsUnary n nested qs R)
    (hp : 7 ≤ precedence) : Spine n nested qs R precedence := by
  intro m floor ps rs P _ _ hends _ hl
  have hjoins : joins precedence = Infix.tightest := by
    unfold joins Infix.tightest
    split <;> omega
  rw [hjoins] at hl
  exact .bind (h.reads hends) fun e he ↦ (hl e he).iterate

theorem infixStep_stop {right : Nat → Parse Expr} {floor : Nat} {left : Left}
    (h : follow ps < floor) :
    Reads n (infixStep right floor left) ps ps (Sum.elim (fun _ ↦ False) (· = left.expr)) := by
  refine .bind .kind fun j hj ↦ ?_
  unfold follow at h
  rw [hj]
  cases hop : Infix.ofKind? (first ps) with
  | none => exact .pure rfl
  | some op =>
    rw [hop] at h
    have hlt : (decide (op.level < floor) || decide (left.level < op.level)) = true := by
      simp [show op.level < floor from h]
    dsimp only
    rw [if_pos hlt]
    exact .pure rfl

theorem infixStep_reads {op : Infix} {m : Mark} (hm : Infix.ofMark? m = some op)
    (hop : op ≠ .fits) {left : Left} {floor : Nat} (hfloor : floor ≤ op.level)
    (hleft : op.level ≤ left.level) {right : Nat → Parse Expr}
    (hr : Reads n (right (op.level + 1)) qs ps R) (hnext : follow ps ≤ joins op.level) :
    Reads n (infixStep right floor left) (Tree.spaced m ++ qs) ps
      (Sum.elim (fun l ↦ ∃ er, R er ∧ l = ⟨op.join left.expr er, joins op.level⟩)
        fun _ ↦ False) := by
  refine .blank (.bind .kind fun j hj ↦ ?_)
  obtain rfl : j = .mark m := hj
  have hkind : Infix.ofKind? (.mark m) = some op := hm
  have hbinds : ¬ (decide (op.level < floor) || decide (left.level < op.level)) = true := by
    simp
    omega
  rw [hkind]
  dsimp only
  rw [if_neg hbinds]
  refine .bind (.advance rfl) fun _ _ ↦ .bind .skipNewlines fun _ _ ↦ .blank ?_
  split
  · exact absurd rfl hop
  · refine .bind hr fun er her ↦ ?_
    by_cases heq : op.level = Infix.equality
    · rw [if_pos heq]
      refine .bind .kind fun j hj ↦ ?_
      rw [heq] at hnext ⊢
      -- What follows binds less tightly than equality, so it is no equality.
      split
      · rename_i h3
        rw [follow, ← hj, h3] at hnext
        exact absurd hnext (by decide)
      · exact .pure ⟨er, her, rfl⟩
    · rw [if_neg heq]
      have hjoins : joins op.level = op.level := by
        have hle := op.level_bounds.2
        have hne : op.level ≠ 3 := heq
        unfold joins
        rw [if_neg hne]
        omega
      rw [hjoins]
      exact .pure ⟨er, her, rfl⟩

/-- The pieces can stand where an operator wants an operand that binds at `floor` or tighter. -/
def IsOperand (n : Nat) (nested : Nested) (qs : List Piece) (R : Expr → Prop) (floor : Nat) :
    Prop :=
  ∃ precedence, floor ≤ precedence ∧ Spine n nested qs R precedence ∧
    (7 ≤ precedence → LeadsUnary n nested qs R)

theorem LeadsUnary.isOperand {floor : Nat} (h : LeadsUnary n nested qs R) (hfloor : floor ≤ 7) :
    IsOperand n nested qs R floor := ⟨8, by omega, h.spine (by decide), fun _ ↦ h⟩

theorem IsOperand.reads {floor m : Nat} (h : IsOperand n nested qs R floor) (hm : 7 ≤ m + floor)
    (hends : endsOperand (first ps) = true) (hfollow : follow ps < floor) :
    Reads n (infixFrom nested m floor) (qs ++ ps) ps R := by
  obtain ⟨precedence, hfloor, hspine, hunary⟩ := h
  cases m with
  | zero => exact (hunary (by omega)).reads hends
  | succ m =>
    refine hspine m floor ps ps R (by omega) hfloor hends ?_ fun e he ↦
      .stop_eq (infixStep_stop hfollow) he
    have hle := follow_le ps
    unfold joins
    split <;> omega

theorem Spine.operation {op : Infix} {m : Mark} (hm : Infix.ofMark? m = some op)
    (hop : op ≠ .fits) {ql qr : List Piece} {L Q : Expr → Prop}
    (hl : IsOperand n nested ql L (Tree.leftFloor op.level))
    (hr : IsOperand n nested qr Q (op.level + 1))
    (hR : ∀ el er, L el → Q er → R (op.join el er)) :
    Spine n nested (ql ++ (Tree.spaced m ++ qr)) R op.level := by
  intro m' floor ps rs P hm' hfloor hends hfollow hloops
  obtain ⟨precedence, hprecedence, hspine, -⟩ := hl
  have hlevel := op.level_bounds
  have hjoins : op.level ≤ joins precedence := le_joins hprecedence hlevel.2
  have hleft : op.level ≤ Tree.leftFloor op.level := by
    unfold Tree.leftFloor
    split <;> omega
  have hself : joins op.level ≤ op.level := by
    unfold joins
    split <;> omega
  have hfirst : first (Tree.spaced m ++ (qr ++ ps)) = .mark m := rfl
  have hright : Reads n (infixFrom nested m' (op.level + 1)) (qr ++ ps) ps Q :=
    hr.reads (by omega) hends (by omega)
  rw [List.append_assoc, List.append_assoc]
  refine hspine m' floor _ rs P hm' (by omega) ?_ ?_ fun el hel ↦
    .more (infixStep_reads hm hop hfloor hjoins hright hfollow) ?_ ?_
  · rw [hfirst, endsOperand, show Infix.ofKind? (.mark m) = some op from hm]
    simp
  · rw [follow, hfirst, show Infix.ofKind? (.mark m) = some op from hm]
    exact hjoins
  · change size ps < size (.mark m :: (qr ++ ps))
    rw [size_mark, size_append]
    omega
  · rintro _ ⟨er, her, rfl⟩
    exact hloops _ (hR el er hel her)

theorem IsOperand.grouped {t : Tree} {floor : Nat} (hs : Serves n k nested)
    (ht : size t.pieces ≤ k) (hpos : 1 ≤ floor) (hfloor : floor ≤ 7)
    (h : 1 ≤ t.precedence → Spine n nested t.pieces t.Spanned t.precedence) :
    IsOperand n nested (Tree.grouped floor t.precedence t.pieces) t.Spanned floor := by
  unfold Tree.grouped
  split
  · exact (Leads.parens hs ht).toUnary.isOperand hfloor
  · exact ⟨t.precedence, by omega, h (by omega), fun hp ↦ leadsUnary hs t hp (by omega)⟩

theorem level_binary (op : Operator) : (Infix.binary op).level = op.precedence := by
  cases op <;> rfl

theorem level_logical (op : Connective) : (Infix.logical op).level = op.precedence := by
  cases op <;> rfl

theorem ofMark?_operator (op : Operator) : Infix.ofMark? op.mark = some (.binary op) := by
  cases op <;> rfl

theorem ofMark?_connective (op : Connective) : Infix.ofMark? op.mark = some (.logical op) := by
  cases op <;> rfl

theorem spine_tight (hs : Serves n k nested) {t : Tree} (hp : 7 ≤ t.precedence)
    (hk : size t.pieces ≤ k + 1) : Spine n nested t.pieces t.Spanned t.precedence :=
  (leadsUnary hs t hp hk).spine hp

theorem leftFloor_bounds (precedence : Nat) : precedence ≤ Tree.leftFloor precedence ∧
    Tree.leftFloor precedence ≤ precedence + 1 := by
  unfold Tree.leftFloor
  split <;> omega

theorem spine_operation (hs : Serves n k nested) {op : Infix} {m : Mark}
    (hm : Infix.ofMark? m = some op) (hop : op ≠ .fits) {l r t : Tree}
    (hk : size (Tree.grouped (Tree.leftFloor op.level) l.precedence l.pieces ++
      (Tree.spaced m ++ Tree.grouped (op.level + 1) r.precedence r.pieces)) ≤ k + 1)
    (hl : 1 ≤ l.precedence → size l.pieces ≤ k + 1 →
      Spine n nested l.pieces l.Spanned l.precedence)
    (hr : 1 ≤ r.precedence → size r.pieces ≤ k + 1 →
      Spine n nested r.pieces r.Spanned r.precedence)
    (hR : ∀ el er, l.Spanned el → r.Spanned er → t.Spanned (op.join el er)) :
    Spine n nested (Tree.grouped (Tree.leftFloor op.level) l.precedence l.pieces ++
      (Tree.spaced m ++ Tree.grouped (op.level + 1) r.precedence r.pieces)) t.Spanned
      op.level := by
  have hbounds := op.level_bounds
  have hfloor := leftFloor_bounds op.level
  have hleft := size_grouped (Tree.leftFloor op.level) l.precedence l.pieces
  have hright := size_grouped (op.level + 1) r.precedence r.pieces
  have hmark : size (Tree.spaced m) = 1 := rfl
  rw [size_append, size_append, hmark] at hk
  exact .operation hm hop
    (.grouped hs (by omega) (by omega) (by omega) fun hp ↦ hl hp (by omega))
    (.grouped hs (by omega) (by omega) (by omega) fun hp ↦ hr hp (by omega)) hR

theorem spine (hs : Serves n k nested) :
    (t : Tree) → 1 ≤ t.precedence → size t.pieces ≤ k + 1 →
      Spine n nested t.pieces t.Spanned t.precedence
  | .binary op l r, _, hk => by
    rw [Tree.pieces, ← level_binary] at hk
    rw [Tree.pieces, Tree.precedence, ← level_binary]
    exact spine_operation hs (ofMark?_operator op) (by simp) hk (spine hs l) (spine hs r)
      fun el er hl hr ↦ .binary hl hr
  | .logical op l r, _, hk => by
    rw [Tree.pieces, ← level_logical] at hk
    rw [Tree.pieces, Tree.precedence, ← level_logical]
    exact spine_operation hs (ofMark?_connective op) (by simp) hk (spine hs l) (spine hs r)
      fun el er hl hr ↦ .logical hl hr
  | .int m, _, hk => spine_tight hs (Nat.le_succ 7) hk
  | .atom a, _, hk => spine_tight hs (Nat.le_succ 7) hk
  | .list ts, _, hk => spine_tight hs (Nat.le_succ 7) hk
  | .callSelf f ts, _, hk => spine_tight hs (Nat.le_succ 7) hk
  | .call r m ts, _, hk => spine_tight hs (Nat.le_succ 7) hk
  | .index r ts, _, hk => spine_tight hs (Nat.le_succ 7) hk
  | .unary op t, _, hk => spine_tight hs (Nat.le_refl 7) hk
  | .assign .., hp, _ => absurd hp (Nat.not_succ_le_zero 0)
  | .assignIndex .., hp, _ => absurd hp (Nat.not_succ_le_zero 0)
  | .assignMember .., hp, _ => absurd hp (Nat.not_succ_le_zero 0)

theorem operators_reads (h : IsOperand n nested qs R 1) (hends : endsOperand (first ps) = true)
    (hfollow : follow ps = 0) : Reads n (operators nested) (qs ++ ps) ps R :=
  h.reads (by decide) hends (by omega)

theorem follow_of_ends (h : endsExpression (first ps) = true) : follow ps = 0 := by
  unfold follow
  cases hk : first ps with
  | mark m =>
    rw [hk] at h
    cases m <;> first | rfl | cases h
  | _ => rfl

theorem assignment_mark (op : Assignment) :
    assignment? (.mark op.mark) = some op.compound? := by cases op <;> rfl

theorem follow_spaced (op : Assignment) (ps : List Piece) :
    follow (Tree.spaced op.mark ++ ps) = 0 := by cases op <;> rfl

theorem endsOperand_assignment (op : Assignment) : endsOperand (.mark op.mark) = true := by
  cases op <;> rfl

theorem assignment_reads (hs : Serves n k nested) (op : Assignment) {T : Target → Prop}
    (hl : LeadsUnary n nested qs fun e ↦ ∃ tg, target e = pure tg ∧ T tg) {v : Tree}
    (hv : size v.pieces ≤ k) (hp : endsExpression (first ps) = true) :
    Reads n (simpleAssignment nested) (qs ++ (Tree.spaced op.mark ++ v.pieces) ++ ps) ps
      fun e ↦ ∃ tg ev s, T tg ∧ v.Spanned ev ∧ e = ⟨op.kind tg ev, s⟩ := by
  rw [List.append_assoc, List.append_assoc]
  refine .bind (operators_reads (hl.isOperand (by decide)) (endsOperand_assignment op)
    (follow_spaced op _)) ?_
  rintro e ⟨tg, htarget, htg⟩
  refine .blank (.bind .kind fun j hj ↦ ?_)
  obtain rfl : j = .mark op.mark := hj
  rw [assignment_mark]
  refine .bind (.advance rfl) fun _ _ ↦ .bind .skipNewlines fun _ _ ↦ .blank ?_
  rw [htarget]
  refine .bind_eq (.pure rfl) (.bind (hs.expression v ps hv hp) fun ev hev ↦ ?_)
  unfold Assignment.kind
  cases op.compound? with
  | none => exact .pure ⟨_, ev, _, htg, hev, rfl⟩
  | some c => exact .pure ⟨_, ev, _, htg, hev, rfl⟩

theorem target_variable (x : Variable) (s : Span) : target ⟨x.kind, s⟩ = pure (x.target s) := by
  cases x <;> rfl

theorem hasSetter_name (name : SetterName) : hasSetter name.text = true := by
  obtain ⟨c, rest, htext, hc, hrest⟩ := name.split
  have hall : ∀ d ∈ c :: rest, Token.continuesName d = true :=
    List.forall_mem_cons.mpr ⟨Token.continuesName_of_startsName hc, all_of_continuation hrest⟩
  have hlast : ((c :: rest).getLast?.any fun d ↦ d == '?' || d == '!') = false := by
    cases hd : (c :: rest).getLast? with
    | none => rfl
    | some d =>
      have hcontinues := hall d (List.mem_of_getLast? hd)
      have hnot : d ∉ ['?', '!'] := not_mem_of_holds hcontinues rfl
      simpa using hnot
  unfold hasSetter
  rw [htext]
  simp only [hlast, List.head?_cons, Option.any_some, hc, Bool.not_false, Bool.and_self]

theorem target_member (name : SetterName) (er : Expr) (s s' : Span) :
    target ⟨.call (some er) ⟨name.text, s⟩ [] none, s'⟩ = pure (.member er ⟨name.text, s⟩) := by
  have hsetter := hasSetter_name name
  have hindex : ¬ (name.text == "[]") = true := by
    intro heq
    rw [beq_iff_eq.mp heq] at hsetter
    exact absurd hsetter (by decide)
  unfold target
  dsimp only
  rw [if_neg hindex, hsetter]
  rfl

theorem IsOperand.simpleAssignment (h : IsOperand n nested qs R 1)
    (hp : endsExpression (first ps) = true) :
    Reads n (simpleAssignment nested) (qs ++ ps) ps R := by
  refine .bind (operators_reads h (endsOperand_of_expression hp) (follow_of_ends hp))
    fun e he ↦ .bind_eq .kind ?_
  have hnone : assignment? (first ps) = none := by
    cases h : first ps with
    | mark m =>
      rw [h] at hp
      cases m <;> first | rfl | cases hp
    | _ => rfl
  rw [hnone]
  exact .pure he

theorem operation_reads (hs : Serves n k nested) {t : Tree} (hpos : 1 ≤ t.precedence)
    (hk : size t.pieces ≤ k + 1) (hp : endsExpression (first ps) = true) :
    Reads n (simpleAssignment nested) (t.pieces ++ ps) ps t.Spanned := by
  have hoperand : IsOperand n nested t.pieces t.Spanned 1 :=
    ⟨_, hpos, spine hs t hpos hk, fun h ↦ leadsUnary hs t h hk⟩
  exact hoperand.simpleAssignment hp

theorem assign_reads (hs : Serves n k nested) {op : Assignment} {x : Variable} {v : Tree}
    (hk : size (Tree.assign op x v).pieces ≤ k + 1) (hp : endsExpression (first ps) = true) :
    Reads n (simpleAssignment nested) ((Tree.assign op x v).pieces ++ ps) ps
      (Tree.assign op x v).Spanned := by
  rw [Tree.pieces, size_cons x.visible, size_append] at hk
  have hsize : size [x.piece] = 1 := size_cons x.visible []
  have htarget : ∀ e, (Tree.atom (.var x)).Spanned e →
      ∃ tg, target e = pure tg ∧ ∃ s, tg = x.target s := by
    rintro _ ⟨⟩
    exact ⟨_, target_variable x _, _, rfl⟩
  have hleft := (leads hs (.atom (.var x)) rfl (hsize.trans_le (by omega))).toUnary
  refine (assignment_reads hs op (hleft.mono htarget) (by omega) hp).mono ?_
  rintro _ ⟨_, ev, s, ⟨s', rfl⟩, hev, rfl⟩
  exact .assign hev

theorem assignIndex_reads (hs : Serves n k nested) {op : Assignment} {r v : Tree} {ts : List Tree}
    (hk : size (Tree.assignIndex op r ts v).pieces ≤ k + 1)
    (hp : endsExpression (first ps) = true) :
    Reads n (simpleAssignment nested) ((Tree.assignIndex op r ts v).pieces ++ ps) ps
      (Tree.assignIndex op r ts v).Spanned := by
  rw [Tree.pieces, size_append, size_append, size_append] at hk
  have hmark : size (Tree.spaced op.mark) = 1 := rfl
  have htarget : ∀ e, (Tree.index r ts).Spanned e → ∃ tg, target e = pure tg ∧
      ∃ er es, r.Spanned er ∧ List.Forall₂ Tree.Spanned ts es ∧ tg = .index er es := by
    intro e he
    cases he with
    | index her hes => exact ⟨_, rfl, _, _, her, hes, rfl⟩
  have hleft := (leads hs (.index r ts) rfl (by rw [Tree.pieces, size_append]; omega)).toUnary
  rw [Tree.pieces, ← List.append_assoc (Tree.grouped _ _ _)]
  refine (assignment_reads hs op (hleft.mono htarget) (by omega) hp).mono ?_
  rintro _ ⟨_, ev, s, ⟨er, es, her, hes, rfl⟩, hev, rfl⟩
  exact .assignIndex her hes hev

theorem assignMember_reads (hs : Serves n k nested) {op : Assignment} {r v : Tree}
    {name : SetterName} (hk : size (Tree.assignMember op r name v).pieces ≤ k + 1)
    (hp : endsExpression (first ps) = true) :
    Reads n (simpleAssignment nested) ((Tree.assignMember op r name v).pieces ++ ps) ps
      (Tree.assignMember op r name v).Spanned := by
  rw [Tree.pieces, size_append, size_mark, size_cons rfl, size_append] at hk
  have hgrouped := size_grouped 8 r.precedence r.pieces
  have hmark : size (Tree.spaced op.mark) = 1 := rfl
  have htarget (e : Expr) : (∃ er s s', r.Spanned er ∧
      e = ⟨.call (some er) ⟨name.text, s⟩ [] none, s'⟩) →
      ∃ tg, target e = pure tg ∧ ∃ er s, r.Spanned er ∧ tg = .member er ⟨name.text, s⟩ := by
    rintro ⟨er, s, s', her, rfl⟩
    exact ⟨_, target_member name er s s', er, s, her, rfl⟩
  have hleft := (Leads.grouped hs (by omega) fun h ↦ leads hs r h (by omega)).member name.text
  have hsplit : (Tree.assignMember op r name v).pieces =
      Tree.grouped 8 r.precedence r.pieces ++ [.mark .dot, .word name.text] ++
        (Tree.spaced op.mark ++ v.pieces) := by simp [Tree.pieces]
  rw [hsplit]
  refine (assignment_reads hs op (hleft.mono htarget) (by omega) hp).mono ?_
  rintro _ ⟨_, ev, s, ⟨er, s', her, rfl⟩, hev, rfl⟩
  exact .assignMember her hev

theorem simpleAssignment_reads (hs : Serves n k nested) (t : Tree) (hk : size t.pieces ≤ k + 1)
    (hp : endsExpression (first ps) = true) :
    Reads n (simpleAssignment nested) (t.pieces ++ ps) ps t.Spanned := by
  by_cases hpos : 1 ≤ t.precedence
  · exact operation_reads hs hpos hk hp
  cases t with
  | assign op x v => exact assign_reads hs hk hp
  | assignIndex op r ts v => exact assignIndex_reads hs hk hp
  | assignMember op r name v => exact assignMember_reads hs hk hp
  | unary op t => exact absurd (Nat.succ_pos 6) hpos
  | binary op l r => exact absurd (Nat.le_trans (by decide) op.precedence_bounds.1) hpos
  | logical op l r => exact absurd op.precedence_bounds.1 hpos
  | _ => exact absurd (Nat.succ_pos 7) hpos

theorem expression_simple {t : Tree} (hp : endsExpression (first ps) = true)
    (h : Reads n (simpleAssignment nested) (t.pieces ++ ps) ps R) :
    Reads n (expression nested) (t.pieces ++ ps) ps R := by
  refine .bind .span fun _ _ ↦ .bind (.atMark .lBracket) fun b hb ↦ ?_
  have hps : first ps ≠ .mark .assign := by
    intro heq
    rw [heq] at hp
    cases hp
  cases b with
  | true =>
    have hfirst : first (t.pieces ++ ps) = .mark .lBracket := eq_of_beq_mark hb.symm
    exact .bind_eq (destructured_reads hfirst hps) h
  | false => exact .bind_eq (.pure rfl) h

theorem parserUpTo_reads {k m : Nat} (h : 2 * k ≤ m) : ReadsUpTo n k (parserUpTo m) := by
  induction k generalizing m with
  | zero =>
    intro t ps hk
    exact absurd t.starts.size_pos (by omega)
  | succ k ih =>
    obtain ⟨m, rfl⟩ : ∃ j, m = j + 2 := ⟨m - 2, by omega⟩
    have hs : Serves n k (parserUpTo (m + 1)) :=
      ⟨ih (by omega), parserUpTo m, ih (by omega), rfl⟩
    exact fun t ps hk hp ↦ expression_simple hp (simpleAssignment_reads hs t hk hp)

theorem parser_reads (t : Tree) (hp : endsExpression (first ps) = true) :
    Reads n (parser .expression) (t.pieces ++ ps) ps t.Spanned := by
  refine .bind .get fun c hc ↦ ?_
  refine parserUpTo_reads (Nat.le_refl _) t ps ?_ hp
  have hbound := hc.bound
  rw [size_append] at hbound
  rw [hc.limit]
  omega

theorem Cursor.skipSeparators_eq {c : Cursor} (h : isSeparator c.kind = false) :
    c.skipSeparators = c := c.skipSeparators_skips.eq_of_not (Bool.eq_false_iff.mp h)

theorem Cursor.Before.skipSeparators {c : Cursor} (h : c.Before n ps)
    (hp : Cursor.isSeparator (first ps) = false) : c.skipSeparators = c :=
  c.skipSeparators_eq (h.kind ▸ hp)

theorem skipSeparators_reads (hp : Cursor.isSeparator (first ps) = false) :
    Reads n skipSeparators ps ps fun _ ↦ True :=
  fun c hc ↦ ⟨(), c, congrArg (fun d ↦ Except.ok ((), d)) (hc.skipSeparators hp), hc, trivial⟩

theorem startsOperand_statement {k : Token.Kind} (h : startsOperand k = true) :
    Cursor.isSeparator k = false ∧ endsBody k = false := by
  cases k with
  | mark m => cases m <;> first | exact ⟨rfl, rfl⟩ | cases h
  | keyword w => cases w <;> first | exact ⟨rfl, rfl⟩ | cases h
  | eof => cases h
  | newline => cases h
  | _ => exact ⟨rfl, rfl⟩

theorem statements_one (h : Reads n (parser .expression) qs [] R)
    (hseparator : Cursor.isSeparator (first qs) = false) (hbody : endsBody (first qs) = false)
    (hsize : 0 < size qs) :
    Reads n (statements parser) qs [] fun body ↦ ∃ e, body = [e] ∧ R e := by
  have hstep : Reads n (statementStep parser []) qs []
      (Sum.elim (fun done ↦ ∃ e, done = [e] ∧ R e) fun _ ↦ False) := by
    refine .bind (skipSeparators_reads hseparator) fun _ _ ↦ .bind_eq .kind ?_
    rw [hbody]
    refine .bind h fun e he ↦ .bind_eq .kind ?_
    exact .pure ⟨e, rfl, he⟩
  have hloop : Loops n (statementStep parser) [] qs [] fun done ↦ ∃ e, done = [e] ∧ R e := by
    refine .more hstep hsize fun done hdone ↦ .stop ?_
    refine .bind (skipSeparators_reads rfl) fun _ _ ↦ .bind_eq .kind ?_
    exact .pure hdone
  refine .bind hloop.iterate ?_
  rintro _ ⟨e, rfl, he⟩
  exact .pure ⟨e, rfl, he⟩

theorem program_one (h : Reads n (statements parser) qs [] fun body ↦ ∃ e, body = [e] ∧ R e) :
    Reads n program qs [] fun p ↦ ∃ e s, p = ⟨[e], s⟩ ∧ R e := by
  refine .bind .span fun start _ ↦ .bind h ?_
  rintro _ ⟨e, rfl, he⟩
  refine .bind_eq .kind ?_
  exact .pure ⟨e, _, rfl, he⟩

theorem program_reads (t : Tree) :
    Reads n program t.pieces [] fun p ↦ ∃ e s, p = ⟨[e], s⟩ ∧ t.Spanned e := by
  have hstart : startsOperand (first t.pieces) = true := by
    have h := t.starts.first []
    rwa [List.append_nil] at h
  obtain ⟨hseparator, hbody⟩ := startsOperand_statement hstart
  have hstatement : Reads n (parser .expression) t.pieces [] t.Spanned := by
    have h : Reads n (parser .expression) (t.pieces ++ []) [] t.Spanned := parser_reads t rfl
    rwa [List.append_nil] at h
  exact program_one (statements_one hstatement hseparator hbody t.starts.size_pos)

theorem ofTokens?_tokens (t : Tree) (stop : Position) :
    ∃ e s, Program.ofTokens? (Piece.tokens .start t.pieces ++ [Token.endAt stop]) = .ok ⟨[e], s⟩ ∧
      t.Spanned e := by
  obtain ⟨_, hprogram, e, s, rfl, he⟩ := ofTokens?_reads (program_reads t) stop
  exact ⟨e, s, hprogram, he⟩

end Grammar

/-- A tree without the number -2^63, written with parentheses only where its precedence asks for
them, is read as one statement, which is the tree. -/
theorem written_tree_is_read (t : Tree) (h : Int64.minValue ∉ t.ints) :
    ∃ e s, Program.ofText? t.text = .ok ⟨[e], s⟩ ∧ t.Spanned e := by
  have hlexes : Lexes t.pieces := by
    have hread := (t.readable h).lexes [] trivial ⟨nofun, nofun⟩
    rwa [List.append_nil] at hread
  obtain ⟨stop, htokens⟩ := Token.ofText?_spell hlexes
  have hcursor := Grammar.Cursor.ofTokens_tokens .start stop t.pieces
  have hbefore : (Grammar.Cursor.ofTokens
      (Piece.tokens .start t.pieces ++ [Token.endAt stop])).Before (size t.pieces + 2)
      t.pieces := by
    rw [hcursor]
    exact ⟨⟨[], rfl⟩, rfl, by omega⟩
  obtain ⟨p, c, hprogram, -, e, s, rfl, he⟩ := Grammar.program_reads t _ hbefore
  refine ⟨e, s, ?_, he⟩
  rw [Program.ofText?, Tree.text, htokens]
  dsimp only
  rw [Program.ofTokens?, hprogram]

/-- `[1, [@a]][0].size = - -5 - (1 - 2) * -3.abs(:s, nil && true)` -/
def sizeSet : Tree :=
  .assignMember .plain
    (.index (.list [.int 1, .list [.atom (.var (.attr ⟨"a", by decide⟩))]]) [.int 0])
    ⟨"size", by decide⟩
    (.binary .sub (.unary .neg (.int (-5)))
      (.binary .mul (.binary .sub (.int 1) (.int 2))
        (.call (.int (-3)) (.word ⟨"abs", by decide⟩)
          [.atom (.symbol ⟨"s", by decide⟩), .logical .and (.atom .nil) (.atom (.bool true))])))

theorem sizeSet_is_read : Int64.minValue ∉ sizeSet.ints ∧
    ∃ e s, Program.ofText? sizeSet.text = .ok ⟨[e], s⟩ ∧ sizeSet.Spanned e :=
  ⟨by decide, written_tree_is_read sizeSet (by decide)⟩

example : sizeSet.text = "[1, [@a]][0].size = - -5 - (1 - 2) * -3.abs(:s, nil && true)" := by
  decide +kernel

/-- The digits of -2^63 are out of range without the minus, which is a token of its own. -/
theorem least_integer_is_not_read : ¬ ∃ e s,
    Program.ofText? (Tree.int Int64.minValue).text = .ok ⟨[e], s⟩ ∧
      (Tree.int Int64.minValue).Spanned e := by
  rintro ⟨e, s, h, -⟩
  have outOfRange : Program.ofText? (Tree.int Int64.minValue).text =
      .error (.lex ⟨.integerOutOfRange "9223372036854775808", ⟨⟨1, 2⟩, ⟨1, 20⟩⟩⟩) := rfl
  rw [outOfRange] at h
  cases h

end Quill
