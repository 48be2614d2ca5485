import Quill.Proofs.Grammar.Soundness.Call

namespace Quill.Grammar

open Parse

variable {c c₀ c₁ c' : Cursor} {nested : Nested}

theorem postfixOps_gives (hn : ReadsNested nested) {e : Expr} (he : c.Lays [.expr e] c') :
    Gives c' (postfixOps nested e) fun e' c'' ↦ c.Lays [.expr e'] c'' := by
  -- Line breaks have been read only if a dot follows.
  let state (e : Expr) (c' : Cursor) : Prop := ∃ c₁ ns, c.Lays [.expr e] c₁ ∧ Newlines ns ∧
    c₁.Lays ns c' ∧ (ns = [] ∨ c'.kind = .mark .dot)
  have settled {e : Expr} {c' : Cursor} (h : state e c') (hk : c'.kind ≠ .mark .dot) :
      c.Lays [.expr e] c' := by
    obtain ⟨c₁, ns, he, -, hns, hdot⟩ := h
    obtain rfl := hdot.resolve_right hk
    exact he.trans hns
  refine .iterate state (fun e c₁ h ↦ .kind ?_) ⟨c', [], he, nofun, .refl he.ordered, .inl rfl⟩
  split
  · rename_i hk
    obtain ⟨c₂, ns, he, hnewlines, hns, -⟩ := h
    have hdot := c₁.takes hns.ordered hk ⟨nofun, nofun⟩
    obtain ⟨ms, hms, hlays⟩ := Cursor.lays_skipNewlines hdot.ordered
    refine .advance (.skipNewlines (.bind (methodName_gives hlays.ordered) fun m c₃ hm ↦ ?_))
    refine .bind (callSuffix_gives hn hm.ordered) fun a c₄ ⟨ps, hsuffix, hps, hmoves⟩ ↦
      .previous (.pure ?_)
    have hbetween := hns.trans (hdot.lays.trans hlays)
    have hcall := (he.trans (hns.trans (hdot.lays.trans (hlays.trans (hm.trans hps))))).node
      (.call hnewlines hms hsuffix)
      (he.spans.previous ((hm.spans.moves_after hbetween.moves).trans hmoves))
    exact ⟨c₄, [], hcall, nofun, .refl hcall.ordered, .inl rfl⟩
  · rename_i hk
    have he := settled h (by simp [hk])
    have hopen := c₁.takes he.ordered hk ⟨nofun, nofun⟩
    have hbracket : c₁.Lays [.ident ⟨"[]", c₁.span⟩] c₁.next := hopen.lays.node .bracket hopen.spans
    refine .advance (.bind (plainArguments_gives hn _ _ _ hopen.ordered) fun args c₂ ha ↦
      .previous (.pure ?_))
    obtain ⟨c₃, s, ⟨ps, hlisted, hps⟩, hclose⟩ := ha
    have hindex := (he.trans (hbracket.trans (hps.trans hclose.lays))).node (.index hlisted)
      (he.spans.previous (hclose.spans.moves_after (hbracket.trans hps).moves))
    exact ⟨c₂, [], hindex, nofun, .refl hindex.ordered, .inl rfl⟩
  · rename_i hk
    refine .get (.ite (fun hdot ↦ ?_) fun _ ↦ .pure (settled h (by simp [hk])))
    obtain ⟨c₂, ns, he, hnewlines, hns, -⟩ := h
    obtain ⟨ms, hms, hlays⟩ := Cursor.lays_skipNewlines hns.ordered
    refine .skipNewlines (.pure ⟨c₂, ns ++ ms, he, ?_, hns.trans hlays, .inr ?_⟩)
    · exact List.forall_mem_append.mpr ⟨hnewlines, hms⟩
    · exact kind_of_chainContinues hdot
  · rename_i hk _ _
    exact .pure (settled h hk)

/-- Operators have been read that stand in front of an operand; the innermost comes first. -/
inductive Prefixed (c : Cursor) : List (PrefixOp × Span) → Cursor → Prop
  | nil : Ordered c.rest → Prefixed c [] c
  | cons {ops : List (PrefixOp × Span)} {op : PrefixOp} {k : Token.Kind} {s : Span}
      {c₁ c' : Cursor} : Prefixed c ops c₁ → prefixOp? k = some op → c₁.Takes k s c' →
      Prefixed c ((op, s) :: ops) c'

theorem Prefixed.ordered {ops : List (PrefixOp × Span)} (h : Prefixed c ops c') :
    Ordered c'.rest := by
  cases h with
  | nil ho => exact ho
  | cons _ _ htakes => exact htakes.ordered

theorem Prefixed.lays {ops : List (PrefixOp × Span)} (h : Prefixed c ops c₁) {e : Expr}
    (he : c₁.Lays [.expr e] c') : c.Lays [.expr (underPrefixes e ops)] c' := by
  induction h generalizing e with
  | nil => exact he
  | cons _ hop htakes ih =>
    exact ih ((htakes.lays.trans he).node (.unary hop) (htakes.spans.merge_next he.spans))

theorem solid_of_prefixOp {k : Token.Kind} {op : PrefixOp} (h : prefixOp? k = some op) :
    Solid k := by
  constructor <;> (rintro rfl; cases h)

theorem mark_of_prefixOp {k : Token.Kind} (h : prefixOp? k = some .neg) : k = .mark .minus := by
  unfold prefixOp? at h
  split at h
  · rfl
  · cases h
  · cases h

theorem negatedLiteral_of_touchingNumber {op : PrefixOp} {s : Span} {v : Literal}
    (h : touchingNumber op s c = some v) : op = .neg ∧ negatedLiteral c.kind = some v := by
  unfold touchingNumber at h
  split at h
  · split at h
    · exact ⟨rfl, h⟩
    · cases h
  · cases h

theorem unary_gives (hn : ReadsNested nested) (ho : Ordered c.rest) :
    Gives c (unary nested) fun e c' ↦ c.Lays [.expr e] c' := by
  refine .iterate (Prefixed c) (fun ops c₁ hops ↦ .kind ?_) (.nil ho)
  split
  · exact .bind (hn _ _ hops.ordered) fun e c₂ he ↦ .pure (hops.lays he)
  · rename_i op hop
    have hhere := c₁.takes hops.ordered rfl (solid_of_prefixOp hop)
    refine .advance (.get ?_)
    split
    · exact .pure (.cons hops hop hhere)
    · rename_i number hnumber
      obtain ⟨rfl, hnegated⟩ := negatedLiteral_of_touchingNumber hnumber
      have hminus := mark_of_prefixOp hop
      have hdigits := c₁.next.takes hhere.ordered rfl (solid_of_negatedLiteral hnegated)
      rw [hminus] at hhere
      refine .advance (.bind (postfixOps_gives hn ?_) fun e c₂ he ↦ .pure (hops.lays he))
      exact (hhere.lays.trans hdigits.lays).node (.negated hnegated)
        (hhere.spans.merge_next hdigits.spans)

theorem solid_of_infixOp {k : Token.Kind} {op : Infix} (h : Infix.ofKind? k = some op) :
    Solid k := by
  constructor <;> (rintro rfl; cases h)

theorem infixFrom_gives (hn : ReadsNested nested) (n floor : Nat) (ho : Ordered c.rest) :
    Gives c (infixFrom nested n floor) fun e c' ↦ c.Lays [.expr e] c' := by
  induction n generalizing floor c with
  | zero => exact unary_gives hn ho
  | succ n ih =>
    refine .bind (unary_gives hn ho) fun first c₁ hfirst ↦
      .iterate (fun left c' ↦ c.Lays [.expr left.expr] c') (fun left c₂ hleft ↦ .kind ?_) hfirst
    split
    · exact .pure hleft
    · rename_i op hop
      have hk := c₂.takes hleft.ordered rfl (solid_of_infixOp hop)
      obtain ⟨ns, hns, hlays⟩ := Cursor.lays_skipNewlines hk.ordered
      have hbetween := hk.lays.trans hlays
      refine .ite (fun _ ↦ .pure hleft) fun _ ↦ .advance (.skipNewlines ?_)
      split
      · refine .bind (pattern_gives _ hlays.ordered) fun p c₃ hp ↦ .pure ?_
        exact (hleft.trans (hk.lays.trans (hlays.trans hp))).node (.fits hop hns)
          (hleft.spans.merge hbetween.moves hp.spans)
      · rename_i hfits
        refine .bind (ih _ hlays.ordered) fun r c₃ hr ↦ ?_
        -- Whether an equality may follow is asked only once the two operands are joined.
        have hjoined : c.Lays [.expr (op.join left.expr r)] c₃ := by
          have hparts := hleft.trans (hk.lays.trans (hlays.trans hr))
          have hspans := hleft.spans.merge hbetween.moves hr.spans
          cases op with
          | binary o => exact hparts.node (.binary hop hns) hspans
          | logical o => exact hparts.node (.logical hop hns) hspans
          | fits => exact absurd rfl hfits
        split
        · refine .kind ?_
          split
          · exact .unexpected
          · exact .pure hjoined
        · exact .pure hjoined

inductive Assigns : Expr → Target → Prop
  | name {k : Expr.Kind} {i : Ident} {t : Target} : Names k i.name → NameTarget i t →
      Assigns ⟨k, i.span⟩ t
  | call {receiver : Expr} {m : Ident} {args : List Expr} {s : Span} {t : Target} :
      CallTarget receiver m args t → Assigns ⟨.call (some receiver) m args none, s⟩ t

theorem target_gives (e : Expr) : Gives c (target e) fun t c' ↦ c' = c ∧ Assigns e t := by
  obtain ⟨k, s⟩ := e
  unfold target
  split
  · rename_i n hk
    obtain rfl : k = _ := hk
    exact .pure ⟨rfl, .name (i := ⟨n, s⟩) (.inl rfl) (.inl rfl)⟩
  · rename_i n hk
    obtain rfl : k = _ := hk
    exact .pure ⟨rfl, .name (i := ⟨n, s⟩) (.inr (.inl rfl)) (.inr (.inl rfl))⟩
  · rename_i n hk
    obtain rfl : k = _ := hk
    exact .pure ⟨rfl, .name (i := ⟨n, s⟩) (.inr (.inr rfl)) (.inr (.inr rfl))⟩
  · rename_i receiver m args hk
    obtain rfl : k = _ := hk
    refine .ite (fun hm ↦ .pure ⟨rfl, .call (.inl ⟨eq_of_beq hm, rfl⟩)⟩) fun _ ↦ ?_
    refine .ite (fun hm ↦ .pure ⟨rfl, .call (.inr ⟨?_, ?_, rfl⟩)⟩) fun _ ↦ .failAt
    · exact List.isEmpty_iff.mp (Bool.and_eq_true_iff.mp hm).1
    · exact (Bool.and_eq_true_iff.mp hm).2
  · exact .failAt
  · exact .failAt

theorem destructured_gives (ho : Ordered c.rest) :
    Gives c destructured fun p? c' ↦ match p? with
      | some p => c.Lays [.pattern p] c' ∧ c'.kind = .mark .assign
      | none => c' = c := by
  intro p? c' h
  obtain ⟨p, c₁, hp, hk, hd⟩ | ⟨-, -, -, -, hd⟩ | ⟨e, -, ⟨-, hd⟩ | ⟨-, hd⟩⟩ :=
    destructured_cases c <;> rw [hd] at h <;> cases h
  · exact ⟨pattern_gives c ho p c' hp, hk⟩
  · rfl
  · rfl

theorem solid_of_assignment {k : Token.Kind} {op : Option Compound} (h : assignment? k = some op) :
    Solid k := by
  constructor <;> (rintro rfl; cases h)

theorem assignment_lays {left value : Expr} {t : Target} {op : Option Compound} {k : Token.Kind}
    {s : Span} {ns : List Part} {c₂ c₃ : Cursor} (hleft : c.Lays [.expr left] c₁)
    (ht : Assigns left t) (hop : assignment? k = some op) (hk : c₁.Takes k s c₂) (hns : Newlines ns)
    (hlays : c₂.Lays ns c₃) (hvalue : c₃.Lays [.expr value] c') :
    c.Lays [.expr ⟨assignmentKind op t value, left.span.merge value.span⟩] c' := by
  have hspans := hleft.spans.merge (hk.lays.trans hlays).moves hvalue.spans
  have hrest := hk.lays.trans (hlays.trans hvalue)
  obtain ⟨ps, hform, hps⟩ := hleft.parts
  cases ht with
  | name hnames ht =>
    have hname : c.Lays [.ident _] c₁ := hps.node (.targetName hform hnames) hleft.spans
    exact (hname.trans hrest).node (.assignName hop ht hns) hspans
  | call ht => exact (hps.trans hrest).node (.assignCall hop ht hform hns) hspans

theorem simpleAssignment_gives (hn : ReadsNested nested) (ho : Ordered c.rest) :
    Gives c (simpleAssignment nested) fun e c' ↦ c.Lays [.expr e] c' := by
  refine .bind (infixFrom_gives hn _ _ ho) fun left c₁ hleft ↦ .kind ?_
  split
  · exact .pure hleft
  · rename_i op hop
    have hk := c₁.takes hleft.ordered rfl (solid_of_assignment hop)
    obtain ⟨ns, hns, hlays⟩ := Cursor.lays_skipNewlines hk.ordered
    refine .advance (.skipNewlines (.bind (target_gives left) ?_))
    rintro t _ ⟨rfl, ht⟩
    refine .bind (hn _ _ hlays.ordered) fun value c₂ hvalue ↦ ?_
    have hassign := assignment_lays hleft ht hop hk hns hlays hvalue
    cases op with
    | none => exact .pure hassign
    | some op => exact .pure hassign

theorem expression_gives (hn : ReadsNested nested) (ho : Ordered c.rest) :
    Gives c (expression nested) fun e c' ↦ c.Lays [.expr e] c' := by
  have rest (p? : Option Pattern) (c₁ : Cursor) (h : match p? with
      | some p => c.Lays [.pattern p] c₁ ∧ c₁.kind = .mark .assign
      | none => c₁ = c) :
      Gives c₁ (match p? with
        | some p => do
          let value ← assigned nested
          return ⟨.destructure p value, c.span.merge value.span⟩
        | none => simpleAssignment nested) fun e c' ↦ c.Lays [.expr e] c' := by
    cases p? with
    | none =>
      obtain rfl : c₁ = c := h
      exact simpleAssignment_gives hn ho
    | some p =>
      obtain ⟨hp, hk⟩ := h
      have hassign := c₁.takes hp.ordered hk ⟨nofun, nofun⟩
      obtain ⟨ns, hns, hlays⟩ := Cursor.lays_skipNewlines hassign.ordered
      have hvalue : Gives c₁ (assigned nested) fun e c' ↦
          c₁.next.skipNewlines.Lays [.expr e] c' :=
        .advance (.skipNewlines (hn _ _ hlays.ordered))
      refine .bind hvalue fun value c₂ hvalue ↦ .pure ?_
      have hparts := hp.trans (hassign.lays.trans (hlays.trans hvalue))
      obtain ⟨hstart, hmoves⟩ := hp.spans.start
      refine hparts.node (.destructure hns) (hstart.merge ?_ hvalue.spans)
      exact hmoves.trans (hassign.lays.trans hlays).moves
  refine .span (.sees (.ite (fun _ ↦ ?_) fun _ ↦ ?_))
  · exact .bind (destructured_gives ho) rest
  · exact .bind (.pure (Q := fun p? c' ↦ match p? with
      | some p => c.Lays [.pattern p] c' ∧ c'.kind = .mark .assign
      | none => c' = c) rfl) rest

end Quill.Grammar
