import Quill.Proofs.Grammar.Soundness.Construct

/-!
# Programs are read as written

Main statement: `program_gives`. The statements of a program are spelled by its tokens, and so is
everything inside them by tokens of its own.
-/

namespace Quill.Grammar

open Parse

variable {c c' : Cursor} {nested : Nested}

theorem atom_gives {k : Token.Kind} {kind : Expr.Kind} (ho : Ordered c.rest) (hk : c.kind = k)
    (hs : Solid k) (hf : ∀ s, Form .tight (.expr ⟨kind, s⟩) [.token k]) :
    Gives c (atom kind) fun e c' ↦ c.Lays [.expr e] c' := by
  have htakes := c.takes ho hk hs
  exact .advance (.pure (htakes.lays.node (hf _) htakes.spans))

theorem jump_gives (hn : ReadsNested nested) (j : Jump) (ho : Ordered c.rest)
    (hk : c.kind = .keyword (jumpWord j)) :
    Gives c (jump nested j) fun e c' ↦ c.Lays [.expr e] c' := by
  have hword := c.takes ho hk ⟨nofun, nofun⟩
  refine .advance (.kind (.ite (fun _ ↦ .pure (hword.lays.node .jump hword.spans)) fun _ ↦ ?_))
  refine .bind (hn _ _ hword.ordered) fun e c₁ he ↦ .pure ?_
  exact (hword.lays.trans he).node .jumpWith (hword.spans.merge_next he.spans)

theorem parenthesized_gives (hn : ReadsNested nested) (ho : Ordered c.rest)
    (hk : c.kind = .mark .lParen) :
    Gives c (parenthesized nested) fun e c' ↦ c.Lays [.expr e] c' := by
  have hopen := c.takes ho hk ⟨nofun, nofun⟩
  obtain ⟨ns, hns, hlays⟩ := Cursor.lays_skipNewlines hopen.ordered
  refine .advance (.skipNewlines (.bind (hn _ _ hlays.ordered) fun e c₁ he ↦ ?_))
  obtain ⟨ms, hms, hlays'⟩ := Cursor.lays_skipNewlines he.ordered
  refine .skipNewlines (.bind (expect_gives _ hlays'.ordered) fun close c₂ hclose ↦ .pure ?_)
  obtain ⟨k, s⟩ := e
  obtain ⟨ps, hform, hps⟩ := he.parts
  have hinside := hlays.trans (hps.trans hlays')
  refine (hopen.lays.trans (hlays.trans (hps.trans (hlays'.trans hclose.lays)))).node
    (.parens hform hns hms) ?_
  exact hopen.spans.merge hinside.moves hclose.spans

theorem listLiteral_gives (hn : ReadsNested nested) (ho : Ordered c.rest)
    (hk : c.kind = .mark .lBracket) :
    Gives c (listLiteral nested) fun e c' ↦ c.Lays [.expr e] c' := by
  have hopen := c.takes ho hk ⟨nofun, nofun⟩
  refine .advance (.bind (plainArguments_gives hn _ _ _ hopen.ordered) fun args c₁ ha ↦
    .previous (.pure ?_))
  obtain ⟨c₂, s, ⟨ps, hlisted, hps⟩, hclose⟩ := ha
  exact (hopen.lays.trans (hps.trans hclose.lays)).node (.list hlisted)
    (hopen.spans.previous (hclose.spans.moves_after hps.moves))

theorem nameOrCall_gives (hn : ReadsNested nested) {name : String} (ho : Ordered c.rest)
    (hk : c.kind = .identifier name) :
    Gives c (nameOrCall nested name) fun e c' ↦ c.Lays [.expr e] c' := by
  have hname := c.takes ho hk ⟨nofun, nofun⟩
  have hident : c.Lays [.ident ⟨name, c.span⟩] c.next := hname.lays.node .identifier hname.spans
  refine .advance (.kind (.ite (fun _ ↦ ?_) fun _ ↦ .pure (hname.lays.node .name hname.spans)))
  refine .bind (callSuffix_gives hn hname.ordered) fun a c₁ ⟨ps, hsuffix, hps, hmoves⟩ ↦
    .previous (.pure ?_)
  exact (hident.trans hps).node (.nameCall hsuffix) (hname.spans.previous hmoves)

theorem yieldCall_gives (hn : ReadsNested nested) (ho : Ordered c.rest)
    (hk : c.kind = .keyword .yield) :
    Gives c (yieldCall nested) fun e c' ↦ c.Lays [.expr e] c' := by
  have hword := c.takes ho hk ⟨nofun, nofun⟩
  refine .advance (.eatMark (fun hopen ↦ ?_) ?_)
  · have hopen := c.next.takes hword.ordered hopen ⟨nofun, nofun⟩
    refine .bind (plainArguments_gives hn _ _ _ hopen.ordered) fun args c₁ ha ↦
      .previous (.pure ?_)
    obtain ⟨c₂, s, ⟨ps, hlisted, hps⟩, hclose⟩ := ha
    exact (hword.lays.trans (hopen.lays.trans (hps.trans hclose.lays))).node (.yieldCall hlisted)
      (hword.spans.previous (hclose.spans.moves_after (hopen.lays.trans hps).moves))
  · refine .bind (P := fun args c' ↦ args = [] ∧ c' = c.next) (.pure ⟨rfl, rfl⟩) ?_
    rintro _ _ ⟨rfl, rfl⟩
    refine .previous (.pure ?_)
    exact hword.lays.node .yieldPlain (hword.spans.previous (.refl hword.ordered))

theorem superCall_gives (hn : ReadsNested nested) (ho : Ordered c.rest)
    (hk : c.kind = .keyword .super) :
    Gives c (superCall nested) fun e c' ↦ c.Lays [.expr e] c' := by
  have hword := c.takes ho hk ⟨nofun, nofun⟩
  refine .advance (.sees (.bind (callSuffix_gives hn hword.ordered) fun a c₁ ha ↦
    .previous (.pure ?_)))
  obtain ⟨ps, hsuffix, hps, hmoves⟩ := ha
  exact (hword.lays.trans hps).node (.superCall hsuffix) (hword.spans.previous hmoves)

theorem includeModule_gives (hn : ReadsNested nested) (ho : Ordered c.rest)
    (hk : c.kind = .keyword .include_) :
    Gives c (includeModule nested) fun e c' ↦ c.Lays [.expr e] c' := by
  have hword := c.takes ho hk ⟨nofun, nofun⟩
  refine .advance (.bind (hn _ _ hword.ordered) fun e c₁ he ↦ .pure ?_)
  exact (hword.lays.trans he).node .include_ (hword.spans.merge_next he.spans)

theorem blockValue_gives (hn : ReadsNested nested) (ho : Ordered c.rest)
    (hk : startsBlock c.kind = true) :
    Gives c (blockValue nested) fun e c' ↦ c.Lays [.expr e] c' :=
  .bind (block_gives hn ho hk) fun _ _ hb ↦ .pure (hb.node .blockValue hb.spans)

theorem keywordOperand_gives (hn : ReadsNested nested) (w : Keyword) (ho : Ordered c.rest)
    (hk : c.kind = .keyword w) :
    Gives c (keywordOperand nested w) fun e c' ↦ c.Lays [.expr e] c' := by
  have solid : Solid (.keyword w) := ⟨nofun, nofun⟩
  cases w with
  | nil => exact atom_gives ho hk solid fun _ ↦ .literal rfl
  | true_ => exact atom_gives ho hk solid fun _ ↦ .literal rfl
  | false_ => exact atom_gives ho hk solid fun _ ↦ .literal rfl
  | self => exact atom_gives ho hk solid fun _ ↦ .self
  | do_ => exact blockValue_gives hn ho (hk ▸ rfl)
  | if_ => exact conditional_gives hn ho hk
  | while_ => exact loop_gives hn ho hk
  | for_ => exact forEach_gives hn ho hk
  | case => exact select_gives hn ho hk
  | begin_ => exact protect_gives hn ho hk
  | raise => exact jump_gives hn .raise ho hk
  | return_ => exact jump_gives hn .return_ ho hk
  | break_ => exact jump_gives hn .break_ ho hk
  | next => exact jump_gives hn .next ho hk
  | yield => exact yieldCall_gives hn ho hk
  | super => exact superCall_gives hn ho hk
  | def_ => exact methodDef_gives hn ho hk
  | type => exact typeDef_gives hn .type ho hk
  | module => exact typeDef_gives hn .module ho hk
  | include_ => exact includeModule_gives hn ho hk
  | _ => exact .unexpected

theorem primary_gives (hn : ReadsNested nested) (ho : Ordered c.rest) :
    Gives c (primary nested) fun e c' ↦ c.Lays [.expr e] c' := by
  refine .kind ?_
  split
  · rename_i hk
    exact atom_gives ho hk ⟨nofun, nofun⟩ fun _ ↦ .literal rfl
  · rename_i hk
    exact atom_gives ho hk ⟨nofun, nofun⟩ fun _ ↦ .literal rfl
  · rename_i hk
    exact atom_gives ho hk ⟨nofun, nofun⟩ fun _ ↦ .literal rfl
  · rename_i hk
    exact atom_gives ho hk ⟨nofun, nofun⟩ fun _ ↦ .literal rfl
  · rename_i hk
    exact nameOrCall_gives hn ho hk
  · rename_i hk
    exact atom_gives ho hk ⟨nofun, nofun⟩ fun _ ↦ .constant
  · rename_i hk
    exact atom_gives ho hk ⟨nofun, nofun⟩ fun _ ↦ .attr
  · rename_i hk
    exact listLiteral_gives hn ho hk
  · rename_i hk
    exact parenthesized_gives hn ho hk
  · rename_i hk
    exact blockValue_gives hn ho (hk ▸ rfl)
  · rename_i hk
    exact keywordOperand_gives hn _ ho hk
  · exact .unexpected

theorem parser_gives : ReadsNested parser := by
  have upTo (n : Nat) : ReadsNested (parserUpTo n) := by
    induction n with
    | zero => exact fun _ _ _ ↦ .unexpected
    | succ n ih =>
      intro entry c ho
      cases entry with
      | expression => exact expression_gives ih ho
      | operand => exact .bind (primary_gives ih ho) fun _ _ he ↦ postfixOps_gives ih he
  exact fun entry c ho ↦ .get (upTo _ entry c ho)

theorem program_gives (ho : Ordered c.rest) (hrest : ∀ t ∈ c.rest, (t.kind != .eof) = true) :
    Gives c program fun p _ ↦ (∃ ps, Sequence p.body ps ∧ Laid ps c.rest) ∧
      p.span = match p.body.getLast? with
        | some e => c.span.merge e.span
        | none => c.span := by
  refine .span (.bind (statements_gives parser_gives ho) fun es c₁ ⟨ps, hsequence, hlays⟩ ↦
    .kind (.ite (fun hk ↦ ?_) fun _ ↦ .unexpected))
  obtain ⟨cells, hpast, hlaid⟩ := hlays
  have hall : c.rest = cells := by
    have hsplit := hpast.rest
    unfold Cursor.kind at hk
    cases hrest₁ : c₁.rest with
    | nil => rw [hsplit, hrest₁, List.append_nil]
    | cons t rest =>
      rw [hrest₁] at hk
      have ht := hrest t (by rw [hsplit, hrest₁]; simp)
      rw [bne, hk] at ht
      cases ht
  subst hall
  have hlast : ∃ qs, Sequence es qs ∧ Laid qs c.rest := ⟨ps, hsequence, hlaid⟩
  split
  · rename_i e he
    exact .pure ⟨hlast, by rw [he]⟩
  · rename_i he
    exact .pure ⟨hlast, by rw [he]⟩

end Quill.Grammar
