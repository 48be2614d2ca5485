import Quill.Proofs.Grammar.Soundness.Operators

namespace Quill.Grammar

open Parse

variable {c c₀ c₁ c' : Cursor} {nested : Nested}

theorem guard?_gives (hn : ReadsNested nested) (ho : Ordered c.rest) :
    Gives c (guard? nested) fun g c' ↦ c.Lays (guardParts g) c' := by
  refine .eatKeyword (fun hk ↦ ?_) (.pure (.refl ho))
  have hword := c.takes ho hk ⟨nofun, nofun⟩
  exact .bind (hn _ _ hword.ordered) fun e c₁ he ↦ .pure (hword.lays.trans he)

theorem part?_gives (hn : ReadsNested nested) (word : Keyword) (ho : Ordered c.rest) :
    Gives c (part? nested word) fun es c' ↦ ∃ ps, Tail word es ps ∧ c.Lays ps c' := by
  refine .eatKeyword (fun hk ↦ ?_) (.pure ⟨[], .none, .refl ho⟩)
  have hword := c.takes ho hk ⟨nofun, nofun⟩
  refine .bind (statements_gives hn hword.ordered) fun es c₁ ⟨ps, hsequence, hlays⟩ ↦ .pure ?_
  exact ⟨_, .some hsequence, hword.lays.trans hlays⟩

def ReadsBranch (c : Cursor) (b : Branch) (c' : Cursor) : Prop :=
  ∃ word bs ps c₁, (word = .if_ ∨ word = .elsif) ∧ Break bs ∧ Sequence b.body ps ∧
    c.Takes (.keyword word) b.first c₁ ∧ c₁.Lays (.expr b.condition :: (bs ++ ps)) c'

/-- Branches have been read, the last one first. -/
inductive Branches (c : Cursor) : List Branch → Cursor → Prop
  | nil : Ordered c.rest → Branches c [] c
  | cons {b : Branch} {bs : List Branch} {c₁ c' : Cursor} : Branches c bs c₁ → ReadsBranch c₁ b c' →
      Branches c (b :: bs) c'

theorem ReadsBranch.ordered {b : Branch} (h : ReadsBranch c b c') : Ordered c'.rest := by
  obtain ⟨word, bs, ps, c₁, -, -, -, -, hlays⟩ := h
  exact hlays.ordered

theorem Branches.ordered {bs : List Branch} (h : Branches c bs c') : Ordered c'.rest := by
  cases h with
  | nil ho => exact ho
  | cons _ hb => exact hb.ordered

def ReadsOtherwise (c : Cursor) (es : Option (List Expr)) (c' : Cursor) : Prop :=
  ∃ ps, Otherwise es ps ∧ c.Lays ps c'

theorem ReadsBranch.lays {b : Branch} {es : Option (List Expr)} (h : ReadsBranch c b c₁)
    (he : ReadsOtherwise c₁ es c') :
    c.Lays [.node .loose (.cond (b.first.merge c'.previous) b.condition b.body es)] c' := by
  obtain ⟨word, bs, ps, c₂, hword, hbreak, hsequence, htakes, hlays⟩ := h
  obtain ⟨qs, hotherwise, hqs⟩ := he
  have hparts : c.Lays (.word word :: .expr b.condition :: (bs ++ (ps ++ qs))) c' := by
    simpa using htakes.lays.trans (hlays.trans hqs)
  exact hparts.node (.branch hword hbreak hsequence hotherwise)
    (htakes.spans.previous (hlays.trans hqs).moves)

theorem Branches.otherwise {bs : List Branch} {es : Option (List Expr)} (h : Branches c bs c₁)
    (he : ReadsOtherwise c₁ es c') : ReadsOtherwise c (chain c'.previous es bs) c' := by
  induction h generalizing es with
  | nil => exact he
  | cons _ hb ih =>
    have hcond := hb.lays he
    exact ih ⟨_, .branch, hcond.node .laterBranch hcond.spans⟩

theorem branch_gives (hn : ReadsNested nested) {word : Keyword} (hw : word = .if_ ∨ word = .elsif)
    (ho : Ordered c.rest) (hk : c.kind = .keyword word) :
    Gives c (branch nested) fun b c' ↦ ReadsBranch c b c' := by
  have hword := c.takes ho hk ⟨nofun, nofun⟩
  refine .advance (.bind (hn _ _ hword.ordered) fun e c₁ he ↦ ?_)
  refine .bind (separator_gives he.ordered) fun _ c₂ ⟨bs, hbreak, hbs⟩ ↦ ?_
  refine .bind (statements_gives hn hbs.ordered) fun es c₃ ⟨ps, hsequence, hps⟩ ↦ .pure ?_
  exact ⟨word, bs, ps, _, hw, hbreak, hsequence, hword, he.trans (hbs.trans hps)⟩

theorem conditional_gives (hn : ReadsNested nested) (ho : Ordered c.rest)
    (hk : c.kind = .keyword .if_) :
    Gives c (conditional nested) fun e c' ↦ c.Lays [.expr e] c' := by
  refine .bind (branch_gives hn (.inl rfl) ho hk) fun first c₁ hfirst ↦ ?_
  have step (done : List Branch) (c₂ : Cursor) (h : Branches c₁ done c₂) :
      Gives c₂ (branchStep nested done) fun r c' ↦ Sum.elim (Branches c₁ · c')
        (fun x ↦ ∃ c₃, Branches c₁ x.1 c₃ ∧ ReadsOtherwise c₃ x.2 c') r := by
    refine .atKeyword (fun hk ↦ ?_) ?_
    · exact .bind (branch_gives hn (.inr rfl) h.ordered hk) fun b c₃ hb ↦ .pure (.cons h hb)
    · refine .bind (part?_gives hn _ h.ordered) fun es c₃ ⟨ps, htail, hps⟩ ↦ .pure ?_
      exact ⟨c₂, h, ps, .tail htail, hps⟩
  refine .bind (.iterate (Branches c₁) step (.nil hfirst.ordered)) ?_
  rintro ⟨later, otherwise⟩ c₂ ⟨c₃, hlater, hotherwise⟩
  have hcond := hfirst.lays (hlater.otherwise hotherwise)
  refine .previous (.bind (endOf_gives _ hcond.ordered) fun close c₄ hclose ↦ .pure ?_)
  exact (hcond.trans hclose.lays).node .conditional (hcond.spans.merge_next hclose.spans)

theorem loop_gives (hn : ReadsNested nested) (ho : Ordered c.rest)
    (hk : c.kind = .keyword .while_) :
    Gives c (loop nested) fun e c' ↦ c.Lays [.expr e] c' := by
  have hword := c.takes ho hk ⟨nofun, nofun⟩
  refine .advance (.bind (hn _ _ hword.ordered) fun e c₁ he ↦ ?_)
  refine .bind (separator_gives he.ordered) fun _ c₂ ⟨bs, hbreak, hbs⟩ ↦ ?_
  refine .bind (statements_gives hn hbs.ordered) fun es c₃ ⟨ps, hsequence, hps⟩ ↦ ?_
  refine .bind (endOf_gives _ hps.ordered) fun close c₄ hclose ↦ .pure ?_
  have hinside := he.trans (hbs.trans hps)
  have hspans := hword.spans.merge hinside.moves hclose.spans
  have hloop := (hword.lays.trans (he.trans (hbs.trans (hps.trans hclose.lays)))).node
    (n := .loop (c.span.merge close) e es) (.loop hbreak hsequence) hspans
  exact hloop.node .loopValue hspans

theorem forEach_gives (hn : ReadsNested nested) (ho : Ordered c.rest)
    (hk : c.kind = .keyword .for_) :
    Gives c (forEach nested) fun e c' ↦ c.Lays [.expr e] c' := by
  have hword := c.takes ho hk ⟨nofun, nofun⟩
  refine .advance
    (.bind (pattern_gives _ hword.ordered) fun p c₁ hp ↦ .eatKeyword (fun hin ↦ ?_) ?_)
  · have hin := c₁.takes hp.ordered hin ⟨nofun, nofun⟩
    refine .bind (hn _ _ hin.ordered) fun e c₂ he ↦ ?_
    refine .bind (separator_gives he.ordered) fun _ c₃ ⟨bs, hbreak, hbs⟩ ↦ ?_
    refine .bind (statements_gives hn hbs.ordered) fun es c₄ ⟨ps, hsequence, hps⟩ ↦ ?_
    refine .bind (endOf_gives _ hps.ordered) fun close c₅ hclose ↦ .pure ?_
    have hinside := hp.trans (hin.lays.trans (he.trans (hbs.trans hps)))
    have hspans := hword.spans.merge hinside.moves hclose.spans
    have hparts := hword.lays.trans (hp.trans (hin.lays.trans (he.trans (hbs.trans
      (hps.trans hclose.lays)))))
    have hloop := hparts.node (n := .forEach (c.span.merge close) p e es)
      (.forEach hbreak hsequence) hspans
    exact hloop.node .forEachValue hspans
  · exact .bind (P := fun _ _ ↦ False) .unexpected nofun

theorem armStep_gives (hn : ReadsNested nested) {done : List Arm}
    (h : c₀.Lays (done.reverse.map (.node .loose <| .arm ·)) c) :
    Gives c (armStep nested done) fun r c' ↦
      Sum.elim (fun as ↦ c₀.Lays (as.reverse.map (.node .loose <| .arm ·)) c')
        (fun as ↦ c₀.Lays (as.reverse.map (.node .loose <| .arm ·)) c') r := by
  refine .atKeyword (fun hk ↦ ?_) (.pure h)
  have hword := c.takes h.ordered hk ⟨nofun, nofun⟩
  refine .advance (.bind (pattern_gives _ hword.ordered) fun p c₁ hp ↦ ?_)
  refine .bind (guard?_gives hn hp.ordered) fun g c₂ hg ↦ ?_
  refine .bind (separator_gives hg.ordered) fun _ c₃ ⟨bs, hbreak, hbs⟩ ↦ ?_
  refine .bind (statements_gives hn hbs.ordered) fun es c₄ ⟨ps, hsequence, hps⟩ ↦
    .previous (.pure ?_)
  have hinside := hp.trans (hg.trans (hbs.trans hps))
  have harm := (hword.lays.trans hinside).node
    (n := .arm ⟨p, g, es, c.span.merge c₄.previous⟩) (.arm hbreak hsequence)
    (hword.spans.previous hinside.moves)
  simpa using h.trans harm

theorem select_gives (hn : ReadsNested nested) (ho : Ordered c.rest)
    (hk : c.kind = .keyword .case) :
    Gives c (select nested) fun e c' ↦ c.Lays [.expr e] c' := by
  have hword := c.takes ho hk ⟨nofun, nofun⟩
  refine .advance (.bind (hn _ _ hword.ordered) fun e c₁ he ↦ ?_)
  refine .bind (separator_gives he.ordered) fun _ c₂ ⟨bs, hbreak, hbs⟩ ↦ ?_
  refine .bind (.iterate (fun as c' ↦ c₂.Lays (as.reverse.map (.node .loose <| .arm ·)) c')
    (fun _ _ ↦ armStep_gives hn) (.refl hbs.ordered)) fun as c₃ has ↦ ?_
  refine .ite (fun _ ↦ .unexpected) fun hne ↦ ?_
  refine .bind (part?_gives hn _ has.ordered) fun es c₄ ⟨ps, htail, hps⟩ ↦ ?_
  refine .bind (endOf_gives _ hps.ordered) fun close c₅ hclose ↦ .pure ?_
  have hsome : as.reverse ≠ [] := by
    intro h
    rw [List.reverse_eq_nil_iff.mp h] at hne
    cases hne
  have hinside := he.trans (hbs.trans (has.trans hps))
  have hspans := hword.spans.merge hinside.moves hclose.spans
  have hparts := hword.lays.trans (he.trans (hbs.trans (has.trans (hps.trans hclose.lays))))
  have hselect := hparts.node (n := .select (c.span.merge close) e as.reverse es)
    (.select hbreak hsome htail) hspans
  exact hselect.node .selectValue hspans

theorem rescuePattern_gives (ho : Ordered c.rest) :
    Gives c rescuePattern fun p c' ↦ c.Lays (p.toList.map .pattern) c' :=
  .kind (.ite (fun _ ↦ .pure (.refl ho)) fun _ ↦ .bind (pattern_gives _ ho) fun _ _ hp ↦ .pure hp)

theorem rescueStep_gives (hn : ReadsNested nested) {done : List Rescue}
    (h : c₀.Lays (done.reverse.map (.node .loose <| .rescue ·)) c) :
    Gives c (rescueStep nested done) fun r c' ↦
      Sum.elim (fun rs ↦ c₀.Lays (rs.reverse.map (.node .loose <| .rescue ·)) c')
        (fun rs ↦ c₀.Lays (rs.reverse.map (.node .loose <| .rescue ·)) c') r := by
  refine .atKeyword (fun hk ↦ ?_) (.pure h)
  have hword := c.takes h.ordered hk ⟨nofun, nofun⟩
  refine .advance (.bind (rescuePattern_gives hword.ordered) fun p c₁ hp ↦ ?_)
  refine .bind (guard?_gives hn hp.ordered) fun g c₂ hg ↦ ?_
  refine .bind (separator_gives hg.ordered) fun _ c₃ ⟨bs, hbreak, hbs⟩ ↦ ?_
  refine .bind (statements_gives hn hbs.ordered) fun es c₄ ⟨ps, hsequence, hps⟩ ↦
    .previous (.pure ?_)
  have hinside := hp.trans (hg.trans (hbs.trans hps))
  have hrescue := (hword.lays.trans hinside).node
    (n := .rescue ⟨p, g, es, c.span.merge c₄.previous⟩) (.rescue hbreak hsequence)
    (hword.spans.previous hinside.moves)
  simpa using h.trans hrescue

def ReadsBody (c : Cursor) (start : Span) (b : Body) (c' : Cursor) : Prop :=
  ∃ ps c₁ close, Protected b ps ∧ c.Lays ps c' ∧ c.Moves .loose c₁ ∧
    c₁.Takes (.keyword .end_) close c' ∧ b.span = start.merge close

theorem protectedBody_gives (hn : ReadsNested nested) (start : Span) (construct : Keyword)
    (ho : Ordered c.rest) :
    Gives c (protectedBody nested start construct) fun b c' ↦ ReadsBody c start b c' := by
  refine .bind (statements_gives hn ho) fun es c₁ ⟨ps, hsequence, hps⟩ ↦ ?_
  refine .bind (.iterate (fun rs c' ↦ c₁.Lays (rs.reverse.map (.node .loose <| .rescue ·)) c')
    (fun _ _ ↦ rescueStep_gives hn) (.refl hps.ordered)) fun rs c₂ hrs ↦ ?_
  refine .bind (part?_gives hn _ hrs.ordered) fun otherwise c₃ ⟨qs, helse, hqs⟩ ↦ ?_
  refine .bind (part?_gives hn _ hqs.ordered) fun ensure c₄ ⟨ts, hensure, hts⟩ ↦ ?_
  refine .bind (endOf_gives _ hts.ordered) fun close c₅ hclose ↦ .pure ?_
  have hinside := hps.trans (hrs.trans (hqs.trans hts))
  refine ⟨_, c₄, close, .mk hsequence helse hensure, ?_, hinside.moves, hclose, rfl⟩
  exact hps.trans (hrs.trans (hqs.trans (hts.trans hclose.lays)))

theorem protect_gives (hn : ReadsNested nested) (ho : Ordered c.rest)
    (hk : c.kind = .keyword .begin_) :
    Gives c (protect nested) fun e c' ↦ c.Lays [.expr e] c' := by
  have hword := c.takes ho hk ⟨nofun, nofun⟩
  refine .advance (.bind (protectedBody_gives hn _ _ hword.ordered) fun b c₁ hb ↦ .pure ?_)
  obtain ⟨ps, c₂, close, hprotected, hlays, hmoves, hclose, hspan⟩ := hb
  have hspans : c.Spans .tight b.span c₁ := hspan ▸ hword.spans.merge hmoves hclose.spans
  have hbody := (hword.lays.trans hlays).node (n := .body b) (.body hprotected) hspans
  exact hbody.node .protect hspans

theorem methodParams_gives (ho : Ordered c.rest) :
    Gives c methodParams fun p c' ↦ ∃ ps, Parameters .lParen .rParen p ps ∧ c.Lays ps c' := by
  refine .eatMark (fun hk ↦ ?_) (.pure ⟨[], .none, .refl ho⟩)
  have hopen := c.takes ho hk ⟨nofun, nofun⟩
  refine .bind (paramList_gives _ hopen.ordered) fun p c₁ ⟨ps, hlisted, hlays⟩ ↦ ?_
  refine .bind (expect_gives _ hlays.ordered) fun _ c₂ hclose ↦ .pure ?_
  exact ⟨_, .list hlisted, hopen.lays.trans (hlays.trans hclose.lays)⟩

theorem singleton_gives (ho : Ordered c.rest) :
    Gives c singleton fun b c' ↦
      c.Lays (if b then [.word .self, .mark .dot] else []) c' := by
  refine .get (.get ?_)
  split
  · rename_i hk hk'
    have hself := c.takes ho hk ⟨nofun, nofun⟩
    have hdot := c.next.takes hself.ordered (c.next_kind.trans hk') ⟨nofun, nofun⟩
    exact .advance (.advance (.pure (hself.lays.trans hdot.lays)))
  · exact .pure (.refl ho)

theorem methodDef_gives (hn : ReadsNested nested) (ho : Ordered c.rest)
    (hk : c.kind = .keyword .def_) :
    Gives c (methodDef nested) fun e c' ↦ c.Lays [.expr e] c' := by
  have hword := c.takes ho hk ⟨nofun, nofun⟩
  refine .get (.advance (.bind (singleton_gives hword.ordered) fun singleton c₁ hself ↦ ?_))
  refine .bind (definedName_gives hself.ordered) fun name c₂ hname ↦ ?_
  refine .bind (methodParams_gives hname.ordered) fun params c₃ ⟨ps, hparams, hps⟩ ↦ ?_
  refine .bind (guard?_gives hn hps.ordered) fun guard c₄ hguard ↦ ?_
  refine .bind (separator_gives hguard.ordered) fun _ c₅ ⟨bs, hbreak, hbs⟩ ↦ ?_
  refine .bind (protectedBody_gives hn _ _ hbs.ordered) fun b c₆ hb ↦ .pure ?_
  obtain ⟨qs, c₇, close, hprotected, hlays, hmoves, hclose, hspan⟩ := hb
  have hrest := hself.trans (hname.trans (hps.trans (hguard.trans hbs)))
  have hspans : c.Spans .tight b.span c₆ :=
    hspan ▸ hword.spans.merge (hrest.moves.trans hmoves) hclose.spans
  have hmethod := (((Cursor.lays_definer ho hk).trans hrest).trans hlays).node
    (n := .method ⟨name, singleton, params, guard, b, c.doc, b.span⟩)
    (.method rfl (.mk hparams hbreak) hprotected) hspans
  exact hmethod.node .methodValue hspans

theorem superclass_gives (hn : ReadsNested nested) (sort : TypeSort) (ho : Ordered c.rest) :
    Gives c (superclass nested sort) fun e c' ↦
      (sort = .module → e = none) ∧ c.Lays (superParts e) c' := by
  cases sort with
  | module => exact .pure ⟨fun _ ↦ rfl, .refl ho⟩
  | type =>
    refine .eatMark (fun hk ↦ ?_) (.pure ⟨nofun, .refl ho⟩)
    have hless := c.takes ho hk ⟨nofun, nofun⟩
    exact .bind (hn _ _ hless.ordered) fun e c₁ he ↦ .pure ⟨nofun, hless.lays.trans he⟩

theorem typeDef_gives (hn : ReadsNested nested) (sort : TypeSort) (ho : Ordered c.rest)
    (hk : c.kind = .keyword (sortKeyword sort)) :
    Gives c (typeDef nested sort) fun e c' ↦ c.Lays [.expr e] c' := by
  have hword := c.takes ho hk ⟨nofun, nofun⟩
  refine .get (.advance (.bind (constantName_gives hword.ordered) fun name c₁ hname ↦ ?_))
  refine .bind (superclass_gives hn sort hname.ordered) fun super c₂ ⟨hmodule, hsuper⟩ ↦ ?_
  refine .bind (separator_gives hsuper.ordered) fun _ c₃ ⟨bs, hbreak, hbs⟩ ↦ ?_
  refine .bind (statements_gives hn hbs.ordered) fun es c₄ ⟨ps, hsequence, hps⟩ ↦ ?_
  refine .bind (endOf_gives _ hps.ordered) fun close c₅ hclose ↦ .pure ?_
  have hinside := hname.trans (hsuper.trans (hbs.trans hps))
  have hspans := hword.spans.merge hinside.moves hclose.spans
  have hparts := (Cursor.lays_definer ho hk).trans
    (hname.trans (hsuper.trans (hbs.trans (hps.trans hclose.lays))))
  have htype := hparts.node (n := .type ⟨sort, name, super, es, c.doc, c.span.merge close⟩)
    (.type hmodule hbreak hsequence) hspans
  exact htype.node .typeValue hspans

end Quill.Grammar
