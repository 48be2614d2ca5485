import Quill.Proofs.Grammar.Soundness.Pattern

namespace Quill.Grammar

open Parse

variable {c c₀ c₁ : Cursor} {nested : Nested}

def ReadsNested (nested : Nested) : Prop :=
  ∀ entry c, Ordered c.rest → Gives c (nested entry) fun e c' ↦ c.Lays [.expr e] c'

theorem statements_gives (hn : ReadsNested nested) (ho : Ordered c.rest) :
    Gives c (statements nested) fun es c' ↦ ∃ ps, Sequence es ps ∧ c.Lays ps c' := by
  -- After a statement there is a separator, or nothing that could be another statement.
  let state (done : List Expr) (c' : Cursor) : Prop := ∃ ps, Sequence done.reverse ps ∧
    c.Lays ps c' ∧ (Parted ps ∨ Cursor.isSeparator c'.kind = true ∨ endsBody c'.kind = true)
  have step (done : List Expr) (c₁ : Cursor) (h : state done c₁) :
      Gives c₁ (statementStep nested done) fun r c' ↦
        Sum.elim (state · c') (fun done ↦ ∃ ps, Sequence done.reverse ps ∧ c.Lays ps c') r := by
    obtain ⟨ps, hsequence, hlays, hparted⟩ := h
    obtain ⟨qs, hqs, hlays', hkind, hstay⟩ := c₁.lays_skipSeparators hlays.ordered
    refine .skipSeparators (.kind (.ite (fun _ ↦ ?_) fun hends ↦ ?_))
    · exact .pure ⟨ps ++ qs, hsequence.separators hqs, hlays.trans hlays'⟩
    · refine .bind (hn _ _ hlays'.ordered) fun e c₂ he ↦ .kind (.ite (fun hk ↦ .pure ?_) fun _ ↦ ?_)
      · have hparted' : Parted (ps ++ qs) := by
          obtain rfl | ⟨front, p, rfl⟩ := List.eq_nil_or_concat qs
          · rw [hstay rfl] at hkind hends
            rw [List.append_nil]
            exact hparted.resolve_right (by simp [hkind, hends])
          · intro q hq
            rw [List.concat_eq_append, ← List.append_assoc, List.getLast?_concat] at hq
            cases hq
            exact hqs p (by simp)
        refine ⟨(ps ++ qs) ++ [.expr e], ?_, (hlays.trans hlays').trans he, .inr ?_⟩
        · rw [List.reverse_cons]
          exact .statement (hsequence.separators hqs) hparted'
        · simpa using hk
      · exact .unexpected
  refine .bind (.iterate state step ⟨[], .nil, .refl ho, .inl nofun⟩) fun done c' h ↦ .pure h

theorem blockParams_gives (ho : Ordered c.rest) :
    Gives c blockParams fun p c' ↦ ∃ ps, Bars p ps ∧ c.Lays ps c' := by
  refine .eatMark (fun hk ↦ .pure ?_) (.eatMark (fun hk ↦ ?_) (.pure ?_))
  · exact ⟨_, .empty, (c.takes ho hk ⟨nofun, nofun⟩).lays⟩
  · have hopen := c.takes ho hk ⟨nofun, nofun⟩
    refine .bind (paramList_gives _ hopen.ordered) fun p c₁ ⟨ps, hlisted, hlays⟩ ↦ ?_
    refine .bind (expect_gives _ hlays.ordered) fun _ c₂ hclose ↦ .pure ?_
    exact ⟨_, .list (.list hlisted), hopen.lays.trans (hlays.trans hclose.lays)⟩
  · exact ⟨[], .list .none, .refl ho⟩

theorem startsBlock_cases {k : Token.Kind} (h : startsBlock k = true) :
    k = .mark .lBrace ∨ k = .keyword .do_ := by
  unfold startsBlock at h
  split at h
  · exact .inl rfl
  · exact .inr rfl
  · cases h

theorem block_gives (hn : ReadsNested nested) (ho : Ordered c.rest)
    (hk : startsBlock c.kind = true) :
    Gives c (block nested) fun b c' ↦ c.Lays [.node .tight (.block b)] c' := by
  have hstart : c.Takes c.kind c.span c.next := by
    refine c.takes ho rfl ?_
    obtain hk | hk := startsBlock_cases hk <;> exact hk ▸ ⟨nofun, nofun⟩
  refine .sees (.advance (.bind (blockParams_gives hstart.ordered) fun p c₁ hp ↦ ?_))
  obtain ⟨ps, hbars, hlays⟩ := hp
  refine .bind (statements_gives hn hlays.ordered) fun es c₂ hes ↦ ?_
  obtain ⟨qs, hsequence, hlays'⟩ := hes
  have closed {last : Token.Kind} {s : Span} {c₃ : Cursor} (hclose : c₂.Takes last s c₃)
      (hpair : (c.kind = .mark .lBrace ∧ last = .mark .rBrace) ∨
        (c.kind = .keyword .do_ ∧ last = .keyword .end_)) :
      c.Lays [.node .tight (.block ⟨p, es, c.span.merge s⟩)] c₃ := by
    refine (hstart.lays.trans (hlays.trans (hlays'.trans hclose.lays))).node
      (.block hpair hbars hsequence) ?_
    exact hstart.spans.merge (hlays.trans hlays').moves hclose.spans
  refine .ite (fun hbrace ↦ ?_) fun hbrace ↦ ?_
  · refine .bind (expect_gives _ hlays'.ordered) fun s c₃ hclose ↦ .pure (closed hclose (.inl ?_))
    exact ⟨eq_of_beq_mark hbrace, rfl⟩
  · refine .bind (endOf_gives _ hlays'.ordered) fun s c₃ hclose ↦ .pure (closed hclose (.inr ?_))
    refine ⟨(startsBlock_cases hk).resolve_left fun h ↦ ?_, rfl⟩
    rw [h] at hbrace
    cases hbrace

/-- Arguments have been read with the mark that closes them. -/
def Cursor.Closes (c : Cursor) (args : List Expr) (pass : Option Expr) (closing : Mark)
    (c' : Cursor) : Prop :=
  ∃ c₁ s, c.Lists (argItems args pass) c₁ ∧ c₁.Takes (.mark closing) s c'

theorem argItems_value (args : List Expr) (e : Expr) :
    argItems (e :: args).reverse none = argItems args.reverse none ++ [[.expr e]] := by
  simp [argItems]

theorem argItems_pass (args : List Expr) (e : Expr) :
    argItems args (some e) = argItems args none ++ [[.mark .amp, .expr e]] := by
  simp [argItems]

theorem arguments_gives (hn : ReadsNested nested) (closing : Mark) (ho : Ordered c.rest) :
    Gives c (arguments nested closing) fun a c' ↦
      ∃ pass, a.block = pass.map .pass ∧ c.Closes a.args pass closing c' := by
  let state (done : Arguments) (c' : Cursor) : Prop := ∃ pass, done.block = pass.map .pass ∧
    c.Opens (argItems done.args.reverse pass) c'
  let result (done : Arguments) (c' : Cursor) : Prop := ∃ pass, done.block = pass.map .pass ∧
    c.Lists (argItems done.args.reverse pass) c'
  have step (done : Arguments) (c₁ : Cursor) (h : state done c₁) :
      Gives c₁ (argumentStep nested closing done) fun r c' ↦
        Sum.elim (state · c') (result · c') r := by
    obtain ⟨pass, hpass, hopens⟩ := h
    refine .atMark (fun _ ↦ .pure ⟨pass, hpass, hopens.lists⟩)
      (.ite (fun _ ↦ .unexpected) fun hnone ↦ ?_)
    obtain rfl : pass = none := by
      cases pass with
      | none => rfl
      | some e => simp [hpass] at hnone
    refine .eatMark (fun hamp ↦ ?_) ?_
    · have hamp := c₁.takes hopens.ordered hamp ⟨nofun, nofun⟩
      refine .bind (hn _ _ hamp.ordered) fun e c₂ he ↦ ?_
      exact comma_gives hopens (hamp.lays.trans he) (argItems_pass _ e)
        (fun _ h ↦ ⟨some e, rfl, h⟩) fun _ h ↦ ⟨some e, rfl, h⟩
    · refine .bind (hn _ _ hopens.ordered) fun e c₂ he ↦ ?_
      exact comma_gives hopens he (argItems_value _ e) (fun _ h ↦ ⟨none, hpass, h⟩)
        fun _ h ↦ ⟨none, hpass, h⟩
  refine .skipNewlines (.bind (P := result) ?_ fun done c₁ h ↦ ?_)
  · exact .iterate state step ⟨none, rfl, opens_skipNewlines ho⟩
  · obtain ⟨pass, hpass, ps, hlisted, hlays⟩ := h
    refine .bind (expect_gives _ hlays.ordered) fun s c₂ hclose ↦ .pure ?_
    exact ⟨pass, hpass, c₁, s, ⟨ps, hlisted, hlays⟩, hclose⟩

theorem plainArguments_gives (hn : ReadsNested nested) (closing : Mark) (expected : Expected)
    (place : Span) (ho : Ordered c.rest) :
    Gives c (plainArguments nested closing expected place) fun args c' ↦
      c.Closes args none closing c' := by
  refine .bind (arguments_gives hn closing ho) fun a c₁ ha ↦ ?_
  obtain ⟨pass, hpass, hcloses⟩ := ha
  split
  · exact .failAt
  · rename_i hnone
    obtain rfl : pass = none := by
      cases pass with
      | none => rfl
      | some e => simp [hpass] at hnone
    exact .pure hcloses

/-- The arguments of a call have been read, with the block after them. -/
def Cursor.Suffixed (c : Cursor) (a : Arguments) (c' : Cursor) : Prop :=
  ∃ ps, Suffix (c.kind == .mark .lParen) a ps ∧ c.Lays ps c' ∧ c.Moves .tight c'

theorem callSuffix_gives (hn : ReadsNested nested) (ho : Ordered c.rest) :
    Gives c (callSuffix nested) fun a c' ↦ c.Suffixed a c' := by
  refine .eat (fun hk ↦ ?_) fun hk ↦ ?_
  · have hopen := c.takes ho (eq_of_beq_mark hk) ⟨nofun, nofun⟩
    refine .bind (arguments_gives hn _ hopen.ordered) fun a c₁ ha ↦ ?_
    obtain ⟨pass, hpass, c₀, s, ⟨ps, hlisted, hlays⟩, hclose⟩ := ha
    have hparens := hopen.lays.trans (hlays.trans hclose.lays)
    refine .kind (.ite (fun hb ↦ ?_) fun _ ↦ .pure ?_)
    · refine .span (.bind (block_gives hn hclose.ordered hb) fun b c₂ hblock ↦ ?_)
      split
      · exact .failAt
      · rename_i hnone
        obtain rfl : pass = none := by
          cases pass with
          | none => rfl
          | some e => simp [hpass] at hnone
        refine .pure ⟨_, hk ▸ Suffix.both hlisted, ?_, hblock.spans.moves_after hparens.moves⟩
        simpa using hparens.trans hblock
    · obtain ⟨args, _⟩ := a
      subst hpass
      exact ⟨_, hk ▸ Suffix.list hlisted, hparens,
        hclose.spans.moves_after (hopen.lays.trans hlays).moves⟩
  · refine .bind (.pure (Q := fun a c' ↦ a = .none ∧ c' = c) ⟨rfl, rfl⟩) ?_
    rintro _ _ ⟨rfl, rfl⟩
    refine .kind (.ite (fun hb ↦ ?_) fun _ ↦ .pure ?_)
    · refine .span (.bind (block_gives hn ho hb) fun b c₂ hblock ↦ .pure ?_)
      exact ⟨_, hk ▸ Suffix.block, hblock, hblock.spans.moves⟩
    · exact ⟨_, hk ▸ Suffix.none, .refl ho, .refl ho⟩

theorem methodName_gives (ho : Ordered c.rest) :
    Gives c methodName fun i c' ↦ c.Lays [.ident i] c' := by
  have single {k : Token.Kind} {name : String} (hk : c.kind = k) (hs : Solid k)
      (hf : ∀ s, Form .tight (.ident ⟨name, s⟩) [.token k]) :
      Gives c (do return ⟨name, ← advance⟩) fun i c' ↦ c.Lays [.ident i] c' := by
    have htakes := c.takes ho hk hs
    exact .advance (.pure (htakes.lays.node (hf _) htakes.spans))
  refine .kind ?_
  split
  · rename_i hk
    exact single hk ⟨nofun, nofun⟩ fun _ ↦ .identifier
  · rename_i hk
    exact single hk ⟨nofun, nofun⟩ fun _ ↦ .constantName
  · rename_i hk
    exact single hk ⟨nofun, nofun⟩ fun _ ↦ .wordName
  · rename_i hk
    refine .get ?_
    split
    · rename_i hk'
      have hopen := c.takes ho hk ⟨nofun, nofun⟩
      have hclose := c.next.takes hopen.ordered (c.next_kind.trans hk') ⟨nofun, nofun⟩
      refine .advance (.advance (.pure ?_))
      exact (hopen.lays.trans hclose.lays).node .indexName (hopen.spans.merge_next hclose.spans)
    · exact .unexpected
  · rename_i m _ hk
    refine .ite (fun hm ↦ ?_) fun _ ↦ .unexpected
    exact single hk ⟨nofun, nofun⟩ fun _ ↦ .operatorName hm
  · exact .unexpected

theorem definedName_gives (ho : Ordered c.rest) :
    Gives c definedName fun i c' ↦ c.Lays [.ident i] c' := by
  refine .get ?_
  split
  · rename_i name hk hk'
    have hname := c.takes ho hk ⟨nofun, nofun⟩
    have hassign := c.next.takes hname.ordered (c.next_kind.trans hk') ⟨nofun, nofun⟩
    refine .advance (.advance (.pure ?_))
    exact (hname.lays.trans hassign.lays).node .setterName (hname.spans.merge_next hassign.spans)
  · rename_i hk hk' hk''
    have hopen := c.takes ho hk ⟨nofun, nofun⟩
    have hclose := c.next.takes hopen.ordered (c.next_kind.trans hk') ⟨nofun, nofun⟩
    have hthird : c.next.next.kind = .mark .assign := by
      rw [Cursor.next_kind, Cursor.next_second, hk'']
    have hassign := c.next.next.takes hclose.ordered hthird ⟨nofun, nofun⟩
    refine .advance (.advance (.advance (.pure ?_)))
    refine (hopen.lays.trans (hclose.lays.trans hassign.lays)).node .indexSetterName ?_
    exact hopen.spans.merge hclose.lays.moves hassign.spans
  · exact methodName_gives ho

end Quill.Grammar
