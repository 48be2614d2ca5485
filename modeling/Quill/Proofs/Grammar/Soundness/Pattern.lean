import Quill.Proofs.Grammar.Laying

namespace Quill.Grammar

open Parse

variable {c c₀ c₁ : Cursor}

theorem typePath_gives (ho : Ordered c.rest) :
    Gives c typePath fun p c' ↦ c.Lays [.node .tight (.path p)] c' := by
  let segments (p : TypePath) (c' : Cursor) : Prop := ∃ i is, p.segments = i :: is ∧
    c.Lays (.ident i :: is.flatMap ([.mark .dot, .ident ·])) c' ∧ c.Spans .tight p.span c'
  refine .bind (constantName_gives ho) fun first c₁ hfirst ↦
    .iterate segments (fun p c₂ hp ↦ ?_) ⟨first, [], rfl, hfirst, hfirst.spans⟩
  obtain ⟨i, is, hsegments, hlays, hspans⟩ := hp
  refine .get (.get ?_)
  split
  · rename_i name hdot _
    have hdot := c₂.takes hlays.ordered hdot ⟨nofun, nofun⟩
    refine .advance (.bind (constantName_gives hdot.ordered) fun segment c₃ hsegment ↦ .pure ?_)
    refine ⟨i, is ++ [segment], by rw [hsegments]; rfl, ?_, ?_⟩
    · simpa using hlays.trans (hdot.lays.trans hsegment)
    · exact hspans.merge hdot.lays.moves hsegment.spans
  · obtain ⟨_, span⟩ := p
    subst hsegments
    exact .pure (hlays.node .path hspans)

theorem splat_gives (ho : Ordered c.rest) (hk : c.kind = .mark .star) :
    Gives c splat fun p c' ↦ c.Lays [.pattern p] c' := by
  have hstar := c.takes ho hk ⟨nofun, nofun⟩
  refine .advance (.kind ?_)
  split
  · refine .bind (identifier_gives hstar.ordered) fun i c₁ hi ↦ .pure ?_
    have hspans := hstar.spans.merge_next hi.spans
    split
    · rename_i hname
      rw [eq_of_beq hname] at hi
      exact (hstar.lays.trans hi.lays).node .splatUnnamed hspans
    · rename_i hname
      exact (hstar.lays.trans hi.ident).node (.splatNamed fun h ↦ hname (beq_iff_eq.mpr h)) hspans
  · exact .pure (hstar.lays.node .splat hstar.spans)

/-- Items have been read that stand before a comma. -/
def Cursor.Opens (c : Cursor) (is : List (List Part)) (c' : Cursor) : Prop :=
  ∃ ps, Opened is ps ∧ c.Lays ps c'

/-- Items have been read with commas between them. -/
def Cursor.Lists (c : Cursor) (is : List (List Part)) (c' : Cursor) : Prop :=
  ∃ ps, Listed is ps ∧ c.Lays ps c'

theorem Cursor.Opens.ordered {is : List (List Part)} (h : c.Opens is c₁) : Ordered c₁.rest := by
  obtain ⟨ps, -, hlays⟩ := h
  exact hlays.ordered

theorem Cursor.Opens.lists {is : List (List Part)} (h : c.Opens is c₁) : c.Lists is c₁ := by
  obtain ⟨ps, hopened, hlays⟩ := h
  exact ⟨ps, .opened hopened, hlays⟩

theorem opens_skipNewlines (ho : Ordered c.rest) : c.Opens [] c.skipNewlines := by
  obtain ⟨ns, hns, hlays⟩ := c.lays_skipNewlines ho
  exact ⟨ns, .start hns, hlays⟩

theorem comma_gives {α β : Type} {more : α} {done : β} {R : α ⊕ β → Cursor → Prop}
    {is is' : List (List Part)} {i : List Part} (h : c₀.Opens is c₁) (hi : c₁.Lays i c)
    (his : is' = is ++ [i]) (hm : ∀ c', c₀.Opens is' c' → R (.inl more) c')
    (hd : ∀ c', c₀.Lists is' c' → R (.inr done) c') : Gives c (comma more done) R := by
  subst his
  obtain ⟨ps, hopened, hlays⟩ := h
  obtain ⟨ns, hns, hlays₁⟩ := c.lays_skipNewlines hi.ordered
  refine .skipNewlines (.eatMark (fun hk ↦ ?_) ?_)
  · have hcomma := Cursor.takes hlays₁.ordered hk ⟨nofun, nofun⟩
    obtain ⟨ms, hms, hlays₂⟩ := Cursor.lays_skipNewlines hcomma.ordered
    refine .skipNewlines (.pure (hm _ ⟨_, .comma hopened hns hms, ?_⟩))
    exact hlays.trans (hi.trans (hlays₁.trans (hcomma.lays.trans hlays₂)))
  · exact .pure (hd _ ⟨_, .last hopened hns, hlays.trans (hi.trans hlays₁)⟩)

theorem solid_of_literalOf {k : Token.Kind} {v : Literal} (h : literalOf k = some v) : Solid k := by
  constructor <;> (rintro rfl; cases h)

theorem solid_of_negatedLiteral {k : Token.Kind} {v : Literal} (h : negatedLiteral k = some v) :
    Solid k := by
  constructor <;> (rintro rfl; cases h)

def ReadsPattern (pattern : Parse Pattern) : Prop :=
  ∀ c, Ordered c.rest → Gives c pattern fun p c' ↦ c.Lays [.pattern p] c'

theorem listPattern_gives {pattern : Parse Pattern} (hp : ReadsPattern pattern)
    (ho : Ordered c.rest) (hk : c.kind = .mark .lBracket) :
    Gives c (listPattern pattern) fun p c' ↦ c.Lays [.pattern p] c' := by
  have hopen := c.takes ho hk ⟨nofun, nofun⟩
  let parts (items : List Pattern) : List (List Part) := items.reverse.map ([.pattern ·])
  have parts_cons (p : Pattern) (items : List Pattern) :
      parts (p :: items) = parts items ++ [[.pattern p]] := by simp [parts]
  refine .advance (.skipNewlines (.bind (P := fun items c' ↦ c.next.Lists (parts items) c') ?_ ?_))
  · refine .iterate (fun items c' ↦ c.next.Opens (parts items) c') (fun items c₁ hitems ↦ ?_)
      (opens_skipNewlines hopen.ordered)
    refine .atMark (fun _ ↦ .pure hitems.lists)
      (.atMark (fun hstar ↦ .ite (fun _ ↦ .unexpected) ?_) ?_)
    · refine fun _ ↦ .bind (splat_gives hitems.ordered hstar) fun p c₂ hp ↦ ?_
      exact comma_gives hitems hp (parts_cons p items) (fun _ h ↦ h) fun _ h ↦ h
    · refine .bind (hp c₁ hitems.ordered) fun p c₂ hp ↦ ?_
      exact comma_gives hitems hp (parts_cons p items) (fun _ h ↦ h) fun _ h ↦ h
  · rintro items c₁ ⟨ps, hlisted, hlays⟩
    refine .bind (expect_gives _ hlays.ordered) fun close c₂ hclose ↦ .pure ?_
    refine (hopen.lays.trans (hlays.trans hclose.lays)).node (.listPattern hlisted) ?_
    exact hopen.spans.merge hlays.moves hclose.spans

theorem patternWith_gives {pattern : Parse Pattern} (hp : ReadsPattern pattern) :
    ReadsPattern (patternWith pattern) := by
  intro c ho
  refine .kind (.span ?_)
  split
  · rename_i name hk
    have hname := c.takes ho hk ⟨nofun, nofun⟩
    have hident : c.Lays [.ident ⟨name, c.span⟩] c.next := hname.lays.node .identifier hname.spans
    refine .advance (.eatMark (fun hcolon ↦ ?_) (.ite (fun h ↦ ?_) fun h ↦ ?_))
    · have hcolon := Cursor.takes hname.ordered hcolon ⟨nofun, nofun⟩
      refine .bind (typePath_gives hcolon.ordered) fun path c₁ hpath ↦ .pure ?_
      refine (hident.trans (hcolon.lays.trans hpath)).node .typed ?_
      exact hname.spans.merge hcolon.lays.moves hpath.spans
    · rw [eq_of_beq h] at hname
      exact .pure (hname.lays.node .wildcard hname.spans)
    · exact .pure (hident.node (.bind (ne_of_beq_false h)) hname.spans)
  · exact .bind (typePath_gives ho) fun path c₁ hpath ↦ .pure (hpath.node .const hpath.spans)
  · rename_i hk
    have hminus := c.takes ho hk ⟨nofun, nofun⟩
    refine .advance (.kind ?_)
    split
    · rename_i number hnumber
      have hdigits := Cursor.takes hminus.ordered rfl (solid_of_negatedLiteral hnumber)
      refine .advance (.pure ?_)
      refine (hminus.lays.trans hdigits.lays).node (.negatedPattern hnumber) ?_
      exact hminus.spans.merge_next hdigits.spans
    · exact .unexpected
  · exact listPattern_gives hp ho ‹_›
  · exact .failAt
  · split
    · rename_i value hvalue
      have hliteral := c.takes ho rfl (solid_of_literalOf hvalue)
      exact .advance (.pure (hliteral.lays.node (.literalPattern hvalue) hliteral.spans))
    · exact .unexpected

theorem pattern_gives : ReadsPattern pattern := by
  have upTo (n : Nat) : ReadsPattern (patternUpTo n) := by
    induction n with
    | zero => exact fun _ _ ↦ .unexpected
    | succ n ih => exact patternWith_gives ih
  exact fun c ho ↦ .get (upTo _ c ho)

theorem paramItems_item (p : Params) (q : Pattern) (h : p.block = none) :
    paramItems { p with items := p.items ++ [q] } = paramItems p ++ [[.pattern q]] := by
  simp [paramItems, h]

theorem paramItems_block (p : Params) (i : Ident) (h : p.block = none) :
    paramItems { p with block := some i } = paramItems p ++ [[.mark .amp, .ident i]] := by
  simp [paramItems, h]

theorem paramList_gives (closing : Mark) (ho : Ordered c.rest) :
    Gives c (paramList closing) fun p c' ↦ c.Lists (paramItems p) c' := by
  refine .skipNewlines (.iterate (fun p c' ↦ c.Opens (paramItems p) c') (fun p c₁ hp ↦ ?_)
    (opens_skipNewlines ho))
  refine .atMark (fun _ ↦ .pure hp.lists) (.ite (fun _ ↦ .unexpected) fun hblock ↦ ?_)
  have hnone : p.block = none := by simpa using hblock
  refine .eatMark (fun hamp ↦ ?_) (.atMark (fun hstar ↦ .ite (fun _ ↦ .unexpected) fun _ ↦ ?_) ?_)
  · have hamp := c₁.takes hp.ordered hamp ⟨nofun, nofun⟩
    refine .bind (identifier_gives hamp.ordered) fun i c₂ hi ↦ ?_
    exact comma_gives hp (hamp.lays.trans hi.ident) (paramItems_block p i hnone) (fun _ h ↦ h)
      fun _ h ↦ h
  · refine .bind (splat_gives hp.ordered hstar) fun q c₂ hq ↦ ?_
    exact comma_gives hp hq (paramItems_item p q hnone) (fun _ h ↦ h) fun _ h ↦ h
  · refine .bind (pattern_gives c₁ hp.ordered) fun q c₂ hq ↦ ?_
    exact comma_gives hp hq (paramItems_item p q hnone) (fun _ h ↦ h) fun _ h ↦ h

end Quill.Grammar
