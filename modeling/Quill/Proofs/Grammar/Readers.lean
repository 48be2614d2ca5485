import Quill.Proofs.Grammar.Agreement

/-!
# The grammar reads the same

Each parser of the grammar agrees with itself, whatever looks alike in what it reads and in what it
was given. The spans decide in one place only, where a minus may touch a number.
-/

namespace Quill.Grammar

open Parse

variable {v : View} {k : Nat} {pre : Token.Kind → Prop}

/-! ## Patterns -/

theorem isSplat_pattern (p : Pattern) : (v.pattern p).isSplat = p.isSplat := by
  cases p <;> rfl

theorem any_isSplat {ps qs : List Pattern} (h : ps.map v.pattern = qs.map v.pattern) :
    ps.any (·.isSplat) = qs.any (·.isSplat) := by
  have hany := congrArg (List.any · Pattern.isSplat) h
  simpa only [List.any_map, Function.comp_def, isSplat_pattern] using hany

theorem span_of_pattern {p q : Pattern} (h : v.pattern p = v.pattern q) :
    v.span p.span = v.span q.span := by
  have sees (p : Pattern) : (v.pattern p).span = v.span p.span := by
    cases p with
    | bind name type =>
      cases type with
      | none => rfl
      | some path => exact (v.span_merge _ _).symm
    | _ => rfl
  rw [← sees, h, sees]

theorem typePath_agrees :
    Agrees v k pre (fun _ ↦ True) (v.path · = v.path ·) typePath typePath := by
  have step (k : Nat) (p q : TypePath) (hpq : v.path p = v.path q) :
      Steps v k False (v.path · = v.path ·) (v.path · = v.path ·) (typePathStep p)
        (typePathStep q) := by
    refine .bind_get fun c d h _ ↦ .bind_get fun c' d' h' hc ↦ ?_
    rw [← h.kind]
    by_cases heof : c.kind = .eof
    · rw [heof]
      exact .pure (.inr hpq) id
    · rw [← h'.second (hc ▸ heof)]
      split
      · refine .reading (.advance fun h ↦ heof (hc ▸ h).symm) fun j _ _ _ _ ↦
          .bind (Agrees.constantName.still) fun i i' hi ↦ .pure (.inl ?_) id
        obtain ⟨hsegments, hspan⟩ := TypePath.mk.inj hpq
        have hi' := (Ident.mk.inj hi).2
        simp only [View.path, List.map_append, List.map_cons, List.map_nil, v.span_merge,
          hsegments, hspan, hi, hi']
      · exact .pure (.inr hpq) id
  refine .reading .constantName fun j _ i i' hi ↦ .iterate (step j) ?_
  simp only [View.path, List.map_cons, List.map_nil, hi, (Ident.mk.inj hi).2]

theorem splat_agrees (hp : ¬ pre .eof) :
    Agrees v k pre (fun _ ↦ True) (v.pattern · = v.pattern ·) splat splat := by
  refine .reading (.advance hp) fun j _ star star' hs ↦ .bind_kind fun t _ ↦ ?_
  split
  · refine .bind Agrees.identifier.still fun i i' hi ↦ .pure ?_ id
    obtain ⟨hname, hspan⟩ := Ident.mk.inj hi
    rw [View.pattern, View.pattern, ← hname, v.span_merge, v.span_merge, hs, hspan]
    split
    · rfl
    · simp only [Option.map_some, hi]
  · refine .pure ?_ id
    rw [View.pattern, View.pattern, hs]

theorem comma_agrees {α β : Type} {V : α → α → Prop} {W : β → β → Prop} {more more' : α}
    {done done' : β} (hm : V more more') (hd : W done done') :
    Agrees v k pre (fun _ ↦ False) (Sum.LiftRel V W) (comma more done) (comma more' done') :=
  .bind .skipNewlines fun _ _ _ ↦ .eatMark_ite
    (fun _ _ ↦ .bind .skipNewlines fun _ _ _ ↦ .pure (.inl hm) id) (.pure (.inr hd) id)

theorem listPattern_agrees {pattern pattern' : Parse Pattern}
    (hn : ∀ j, j < k → Agrees v j (fun _ ↦ True) (fun _ ↦ True) (v.pattern · = v.pattern ·)
      pattern pattern') (hp : ¬ pre .eof) :
    Agrees v k pre (fun _ ↦ True) (v.pattern · = v.pattern ·) (listPattern pattern)
      (listPattern pattern') := by
  refine .reading (.advance hp) fun j hj start start' hs ↦ .bind .skipNewlines fun _ _ _ ↦ ?_
  have step (ps qs : List Pattern) (hpq : ps.map v.pattern = qs.map v.pattern) :
      Steps v j False (List.map v.pattern · = List.map v.pattern ·)
        (List.map v.pattern · = List.map v.pattern ·) (listPatternStep pattern ps)
        (listPatternStep pattern' qs) := by
    have hcons {p q : Pattern} (h : v.pattern p = v.pattern q) :
        (p :: ps).map v.pattern = (q :: qs).map v.pattern := by
      rw [List.map_cons, List.map_cons, h, hpq]
    refine .atMark_ite (.pure (.inr hpq) id) (.atMark_ite ?_ ?_)
    · rw [any_isSplat hpq]
      exact .ite (fun _ ↦ .unexpected nofun) fun _ ↦ .reading (splat_agrees fun h ↦ h.2 rfl)
        fun _ _ p q h ↦ comma_agrees (hcons h) (hcons h)
    · exact .reading (hn j hj) fun _ _ p q h ↦ comma_agrees (hcons h) (hcons h)
  refine .bind (.iterate step rfl) fun ps qs hpq ↦
    .bind (Agrees.expect _).still fun close close' hc ↦ .pure ?_ id
  simp only [View.pattern, v.patterns_eq_map, List.map_reverse, hpq, v.span_merge, hs, hc]

theorem patternWith_agrees {pattern pattern' : Parse Pattern}
    (hn : ∀ j, j < k → Agrees v j (fun _ ↦ True) (fun _ ↦ True) (v.pattern · = v.pattern ·)
      pattern pattern') :
    Agrees v k pre (fun _ ↦ True) (v.pattern · = v.pattern ·) (patternWith pattern)
      (patternWith pattern') := by
  refine .bind_kind fun _ _ ↦ .bind_span fun s s' ↦ .of_kind fun t ht ↦ ?_
  obtain ⟨rfl, hs⟩ := ht
  split
  · have hs := hs nofun
    refine .reading (.advance nofun) fun j _ _ _ _ ↦ .eatMark_ite (fun _ _ ↦ ?_) (.ite ?_ ?_)
    · refine .bind typePath_agrees.still fun p q hpq ↦ .pure ?_ id
      simp only [View.pattern, View.ident, hs, Option.map_some, hpq]
    · exact fun _ ↦ .pure (congrArg Pattern.wildcard hs) id
    · refine fun _ ↦ .pure ?_ id
      simp only [View.pattern, View.ident, hs, Option.map_none]
  · refine .reading typePath_agrees fun j _ p q hpq ↦ .pure ?_ id
    rw [View.pattern, View.pattern, hpq]
  · have hs := hs nofun
    refine .reading (.advance nofun) fun j _ _ _ _ ↦ .bind_kind fun t _ ↦ ?_
    split
    · rename_i number ht
      refine .bind (Agrees.advance fun heof ↦ ?_).still fun r r' hr ↦ .pure ?_ id
      · rw [← heof] at ht
        cases ht
      · simp only [View.pattern, v.span_merge, hs, hr]
    · exact .unexpected nofun
  · exact listPattern_agrees hn nofun
  · exact .failAt _ _ nofun
  · split
    · rename_i value ht
      have heof : ¬ Token.Kind.eof = t := fun heof ↦ by
        rw [← heof] at ht
        cases ht
      refine .reading (.advance heof) fun j _ _ _ _ ↦ .pure ?_ id
      simp only [View.pattern, hs fun h ↦ heof h.symm]
    · exact .unexpected nofun

theorem patternUpTo_agrees {n m : Nat} (hn : k < n) (hm : k < m) :
    Agrees v k pre (fun _ ↦ True) (v.pattern · = v.pattern ·) (patternUpTo n)
      (patternUpTo m) := by
  induction k using Nat.strongRecOn generalizing n m pre with
  | ind k ih =>
    obtain ⟨n, rfl⟩ : ∃ i, n = i + 1 := ⟨n - 1, by omega⟩
    obtain ⟨m, rfl⟩ : ∃ i, m = i + 1 := ⟨m - 1, by omega⟩
    exact patternWith_agrees fun j hj ↦ ih j hj (by omega) (by omega)

theorem pattern_agrees :
    Agrees v k pre (fun _ ↦ True) (v.pattern · = v.pattern ·) pattern pattern := fun c d h _ hp ↦
  patternUpTo_agrees h.unread_lt h.unread_lt' c d h (Nat.le_refl _) hp

theorem isVariadic_params {p q : Params} (h : v.params p = v.params q) :
    p.isVariadic = q.isVariadic := by
  have hitems := (Params.mk.inj h).1
  rw [v.patterns_eq_map, v.patterns_eq_map] at hitems
  exact any_isSplat hitems

theorem paramList_agrees (closing : Mark) :
    Agrees v k pre (fun _ ↦ False) (v.params · = v.params ·) (paramList closing)
      (paramList closing) := by
  have step (p q : Params) (hpq : v.params p = v.params q) :
      Steps v k False (v.params · = v.params ·) (v.params · = v.params ·) (paramStep closing p)
        (paramStep closing q) := by
    obtain ⟨hitems, hblock⟩ := Params.mk.inj hpq
    have hsome : p.block.isSome = q.block.isSome := by
      rw [← Option.isSome_map (f := v.ident), hblock, Option.isSome_map]
    have hadd {r r' : Pattern} (h : v.pattern r = v.pattern r') :
        v.params { p with items := p.items ++ [r] } =
          v.params { q with items := q.items ++ [r'] } := by
      rw [v.patterns_eq_map, v.patterns_eq_map] at hitems
      simp only [View.params, v.patterns_eq_map, List.map_append, List.map_cons, List.map_nil,
        hitems, hblock, h]
    refine .atMark_ite (.pure (.inr hpq) id) ?_
    rw [hsome]
    refine .ite (fun _ ↦ .unexpected (by simp)) fun _ ↦ .eatMark_ite (fun _ _ ↦ ?_) ?_
    · refine .bind Agrees.identifier.still fun i i' hi ↦ comma_agrees ?_ ?_ <;>
        simp only [View.params, hitems, Option.map_some, hi]
    · refine .atMark_ite ?_ (.reading pattern_agrees fun _ _ r r' h ↦
        comma_agrees (hadd h) (hadd h))
      rw [isVariadic_params hpq]
      exact .ite (fun _ ↦ .unexpected (by simp)) fun _ ↦ .reading (splat_agrees fun h ↦ h.2 rfl)
        fun _ _ r r' h ↦ comma_agrees (hadd h) (hadd h)
  exact .bind .skipNewlines fun _ _ _ ↦ .iterate step rfl

/-! ## Calls -/

/-- Parsers for what is nested inside that agree up to `k` tokens. -/
structure NestedAgrees (v : View) (k : Nat) (nested nested' : Nested) : Prop where
  expression : Agrees v k (fun _ ↦ True) (fun _ ↦ True) (v.expr · = v.expr ·)
    (nested .expression) (nested' .expression)
  operand : Agrees v k (fun _ ↦ True) (fun _ ↦ True) (v.expr · = v.expr ·)
    (nested .operand) (nested' .operand)

theorem NestedAgrees.fewer {j : Nat} {nested nested' : Nested} (h : NestedAgrees v k nested nested')
    (hj : j ≤ k) : NestedAgrees v j nested nested' :=
  ⟨h.expression.fewer hj, h.operand.fewer hj⟩

def View.arguments (v : View) (a : Arguments) : Arguments := ⟨v.exprs a.args, v.blockArg? a.block⟩

theorem exprs_reverse {es es' : List Expr} (h : v.exprs es = v.exprs es') :
    v.exprs es.reverse = v.exprs es'.reverse := by
  rw [v.exprs_eq_map, v.exprs_eq_map] at h
  rw [v.exprs_eq_map, v.exprs_eq_map, List.map_reverse, List.map_reverse, h]

section

variable {nested nested' : Nested} (hn : NestedAgrees v k nested nested')

include hn

theorem statementStep_agrees {es es' : List Expr} (h : v.exprs es = v.exprs es') :
    Steps v k False (v.exprs · = v.exprs ·) (v.exprs · = v.exprs ·) (statementStep nested es)
      (statementStep nested' es') := by
  refine .bind .skipSeparators fun _ _ _ ↦ .bind_kind fun t _ ↦
    .ite (fun _ ↦ .pure (.inr h) id) fun _ ↦ .reading hn.expression.weaken
      fun _ _ e e' he ↦ .bind_kind fun t _ ↦ .ite (fun _ ↦ .pure (.inl ?_) id)
        fun _ ↦ .unexpected nofun
  rw [View.exprs, View.exprs, he, h]

theorem statements_agrees :
    Agrees v k pre (fun _ ↦ False) (v.exprs · = v.exprs ·) (statements nested)
      (statements nested') :=
  .bind (.iterate (fun _ _ ↦ statementStep_agrees hn) rfl) fun _ _ h ↦ .pure (exprs_reverse h) id

theorem arguments_agrees (closing : Mark) :
    Agrees v k pre (fun _ ↦ False) (v.arguments · = v.arguments ·) (arguments nested closing)
      (arguments nested' closing) := by
  have step (a b : Arguments) (h : v.arguments a = v.arguments b) :
      Steps v k False (v.arguments · = v.arguments ·) (v.arguments · = v.arguments ·)
        (argumentStep nested closing a) (argumentStep nested' closing b) := by
    obtain ⟨hargs, hblock⟩ := Arguments.mk.inj h
    have hsome : a.block.isSome = b.block.isSome := by
      cases ha : a.block <;> cases hb : b.block <;> rw [ha, hb] at hblock <;>
        first | rfl | simp only [View.blockArg?, reduceCtorEq] at hblock
    refine .atMark_ite (.pure (.inr h) id) ?_
    rw [hsome]
    refine .ite (fun _ ↦ .unexpected nofun) fun _ ↦ .eatMark_ite (fun j hj ↦ ?_) ?_
    · refine .bind (hn.expression.fewer (Nat.le_of_lt hj)).still fun e e' he ↦
        comma_agrees ?_ ?_ <;>
        simp only [View.arguments, hargs, View.blockArg?, View.blockArg, he]
    · refine .reading hn.expression.weaken fun j _ e e' he ↦ comma_agrees ?_ ?_ <;>
        simp only [View.arguments, View.exprs, hargs, hblock, he]
  refine .bind .skipNewlines fun _ _ _ ↦ .bind (.iterate step rfl) fun a b h ↦
    .bind (Agrees.expect _).still fun _ _ _ ↦ .pure ?_ id
  obtain ⟨hargs, hblock⟩ := Arguments.mk.inj h
  simp only [View.arguments, exprs_reverse hargs, hblock]

theorem plainArguments_agrees (closing : Mark) (expected : Expected) (place place' : Span)
    (he : expected ≠ .progress) :
    Agrees v k pre (fun _ ↦ False) (v.exprs · = v.exprs ·)
      (plainArguments nested closing expected place)
      (plainArguments nested' closing expected place') := by
  refine .bind (arguments_agrees hn closing) fun a b h ↦ ?_
  obtain ⟨hargs, hblock⟩ := Arguments.mk.inj h
  cases ha : a.block <;> cases hb : b.block <;> rw [ha, hb] at hblock
  · exact .pure hargs id
  · simp only [View.blockArg?, reduceCtorEq] at hblock
  · simp only [View.blockArg?, reduceCtorEq] at hblock
  · exact .failAt _ _ he

omit hn in
theorem block_agrees (hn : ∀ j, j < k → NestedAgrees v j nested nested') (hp : ¬ pre .eof) :
    Agrees v k pre (fun _ ↦ True) (v.block · = v.block ·) (block nested) (block nested') := by
  have params (j : Nat) : Agrees v j (fun _ ↦ True) (fun _ ↦ False) (v.params · = v.params ·)
      blockParams blockParams :=
    .eatMark_ite (fun _ _ ↦ .pure rfl id) <| .eatMark_ite
      (fun _ _ ↦ .bind (paramList_agrees _) fun _ _ h ↦
        .bind (Agrees.expect _).still fun _ _ _ ↦ .pure h id) (.pure rfl id)
  refine .bind_atMark fun braced ↦ .reading (.advance hp) fun j hj start start' hs ↦
    .bind (params j) fun ps ps' hps ↦
      .bind (statements_agrees (hn j hj)) fun es es' hes ↦
        .join (Agrees.expect _).still (Agrees.endOf _).still fun close close' hc ↦ .pure ?_ id
  simp only [View.block, v.span_merge, hps, hes, hs, hc]

theorem callSuffix_agrees :
    Agrees v k pre (fun _ ↦ False) (v.arguments · = v.arguments ·) (callSuffix nested)
      (callSuffix nested') := by
  refine .bind (.eat rfl) ?_
  rintro parens _ rfl
  refine .join (arguments_agrees hn _) (.pure rfl id) fun a b h ↦ .bind_kind fun t _ ↦
    .ite (fun ht ↦ ?_) fun _ ↦ .pure h id
  have heof : ¬ Token.Kind.eof = t := fun heof ↦ by
    rw [← heof] at ht
    cases ht
  refine .bind_span fun _ _ ↦ .bind (block_agrees (fun j hj ↦ hn.fewer (Nat.le_of_lt hj))
    fun h ↦ heof h.1).still fun l l' hl ↦ ?_
  obtain ⟨hargs, hblock⟩ := Arguments.mk.inj h
  cases ha : a.block <;> cases hb : b.block <;> rw [ha, hb] at hblock
  · refine .pure ?_ id
    simp only [View.arguments, hargs, View.blockArg?, View.blockArg, hl]
  · simp only [View.blockArg?, reduceCtorEq] at hblock
  · simp only [View.blockArg?, reduceCtorEq] at hblock
  · exact .failAt _ _ nofun

end

theorem twoTokens_agrees (text : String) {c d : Cursor} (h : c.Alike v d) (hc : c.kind ≠ .eof)
    (hs : c.second ≠ .eof) :
    SameEnd (Onward v c (fun _ ↦ True) (v.ident · = v.ident ·))
      ((do
        let start ← advance
        return ⟨text, start.merge (← advance)⟩ : Parse Ident) c)
      ((do
        let start ← advance
        return ⟨text, start.merge (← advance)⟩ : Parse Ident) d) := by
  rw [← c.next_kind] at hs
  have hspan := h.span hc
  have hspan' := (h.next hc).span hs
  refine .ok ⟨?_, (h.next hc).next hs, (Cursor.Advances.next hc).trans (.next hs),
    fun _ ↦ Nat.lt_trans (Cursor.next_lt hs) (Cursor.next_lt hc)⟩
  simp only [View.ident, v.span_merge, hspan, hspan']

theorem methodName_agrees :
    Agrees v k pre (fun _ ↦ True) (v.ident · = v.ident ·) methodName methodName := by
  have one (text : String) {t : Token.Kind} (ht : ¬ Token.Kind.eof = t) :
      Agrees v k (· = t) (fun _ ↦ True) (v.ident · = v.ident ·)
        (do return ⟨text, ← advance⟩) (do return ⟨text, ← advance⟩) :=
    .reading (.advance ht) fun _ _ s s' hs ↦ .pure (congrArg (Ident.mk text) hs) id
  refine .bind_kind fun t _ ↦ ?_
  split
  · exact one _ (by simp)
  · exact one _ (by simp)
  · exact one _ (by simp)
  · intro c d h _ hc
    rw [Agrees.get_bind, Agrees.get_bind, ← h.second (by simp [hc])]
    generalize hs : c.second = t
    split
    · exact twoTokens_agrees _ h (by simp [hc]) (by simp [hs])
    · exact .error rfl (congrArg Found.token h.kind) nofun
  · exact .ite (fun _ ↦ one _ (by simp)) fun _ ↦ .unexpected nofun
  · exact .unexpected nofun

theorem definedName_agrees :
    Agrees v k pre (fun _ ↦ True) (v.ident · = v.ident ·) definedName definedName := by
  intro c d h hk _
  rw [definedName, Agrees.get_bind, Agrees.get_bind, ← h.kind]
  have named : SameEnd (Onward v c (fun _ ↦ True) (v.ident · = v.ident ·)) (methodName c)
      (methodName d) :=
    (methodName_agrees : Agrees v k (fun _ ↦ True) _ _ _ _) c d h hk trivial
  -- What is behind the end of the file is looked at in no case.
  by_cases hkind : c.kind = .eof
  · rw [hkind]
    exact named
  rw [← h.second hkind]
  by_cases hsecond : c.second = .eof
  · rw [hsecond]
    cases c.kind with
    | mark m => cases m <;> exact named
    | _ => exact named
  rw [← h.third hkind hsecond]
  rw [← c.next_kind] at hsecond
  generalize hfirst : c.kind = t, hs : c.second = t', hthird : c.third = t''
  split
  · exact twoTokens_agrees _ h hkind (by rwa [← c.next_kind])
  · rw [← c.next_second, ← c.next.next_kind] at hthird
    have hthird : c.next.next.kind ≠ .eof := by simp [hthird]
    have hnext := (h.next hkind).next hsecond
    have hspan := h.span hkind
    have hspan' := hnext.span hthird
    have hadvances := (Cursor.Advances.next hkind).trans (.next hsecond)
    refine .ok ⟨?_, hnext.next hthird, hadvances.trans (.next hthird), fun _ ↦ ?_⟩
    · simp only [View.ident, v.span_merge, hspan, hspan']
    · exact Nat.lt_of_lt_of_le (Cursor.next_lt hthird) hadvances.le
  · exact named

/-! ## Operators -/

theorem span_of_expr {e e' : Expr} (h : v.expr e = v.expr e') : v.span e.span = v.span e'.span := by
  rw [← v.span_expr, h, v.span_expr]

section

variable {nested nested' : Nested} (hn : ∀ j, j < k → NestedAgrees v j nested nested')

include hn

theorem postfixOps_agrees {e e' : Expr} (he : v.expr e = v.expr e') :
    Agrees v k pre (fun _ ↦ False) (v.expr · = v.expr ·) (postfixOps nested e)
      (postfixOps nested' e') := by
  refine .iterate (V := (v.expr · = v.expr ·)) (fun e e' he ↦ .bind_kind fun t _ ↦ ?_) he
  have hspan := span_of_expr he
  split
  · refine .reading (.advance nofun) fun j hj _ _ _ ↦ .bind .skipNewlines fun _ _ _ ↦
      .bind methodName_agrees.still fun m m' hm ↦ .bind (callSuffix_agrees (hn j hj)) fun a b h ↦
        .bind_previous fun s s' hs ↦ .pure (.inl ?_) id
    obtain ⟨hargs, hblock⟩ := Arguments.mk.inj h
    simp only [View.expr, View.kind, View.expr?, v.span_merge, he, hspan, hm, hargs, hblock, hs]
  · refine .reading (.advance nofun) fun j hj here here' hh ↦
      .bind (plainArguments_agrees (hn j hj) _ _ _ _ nofun) fun es es' hes ↦
        .bind_previous fun s s' hs ↦ .pure (.inl ?_) id
    simp only [View.expr, View.kind, View.expr?, View.ident, View.blockArg?, v.span_merge, he,
      hspan, hh, hes, hs]
  · refine .bind_get fun c d h hc ↦ ?_
    rw [chainContinues_eq c, chainContinues_eq d, ← h.skipNewlines.kind]
    exact .ite (fun _ ↦ .reading (.skipNewline fun t ht ↦ ht.trans hc)
      fun _ _ _ _ _ ↦ .pure (.inl he) id) fun _ ↦ .pure (.inr he) id
  · exact .pure (.inr he) id

omit hn in
theorem underPrefixes_alike {e e' : Expr} {ops ops' : List (PrefixOp × Span)}
    (he : v.expr e = v.expr e')
    (ho : ops.map (Prod.map id v.span) = ops'.map (Prod.map id v.span)) :
    v.expr (underPrefixes e ops) = v.expr (underPrefixes e' ops') := by
  have sees (e : Expr) (ops : List (PrefixOp × Span)) :
      v.expr (underPrefixes e ops) = underPrefixes (v.expr e) (ops.map (Prod.map id v.span)) := by
    induction ops generalizing e with
    | nil => rfl
    | cons op ops ih =>
      refine (ih _).trans ?_
      rw [View.expr, View.kind, v.span_merge, ← v.span_expr]
      rfl
  rw [sees, sees, he, ho]

theorem unary_agrees (ho : Agrees v k (fun _ ↦ True) (fun _ ↦ True) (v.expr · = v.expr ·)
    (nested .operand) (nested' .operand)) :
    Agrees v k pre (fun _ ↦ True) (v.expr · = v.expr ·) (unary nested) (unary nested') := by
  refine .iterate (V := (List.map (Prod.map id v.span) · = List.map (Prod.map id v.span) ·))
    (fun ops ops' hops ↦ .bind_kind fun t _ ↦ ?_) rfl
  split
  · exact .reading ho.weaken fun _ _ e e' he ↦ .pure (.inr (underPrefixes_alike he hops)) id
  · rename_i op hop
    intro c d h hk hc
    subst hc
    have heof : c.kind ≠ .eof := fun heof ↦ by
      rw [heof] at hop
      cases hop
    have hlt := Cursor.next_lt heof
    have hspan := h.span heof
    simp only [Agrees.advance_bind, Agrees.get_bind]
    rw [← h.touchingNumber hop]
    generalize htouch : touchingNumber op c.span c.next = literal
    cases literal with
    | none =>
      refine .ok ⟨.inl ?_, h.next heof, .next heof, fun _ ↦ hlt⟩
      simp only [List.map_cons, Prod.map_apply, hspan, hops]
    | some number =>
      have hnumber : ¬ Token.Kind.eof = c.next.kind := fun heof ↦ by
        cases op with
        | not => cases htouch
        | neg =>
          rw [touchingNumber, ← heof] at htouch
          change (if _ then none else none) = _ at htouch
          rw [ite_self] at htouch
          cases htouch
      refine Agrees.at_next (.bind (Agrees.advance hnumber).still fun s s' hs ↦
        .bind (postfixOps_agrees (fun j hj ↦ hn j (by omega)) ?_) fun e e' he ↦
          .pure (.inr (underPrefixes_alike he hops)) id) h heof
      simp only [View.expr, View.kind, v.span_merge, hspan, hs]

end

theorem join_alike (op : Infix) {l l' r r' : Expr} (hl : v.expr l = v.expr l')
    (hr : v.expr r = v.expr r') : v.expr (op.join l r) = v.expr (op.join l' r') := by
  have hspan := span_of_expr hl
  have hspan' := span_of_expr hr
  cases op with
  | fits => exact hl
  | _ => simp only [Infix.join, View.expr, View.kind, v.span_merge, hl, hr, hspan, hspan']

theorem infixFrom_agrees {nested nested' : Nested} (n floor : Nat)
    (hn : ∀ j, j < k → NestedAgrees v j nested nested')
    (ho : Agrees v k (fun _ ↦ True) (fun _ ↦ True) (v.expr · = v.expr ·) (nested .operand)
      (nested' .operand)) :
    Agrees v k pre (fun _ ↦ True) (v.expr · = v.expr ·) (infixFrom nested n floor)
      (infixFrom nested' n floor) := by
  induction n generalizing floor k pre with
  | zero => exact unary_agrees hn ho
  | succ n ih =>
    refine .reading (unary_agrees hn ho) fun j hj e e' he ↦ .iterate
      (V := fun l l' ↦ v.expr l.expr = v.expr l'.expr ∧ l.level = l'.level)
      (fun l l' hl ↦ .bind_kind fun t _ ↦ ?_) ⟨he, rfl⟩
    obtain ⟨hl, hlevel⟩ := hl
    have hspan := span_of_expr hl
    split
    · exact .pure (.inr hl) id
    · rename_i op hop
      rw [hlevel]
      refine .ite (fun _ ↦ .pure (.inr hl) id) fun _ ↦ .reading (.advance fun heof ↦ ?_)
        fun i hi _ _ _ ↦ .bind .skipNewlines fun _ _ _ ↦ ?_
      · rw [← heof] at hop
        cases hop
      · have hright (f : Nat) : Agrees v i (fun _ ↦ True) (fun _ ↦ True) (v.expr · = v.expr ·)
            (infixFrom nested n f) (infixFrom nested' n f) :=
          ih f (fun i' hi' ↦ hn i' (by omega)) (hn i (by omega)).operand
        split
        · refine .bind pattern_agrees.still fun p q hpq ↦ .pure (.inl ⟨?_, rfl⟩) id
          have hspan' := span_of_pattern hpq
          simp only [View.expr, View.kind, v.span_merge, hl, hspan, hpq, hspan']
        · refine .bind (hright _).still fun r r' hr ↦ ?_
          have he := join_alike op hl hr
          dsimp only
          split
          · refine .bind_kind fun t _ ↦ ?_
            split
            · exact .unexpected nofun
            · exact .pure (.inl ⟨he, rfl⟩) id
          · exact .pure (.inl ⟨he, rfl⟩) id

/-! ## Assignment -/

theorem target_seen (v : View) (e : Expr) :
    (∃ t, target e = pure t ∧ target (v.expr e) = pure (v.target t)) ∨
      ∃ f, target e = failAt .assignable f e.span ∧
        target (v.expr e) = failAt .assignable f (v.expr e).span := by
  obtain ⟨kind, s⟩ := e
  rw [View.expr]
  cases kind
  case name n => exact .inl ⟨_, rfl, rfl⟩
  case attr n => exact .inl ⟨_, rfl, rfl⟩
  case constant n => exact .inl ⟨_, rfl, rfl⟩
  case call receiver method args block =>
    cases receiver with
    | none => exact .inr ⟨_, rfl, rfl⟩
    | some r =>
      cases block with
      | some b => exact .inr ⟨_, rfl, rfl⟩
      | none =>
        have hempty : (v.exprs args).isEmpty = args.isEmpty := by
          cases args <;> rfl
        simp only [View.kind, View.expr?, View.blockArg?, target, View.ident, hempty]
        split
        · exact .inl ⟨_, rfl, rfl⟩
        · split
          · exact .inl ⟨_, rfl, rfl⟩
          · exact .inr ⟨_, rfl, rfl⟩
  all_goals exact .inr ⟨_, rfl, rfl⟩

theorem target_agrees {e e' : Expr} (he : v.expr e = v.expr e') :
    Agrees v k pre (fun _ ↦ False) (v.target · = v.target ·) (target e) (target e') := by
  obtain ⟨t, ht, hs⟩ | ⟨f, ht, hs⟩ := target_seen v e <;>
    obtain ⟨t', ht', hs'⟩ | ⟨f', ht', hs'⟩ := target_seen v e' <;>
    rw [ht, ht'] <;> rw [he, hs'] at hs <;> have hs := congrFun hs default
  · exact .pure (congrArg Prod.fst (Except.ok.inj hs)).symm id
  · cases hs
  · cases hs
  · cases hs
    exact .failAt _ _ nofun

theorem kind_of_destructured {c c' : Cursor} {p : Pattern}
    (h : destructured c = .ok (some p, c')) : c'.kind = .mark .assign := by
  obtain ⟨_, _, -, hk, hd⟩ | ⟨-, -, -, -, hd⟩ | ⟨_, -, ⟨-, hd⟩ | ⟨-, hd⟩⟩ :=
    destructured_cases c <;> rw [hd] at h <;> cases h
  exact hk

theorem destructured_agrees :
    Agrees v k pre (fun p ↦ p.isSome = true) (Option.map v.pattern · = Option.map v.pattern ·)
      destructured destructured := by
  intro c d h hk hp
  have hpattern := pattern_agrees c d h hk hp
  unfold destructured
  generalize pattern c = rc, pattern d = rd at hpattern
  cases hpattern with
  | @error e f he hf hne =>
    dsimp only
    rw [← he]
    split
    · exact absurd ‹_› hne
    · exact .ok ⟨rfl, h, .refl, nofun⟩
  | @ok p q hpq =>
    dsimp only
    rw [← hpq.alike.kind]
    split
    · exact .ok ⟨by rw [Option.map_some, Option.map_some, hpq.result], hpq.alike, hpq.advances,
        fun _ ↦ hpq.lt trivial⟩
    · exact .ok ⟨rfl, h, .refl, nofun⟩

section

variable {nested nested' : Nested} (hn : ∀ j, j < k → NestedAgrees v j nested nested')
  (ho : Agrees v k (fun _ ↦ True) (fun _ ↦ True) (v.expr · = v.expr ·) (nested .operand)
    (nested' .operand))

include hn ho

theorem simpleAssignment_agrees :
    Agrees v k pre (fun _ ↦ True) (v.expr · = v.expr ·) (simpleAssignment nested)
      (simpleAssignment nested') := by
  refine .reading (infixFrom_agrees _ _ hn ho) fun j hj l l' hl ↦ .bind_kind fun t _ ↦ ?_
  have hspan := span_of_expr hl
  split
  · exact .pure hl id
  · rename_i op hop
    refine .bind (Agrees.advance fun heof ↦ ?_).still fun _ _ _ ↦ .bind .skipNewlines fun _ _ _ ↦
      .bind (target_agrees hl) fun t t' ht ↦ .bind (hn j hj).expression.still fun e e' he ↦ ?_
    · rw [← heof] at hop
      cases hop
    · have hspan' := span_of_expr he
      split <;> refine .pure ?_ id <;>
        simp only [View.expr, View.kind, v.span_merge, ht, he, hspan, hspan']

theorem expression_agrees :
    Agrees v k pre (fun _ ↦ True) (v.expr · = v.expr ·) (expression nested)
      (expression nested') := by
  refine .bind_span fun s s' ↦ .atMark_ite (fun c d h hk hc ↦ ?_) (simpleAssignment_agrees hn ho)
  obtain ⟨⟨-, hs⟩, heof⟩ := hc
  have hpattern : Agrees v k (fun _ ↦ True) _ _ destructured destructured := destructured_agrees
  refine Agrees.bind_of (hpattern c d h hk trivial) fun ⟨p, c'⟩ ⟨p', d'⟩ hread hpq ↦ ?_
  have hp := hpq.result
  cases p with
  | some p =>
    cases p' with
    | none => cases hp
    | some p' =>
      have hlt := hpq.lt rfl
      have hassign : c'.kind = .mark .assign := kind_of_destructured hread
      have hrest : Agrees v c'.unread.length (· = .mark .assign) (fun _ ↦ False)
          (v.expr · = v.expr ·)
          (do
            let value ← assigned nested
            return ⟨.destructure p value, s.merge value.span⟩)
          (do
            let value ← assigned nested'
            return ⟨.destructure p' value, s'.merge value.span⟩) := by
        refine .bind (.bind (Agrees.advance nofun).still fun _ _ _ ↦ .bind .skipNewlines
          fun _ _ _ ↦ (hn _ (Nat.lt_of_lt_of_le hlt hk)).expression.still) fun e e' he ↦ .pure ?_ id
        have hp := Option.some.inj hp
        simp only [View.expr, View.kind, v.span_merge, hs heof, hp, he, span_of_expr he]
      exact Onward.after (hrest c' d' hpq.alike (Nat.le_refl _) hassign) hpq.advances hlt
  | none =>
    cases p' with
    | some p' => cases hp
    | none =>
      have hsimple : Agrees v k (fun _ ↦ True) _ _ (simpleAssignment nested)
          (simpleAssignment nested') := simpleAssignment_agrees hn ho
      exact Onward.past (hsimple c' d' hpq.alike (Nat.le_trans hpq.le hk) trivial) hpq.advances

end

/-! ## Constructs -/

def View.branch (v : View) (b : Branch) : Branch :=
  ⟨v.span b.first, v.expr b.condition, v.exprs b.body⟩

theorem chain_alike {last last' : Span} {es es' : Option (List Expr)} {bs bs' : List Branch}
    (hl : v.span last = v.span last') (he : v.exprs? es = v.exprs? es')
    (hb : bs.map v.branch = bs'.map v.branch) :
    v.exprs? (chain last es bs) = v.exprs? (chain last' es' bs') := by
  have sees (last : Span) (es : Option (List Expr)) (bs : List Branch) :
      v.exprs? (chain last es bs) = chain (v.span last) (v.exprs? es) (bs.map v.branch) := by
    induction bs generalizing es with
    | nil => rfl
    | cons b bs ih =>
      refine (ih _).trans ?_
      simp only [View.exprs?, View.exprs, View.expr, View.kind, v.span_merge]
      rfl
  rw [sees, sees, hl, he, hb]

theorem rescuePattern_agrees :
    Agrees v k pre (fun _ ↦ False) (Option.map v.pattern · = Option.map v.pattern ·) rescuePattern
      rescuePattern :=
  .bind_kind fun _ _ ↦ .ite (fun _ ↦ .pure rfl id) fun _ ↦ .bind pattern_agrees.still
    fun p p' hp ↦ .pure (by rw [Option.map_some, Option.map_some, hp]) id

section

variable {nested nested' : Nested}

section

variable (hn : NestedAgrees v k nested nested')

include hn

theorem guard?_agrees :
    Agrees v k pre (fun _ ↦ False) (v.expr? · = v.expr? ·) (guard? nested) (guard? nested') :=
  .eatKeyword_ite (fun j hj ↦ .bind (hn.expression.fewer (Nat.le_of_lt hj)).still
    fun e e' he ↦ .pure (by rw [View.expr?, View.expr?, he]) id) (.pure rfl id)

theorem part?_agrees (word : Keyword) :
    Agrees v k pre (·.isSome = true) (v.exprs? · = v.exprs? ·) (part? nested word)
      (part? nested' word) :=
  .eatKeyword_ite (fun j hj ↦ .bind (statements_agrees (hn.fewer (Nat.le_of_lt hj)))
    fun es es' hes ↦ .pure (by rw [View.exprs?, View.exprs?, hes]) id) (.pure rfl nofun)

theorem armStep_agrees {as as' : List Arm} (h : v.arms as = v.arms as') :
    Steps v k False (v.arms · = v.arms ·) (v.arms · = v.arms ·) (armStep nested as)
      (armStep nested' as') := by
  refine .atKeyword_ite (.reading (.advance fun h ↦ h.2 rfl) fun i hi first first' hf ↦
    .bind pattern_agrees.still fun p p' hpp ↦
      .bind (guard?_agrees (hn.fewer (Nat.le_of_lt hi))) fun g g' hg ↦
        .bind .separator fun _ _ _ ↦
          .bind (statements_agrees (hn.fewer (Nat.le_of_lt hi))) fun es es' hes ↦
            .bind_previous fun last last' hl ↦ .pure (.inl ?_) id) (.pure (.inr h) id)
  simp only [View.arms, View.arm, v.span_merge, hf, hpp, hg, hes, hl, h]

theorem rescueStep_agrees {rs rs' : List Rescue} (h : v.rescues rs = v.rescues rs') :
    Steps v k False (v.rescues · = v.rescues ·) (v.rescues · = v.rescues ·)
      (rescueStep nested rs) (rescueStep nested' rs') := by
  refine .atKeyword_ite (.reading (.advance fun h ↦ h.2 rfl) fun i hi first first' hf ↦
    .bind rescuePattern_agrees fun p p' hpp ↦
      .bind (guard?_agrees (hn.fewer (Nat.le_of_lt hi))) fun g g' hg ↦
        .bind .separator fun _ _ _ ↦
          .bind (statements_agrees (hn.fewer (Nat.le_of_lt hi))) fun es es' hes ↦
            .bind_previous fun last last' hl ↦ .pure (.inl ?_) id) (.pure (.inr h) id)
  simp only [View.rescues, View.rescue, v.span_merge, hf, hpp, hg, hes, hl, h]

end

variable (hn : ∀ j, j < k → NestedAgrees v j nested nested')

include hn

theorem branch_agrees (hp : ¬ pre .eof) :
    Agrees v k pre (fun _ ↦ True) (v.branch · = v.branch ·) (branch nested) (branch nested') := by
  refine .reading (.advance hp) fun j hj start start' hs ↦ .bind (hn j hj).expression.still
    fun e e' he ↦ .bind .separator fun _ _ _ ↦ .bind (statements_agrees (hn j hj))
      fun es es' hes ↦ .pure ?_ id
  simp only [View.branch, hs, he, hes]

omit hn in
theorem branchStep_agrees (hn : NestedAgrees v k nested nested') {bs bs' : List Branch}
    (h : bs.map v.branch = bs'.map v.branch) :
    Steps v k False (List.map v.branch · = List.map v.branch ·)
      (fun r r' ↦ r.1.map v.branch = r'.1.map v.branch ∧ v.exprs? r.2 = v.exprs? r'.2)
      (branchStep nested bs) (branchStep nested' bs') := by
  refine .atKeyword_ite (.reading (branch_agrees (fun i hi ↦ hn.fewer (Nat.le_of_lt hi))
    fun h ↦ h.2 rfl) fun _ _ b b' hb ↦ .pure (.inl ?_) id) (.bind (part?_agrees hn _).still
      fun es es' hes ↦ .pure (.inr ⟨h, hes⟩) id)
  rw [List.map_cons, List.map_cons, hb, h]

theorem conditional_agrees (hp : ¬ pre .eof) :
    Agrees v k pre (fun _ ↦ True) (v.expr · = v.expr ·) (conditional nested)
      (conditional nested') := by
  refine .reading (branch_agrees hn hp) fun j hj b b' hb ↦ ?_
  refine .bind (.iterate (fun _ _ ↦ branchStep_agrees (hn j hj)) rfl) fun r r' hr ↦
    .bind_previous fun last last' hl ↦ .bind (Agrees.endOf _).still fun close close' hc ↦
      .pure ?_ id
  obtain ⟨hfirst, hcondition, hbody⟩ := Branch.mk.inj hb
  simp only [View.expr, View.kind, v.span_merge, hfirst, hcondition, hbody, hl, hc,
    chain_alike hl hr.2 hr.1]

theorem loop_agrees (hp : ¬ pre .eof) :
    Agrees v k pre (fun _ ↦ True) (v.expr · = v.expr ·) (loop nested) (loop nested') := by
  refine .reading (.advance hp) fun j hj start start' hs ↦ .bind (hn j hj).expression.still
    fun e e' he ↦ .bind .separator fun _ _ _ ↦ .bind (statements_agrees (hn j hj))
      fun es es' hes ↦ .bind (Agrees.endOf _).still fun close close' hc ↦ .pure ?_ id
  simp only [View.expr, View.kind, v.span_merge, hs, he, hes, hc]

theorem forEach_agrees (hp : ¬ pre .eof) :
    Agrees v k pre (fun _ ↦ True) (v.expr · = v.expr ·) (forEach nested) (forEach nested') := by
  refine .reading (.advance hp) fun j hj start start' hs ↦ .bind pattern_agrees.still
    fun p p' hpp ↦ .bind (.eat rfl) ?_
  rintro found _ rfl
  refine .ite (fun _ ↦ .bind (hn j hj).expression.still fun e e' he ↦
    .bind .separator fun _ _ _ ↦ .bind (statements_agrees (hn j hj)) fun es es' hes ↦
      .bind (Agrees.endOf _).still fun close close' hc ↦ .pure ?_ id)
    fun _ ↦ .bind (V := fun _ _ ↦ False) (.unexpected nofun) fun _ _ ↦ False.elim
  simp only [View.expr, View.kind, v.span_merge, hs, hpp, he, hes, hc]

theorem select_agrees (hp : ¬ pre .eof) :
    Agrees v k pre (fun _ ↦ True) (v.expr · = v.expr ·) (select nested) (select nested') := by
  refine .reading (.advance hp) fun j hj start start' hs ↦ .bind (hn j hj).expression.still
    fun e e' he ↦ .bind .separator fun _ _ _ ↦ ?_
  refine .bind (.iterate (fun _ _ ↦ armStep_agrees (hn j hj)) rfl) fun as as' has ↦ ?_
  have hempty : as.isEmpty = as'.isEmpty := by
    cases as <;> cases as' <;> first | rfl | simp only [View.arms, reduceCtorEq] at has
  rw [hempty]
  refine .ite (fun _ ↦ .unexpected nofun) fun _ ↦ .bind (part?_agrees (hn j hj) _).still
    fun es es' hes ↦ .bind (Agrees.endOf _).still fun close close' hc ↦ .pure ?_ id
  rw [v.arms_eq_map, v.arms_eq_map] at has
  simp only [View.expr, View.kind, v.span_merge, v.arms_eq_map, List.map_reverse, hs, he, has, hes,
    hc]

end

theorem protectedBody_agrees (hn : NestedAgrees v k nested nested') {start start' : Span}
    (hs : v.span start = v.span start') (construct : Keyword) :
    Agrees v k pre (fun _ ↦ False) (v.body · = v.body ·) (protectedBody nested start construct)
      (protectedBody nested' start' construct) := by
  refine .bind (statements_agrees hn) fun es es' hes ↦
    .bind (.iterate (fun _ _ ↦ rescueStep_agrees hn) rfl) fun rs rs' hrs ↦
    .bind (part?_agrees hn _).still fun others others' ho ↦ .bind (part?_agrees hn _).still
      fun ensure ensure' he ↦ .bind (Agrees.endOf _).still fun close close' hc ↦ .pure ?_ id
  rw [v.rescues_eq_map, v.rescues_eq_map] at hrs
  simp only [View.body, v.span_merge, v.rescues_eq_map, List.map_reverse, hes, hrs, ho, he, hs, hc]

theorem span_of_body {b b' : Body} (h : v.body b = v.body b') : v.span b.span = v.span b'.span := by
  have sees (b : Body) : (v.body b).span = v.span b.span := by
    cases b
    rw [View.body]
  rw [← sees, h, sees]

theorem methodParams_agrees :
    Agrees v k pre (fun _ ↦ False) (v.params · = v.params ·) methodParams methodParams :=
  .eatMark_ite (fun _ _ ↦ .bind (paramList_agrees _) fun _ _ h ↦
    .bind (Agrees.expect _).still fun _ _ _ ↦ .pure h id) (.pure rfl id)

theorem singleton_agrees : Agrees v k pre (fun _ ↦ False) Eq singleton singleton := by
  intro c d h _ _
  rw [singleton, Agrees.get_bind, Agrees.get_bind, Agrees.get_bind, Agrees.get_bind, ← h.kind]
  by_cases heof : c.kind = .eof
  · rw [heof]
    exact .ok ⟨rfl, h, .refl, nofun⟩
  · rw [← h.second heof]
    generalize hfirst : c.kind = t, hsecond : c.second = t'
    split
    · have hnext : c.next.kind ≠ .eof := by simp [c.next_kind, hsecond]
      exact .ok ⟨rfl, (h.next heof).next hnext, (Cursor.Advances.next heof).trans (.next hnext),
        nofun⟩
    · exact .ok ⟨rfl, h, .refl, nofun⟩

theorem superclass_agrees (hn : NestedAgrees v k nested nested') (sort : TypeSort) :
    Agrees v k pre (fun _ ↦ False) (v.expr? · = v.expr? ·) (superclass nested sort)
      (superclass nested' sort) := by
  cases sort with
  | module => exact .pure rfl id
  | type =>
    exact .eatMark_ite (fun j hj ↦ .bind (hn.operand.fewer (Nat.le_of_lt hj)).still
      fun e e' he ↦ .pure (by rw [View.expr?, View.expr?, he]) id) (.pure rfl id)

section

variable (hn : ∀ j, j < k → NestedAgrees v j nested nested')

include hn

theorem protect_agrees (hp : ¬ pre .eof) :
    Agrees v k pre (fun _ ↦ True) (v.expr · = v.expr ·) (protect nested) (protect nested') := by
  refine .reading (.advance hp) fun j hj start start' hs ↦
    .bind (protectedBody_agrees (hn j hj) hs _) fun b b' hb ↦ .pure ?_ id
  simp only [View.expr, View.kind, hb, span_of_body hb]

theorem methodDef_agrees (hp : ¬ pre .eof) :
    Agrees v k pre (fun _ ↦ True) (v.expr · = v.expr ·) (methodDef nested) (methodDef nested') := by
  refine .bind_get fun c d h hc ↦ ?_
  have hdoc := h.doc fun heof ↦ hp (heof ▸ hc)
  refine .reading (.advance fun heof ↦ hp (heof ▸ hc)) fun j hj start start' hs ↦
    .bind singleton_agrees ?_
  rintro single _ rfl
  refine .bind definedName_agrees.still fun i i' hi ↦ .bind methodParams_agrees fun ps ps' hps ↦
    .bind (guard?_agrees (hn j hj)) fun g g' hg ↦ .bind .separator fun _ _ _ ↦
      .bind (protectedBody_agrees (hn j hj) hs _) fun b b' hb ↦ .pure ?_ id
  simp only [View.expr, View.kind, View.methodDef, hi, hps, hg, hb, hdoc, span_of_body hb]

theorem typeDef_agrees (sort : TypeSort) (hp : ¬ pre .eof) :
    Agrees v k pre (fun _ ↦ True) (v.expr · = v.expr ·) (typeDef nested sort)
      (typeDef nested' sort) := by
  refine .bind_get fun c d h hc ↦ ?_
  have hdoc := h.doc fun heof ↦ hp (heof ▸ hc)
  refine .reading (.advance fun heof ↦ hp (heof ▸ hc)) fun j hj start start' hs ↦
    .bind Agrees.constantName.still fun i i' hi ↦
      .bind (superclass_agrees (hn j hj) sort) fun e e' he ↦ .bind .separator fun _ _ _ ↦
        .bind (statements_agrees (hn j hj)) fun es es' hes ↦
          .bind (Agrees.endOf _).still fun close close' hc ↦ .pure ?_ id
  simp only [View.expr, View.kind, View.typeDef, v.span_merge, hi, he, hes, hs, hc, hdoc]

end

/-! ## Operands -/

section

variable {nested nested' : Nested} (hn : ∀ j, j < k → NestedAgrees v j nested nested')

include hn

theorem jump_agrees (hp : ¬ pre .eof) (way : Jump) :
    Agrees v k pre (fun _ ↦ True) (v.expr · = v.expr ·) (jump nested way) (jump nested' way) := by
  refine .reading (.advance hp) fun j hj start start' hs ↦ .bind_kind fun t _ ↦
    .ite (fun _ ↦ .pure ?_ id) fun _ ↦ .bind (hn j hj).expression.weaken.still fun e e' he ↦
      .pure ?_ id
  · simp only [View.expr, View.kind, View.expr?, hs]
  · simp only [View.expr, View.kind, View.expr?, v.span_merge, hs, he, span_of_expr he]

theorem parenthesized_agrees (hp : ¬ pre .eof) :
    Agrees v k pre (fun _ ↦ True) (v.expr · = v.expr ·) (parenthesized nested)
      (parenthesized nested') := by
  refine .reading (.advance hp) fun j hj start start' hs ↦ .bind .skipNewlines fun _ _ _ ↦
    .bind (hn j hj).expression.still fun e e' he ↦ .bind .skipNewlines fun _ _ _ ↦
      .bind (Agrees.expect _).still fun close close' hc ↦ .pure ?_ id
  obtain ⟨kind, s⟩ := e
  obtain ⟨kind', s'⟩ := e'
  rw [View.expr, View.expr] at he
  simp only [View.expr, v.span_merge, hs, hc, (Expr.mk.inj he).1]

theorem listLiteral_agrees (hp : ¬ pre .eof) :
    Agrees v k pre (fun _ ↦ True) (v.expr · = v.expr ·) (listLiteral nested)
      (listLiteral nested') := by
  refine .reading (.advance hp) fun j hj start start' hs ↦
    .bind (plainArguments_agrees (hn j hj) _ _ _ _ nofun) fun es es' hes ↦
      .bind_previous fun last last' hl ↦ .pure ?_ id
  simp only [View.expr, View.kind, v.span_merge, hs, hes, hl]

theorem nameOrCall_agrees (hp : ¬ pre .eof) (name : String) :
    Agrees v k pre (fun _ ↦ True) (v.expr · = v.expr ·) (nameOrCall nested name)
      (nameOrCall nested' name) := by
  refine .reading (.advance hp) fun j hj here here' hh ↦ .bind_kind fun t _ ↦ .ite (fun _ ↦ ?_)
    fun _ ↦ .pure ?_ id
  · refine .bind (callSuffix_agrees (hn j hj)) fun a a' ha ↦ .bind_previous fun last last' hl ↦
      .pure ?_ id
    obtain ⟨hargs, hblock⟩ := Arguments.mk.inj ha
    simp only [View.expr, View.kind, View.expr?, View.ident, v.span_merge, hh, hargs, hblock, hl]
  · simp only [View.expr, View.kind, hh]

theorem yieldCall_agrees (hp : ¬ pre .eof) :
    Agrees v k pre (fun _ ↦ True) (v.expr · = v.expr ·) (yieldCall nested) (yieldCall nested') := by
  refine .reading (.advance hp) fun j hj start start' hs ↦ .bind (.eat rfl) ?_
  rintro parens _ rfl
  refine .join (plainArguments_agrees (hn j hj) _ _ _ _ nofun) (.pure rfl id) fun es es' hes ↦
    .bind_previous fun last last' hl ↦ .pure ?_ id
  simp only [View.expr, View.kind, v.span_merge, hs, hes, hl]

theorem superCall_agrees (hp : ¬ pre .eof) :
    Agrees v k pre (fun _ ↦ True) (v.expr · = v.expr ·) (superCall nested) (superCall nested') := by
  refine .reading (.advance hp) fun j hj start start' hs ↦ .bind_atMark fun explicit ↦
    .bind (callSuffix_agrees (hn j hj)) fun a a' ha ↦ .bind_previous fun last last' hl ↦
      .pure ?_ id
  obtain ⟨hargs, hblock⟩ := Arguments.mk.inj ha
  cases explicit <;>
    simp only [View.expr, View.kind, View.exprs?, v.span_merge, hs, hargs, hblock, hl, if_true,
      Bool.false_eq_true, if_false]

theorem includeModule_agrees (hp : ¬ pre .eof) :
    Agrees v k pre (fun _ ↦ True) (v.expr · = v.expr ·) (includeModule nested)
      (includeModule nested') := by
  refine .reading (.advance hp) fun j hj start start' hs ↦ .bind (hn j hj).expression.still
    fun e e' he ↦ .pure ?_ id
  simp only [View.expr, View.kind, v.span_merge, hs, he, span_of_expr he]

theorem blockValue_agrees (hp : ¬ pre .eof) :
    Agrees v k pre (fun _ ↦ True) (v.expr · = v.expr ·) (blockValue nested)
      (blockValue nested') := by
  refine .reading (block_agrees hn hp) fun j hj b b' hb ↦ .pure ?_ id
  have sees (b : Block) : (v.block b).span = v.span b.span := by
    cases b
    rw [View.block]
  have hspan : v.span b.span = v.span b'.span := by rw [← sees, hb, sees]
  simp only [View.expr, View.kind, hb, hspan]

omit hn in
theorem atom_agrees (hp : ¬ pre .eof) {kind : Expr.Kind} :
    Agrees v k pre (fun _ ↦ True) (v.expr · = v.expr ·) (atom kind) (atom kind) := by
  refine .reading (.advance hp) fun j hj s s' hs ↦ .pure ?_ id
  simp only [View.expr, hs]

theorem keywordOperand_agrees (w : Keyword) :
    Agrees v k (· = .keyword w) (fun _ ↦ True) (v.expr · = v.expr ·) (keywordOperand nested w)
      (keywordOperand nested' w) := by
  unfold keywordOperand
  split
  · exact atom_agrees nofun
  · exact atom_agrees nofun
  · exact atom_agrees nofun
  · exact atom_agrees nofun
  · exact blockValue_agrees hn nofun
  · exact conditional_agrees hn nofun
  · exact loop_agrees hn nofun
  · exact forEach_agrees hn nofun
  · exact select_agrees hn nofun
  · exact protect_agrees hn nofun
  · exact jump_agrees hn nofun _
  · exact jump_agrees hn nofun _
  · exact jump_agrees hn nofun _
  · exact jump_agrees hn nofun _
  · exact yieldCall_agrees hn nofun
  · exact superCall_agrees hn nofun
  · exact methodDef_agrees hn nofun
  · exact typeDef_agrees hn _ nofun
  · exact typeDef_agrees hn _ nofun
  · exact includeModule_agrees hn nofun
  · exact .unexpected nofun

theorem primary_agrees :
    Agrees v k pre (fun _ ↦ True) (v.expr · = v.expr ·) (primary nested) (primary nested') := by
  refine .bind_kind fun t _ ↦ ?_
  split
  · exact atom_agrees nofun
  · exact atom_agrees nofun
  · exact atom_agrees nofun
  · exact atom_agrees nofun
  · exact nameOrCall_agrees hn nofun _
  · exact atom_agrees nofun
  · exact atom_agrees nofun
  · exact listLiteral_agrees hn nofun
  · exact parenthesized_agrees hn nofun
  · exact blockValue_agrees hn nofun
  · exact keywordOperand_agrees hn _
  · exact .unexpected nofun

theorem operand_agrees :
    Agrees v k pre (fun _ ↦ True) (v.expr · = v.expr ·) (operand nested) (operand nested') :=
  .reading (primary_agrees hn) fun _ hj _ _ he ↦
    postfixOps_agrees (fun i hi ↦ hn i (Nat.lt_trans hi hj)) he

end

/-! ## Nesting -/

theorem parserUpTo_agrees {n m : Nat} :
    (2 * k < n → 2 * k < m → Agrees v k (fun _ ↦ True) (fun _ ↦ True) (v.expr · = v.expr ·)
      (parserUpTo n .operand) (parserUpTo m .operand)) ∧
    (2 * k + 1 < n → 2 * k + 1 < m → Agrees v k (fun _ ↦ True) (fun _ ↦ True)
      (v.expr · = v.expr ·) (parserUpTo n .expression) (parserUpTo m .expression)) := by
  induction k using Nat.strongRecOn generalizing n m with
  | ind k ih =>
    have operands {n m : Nat} (hn : 2 * k < n) (hm : 2 * k < m) :
        Agrees v k (fun _ ↦ True) (fun _ ↦ True) (v.expr · = v.expr ·) (parserUpTo n .operand)
          (parserUpTo m .operand) := by
      obtain ⟨n, rfl⟩ : ∃ i, n = i + 1 := ⟨n - 1, by omega⟩
      obtain ⟨m, rfl⟩ : ∃ i, m = i + 1 := ⟨m - 1, by omega⟩
      exact operand_agrees fun j hj ↦
        ⟨(ih j hj).2 (by omega) (by omega), (ih j hj).1 (by omega) (by omega)⟩
    refine ⟨operands, fun hn hm ↦ ?_⟩
    obtain ⟨n, rfl⟩ : ∃ i, n = i + 1 := ⟨n - 1, by omega⟩
    obtain ⟨m, rfl⟩ : ∃ i, m = i + 1 := ⟨m - 1, by omega⟩
    exact expression_agrees
      (fun j hj ↦ ⟨(ih j hj).2 (by omega) (by omega), (ih j hj).1 (by omega) (by omega)⟩)
      (operands (by omega) (by omega))

theorem parser_agrees : NestedAgrees v k parser parser where
  expression c d h _ := by
    have hl := h.unread_lt
    have hl' := h.unread_lt'
    exact parserUpTo_agrees.2 (by omega) (by omega) c d h (Nat.le_refl _)
  operand c d h _ := by
    have hl := h.unread_lt
    have hl' := h.unread_lt'
    exact parserUpTo_agrees.1 (by omega) (by omega) c d h (Nat.le_refl _)

theorem program_agrees :
    Agrees v k pre (fun _ ↦ False) (fun p q ↦ v.exprs p.body = v.exprs q.body) program program := by
  refine .bind_span fun start start' ↦ .bind (statements_agrees parser_agrees) fun es es' hes ↦
    .bind_kind fun t _ ↦ .ite (fun _ ↦ ?_) fun _ ↦ .unexpected nofun
  split <;> split <;> exact .pure hes id

end Quill.Grammar
