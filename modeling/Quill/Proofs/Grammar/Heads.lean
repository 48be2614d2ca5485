import Quill.Proofs.Grammar.Progress
import Quill.Proofs.Grammar.Soundness.Operators
import Quill.Proofs.Printing.Precedence

/-!
# Programs that define one method

A program that starts with the word for it starts with the definition of a method, and is nothing
else when only separators follow. Behind the name such a definition is read in the same way whatever
the name is. Main statement: `program_renamed`.
-/

namespace Quill

def MethodDef.named (name : String) (d : MethodDef) : MethodDef :=
  { d with name := ⟨name, d.name.span⟩ }

namespace Grammar

open Parse

theorem View.methodDef_named (v : View) (name : String) (d : MethodDef) :
    v.methodDef (d.named name) = (v.methodDef d).named name := by
  obtain ⟨_, _, _, _, _, _, _⟩ := d
  simp only [MethodDef.named, methodDef, ident]

theorem View.name_eq {v : View} {d d' : MethodDef} (h : v.methodDef d = v.methodDef d') :
    d.name.name = d'.name.name := by
  obtain ⟨_, _, _, _, _, _, _⟩ := d
  obtain ⟨_, _, _, _, _, _, _⟩ := d'
  simp only [methodDef, ident, MethodDef.mk.injEq, Ident.mk.injEq] at h
  exact h.1.1

variable {c c' d d' : Cursor} {i j : Ident} {e : Expr}

/-- What follows the name in the definition of a method, which starts at `start`. -/
def methodRest (nested : Nested) (doc : Option String) (start : Span) (name : Ident) :
    Parse Expr := do
  let params ← methodParams
  let guard ← guard? nested
  separator
  let body ← protectedBody nested start .def_
  return ⟨.method ⟨name, false, params, guard, body, doc, body.span⟩, body.span⟩

/-- The definition of a method that is none of the type itself starts at the cursor, and goes on at
`c'` after the name. -/
structure Cursor.Heads (c : Cursor) (i : Ident) (c' : Cursor) : Prop where
  kind : c.kind = .keyword .def_
  plain : Grammar.singleton c.next = .ok (false, c.next)
  name : definedName c.next = .ok (i, c')

theorem Cursor.Heads.methodDef_eq (h : c.Heads i c') (nested : Nested) :
    methodDef nested c = methodRest nested c.doc c.span i c' := by
  unfold methodDef
  rw [Agrees.get_bind, Agrees.advance_bind, bind_ok h.plain, bind_ok h.name]
  rfl

theorem Cursor.Heads.lt (h : c.Heads i c') (hc : c.Bounded) :
    c'.rest.length + 1 < c.rest.length := by
  have hkind : c.kind ≠ .eof := by
    rw [h.kind]
    nofun
  have hlt := (Cursor.Advances.next hkind).fewer (Cursor.next_lt hkind)
  have hends : Ends (fun _ ↦ True) definedName :=
    Agrees.ends (v := .full) fun _ ↦ definedName_agrees
  have hnext : c.next.Bounded := ((hc.alike .full).next hkind).limit
  exact Nat.lt_of_le_of_lt (hends.fewer hnext h.name trivial) hlt

/-- What can follow the name: parameters, a condition or a separator. -/
def followsName : Token.Kind → Bool
  | .mark .lParen | .keyword .if_ | .newline | .mark .semicolon => true
  | _ => false

theorem methodRest_stops {nested : Nested} {doc : Option String} {start : Span}
    (h : followsName c.kind = false) :
    methodRest nested doc start i c = .error (c.unexpected .separator) := by
  have hparen : (c.kind == .mark .lParen) = false := Bool.eq_false_iff.mpr fun hk ↦ by
    rw [eq_of_beq_mark hk] at h
    cases h
  have hif : (c.kind == .keyword .if_) = false := Bool.eq_false_iff.mpr fun hk ↦ by
    rw [eq_of_beq_keyword hk] at h
    cases h
  have hsep : Cursor.isSeparator c.kind = false := by
    unfold Cursor.isSeparator
    split <;> simp_all [followsName]
  have hparams : methodParams c = .ok (.none, c) := by
    unfold methodParams eatMark
    rw [bind_ok (eat_other hparen)]
    rfl
  have hguard : guard? nested c = .ok (none, c) := by
    unfold guard? eatKeyword
    rw [bind_ok (eat_other hif)]
    rfl
  have hseparator : separator c = .error (c.unexpected .separator) := by
    unfold separator
    rw [kind_bind, hsep]
    rfl
  unfold methodRest
  rw [bind_ok hparams, bind_ok hguard]
  exact bind_error hseparator

/-- Both are definitions that differ in the name alone. -/
def Renames (i j : Ident) (e e' : Expr) : Prop :=
  ∃ m m' s s', e = ⟨.method m, s⟩ ∧ e' = ⟨.method m', s'⟩ ∧ m.name = i ∧
    View.blank.methodDef m' = View.blank.methodDef (m.named j.name)

theorem methodRest_agrees {k : Nat} {nested nested' : Nested}
    (hn : NestedAgrees .blank k nested nested') (doc doc' : Option String) (start start' : Span) :
    Agrees .blank k (fun _ ↦ True) (fun _ ↦ False) (Renames i j) (methodRest nested doc start i)
      (methodRest nested' doc' start' j) := by
  have hstart : View.blank.span start = View.blank.span start' := rfl
  refine .bind methodParams_agrees fun ps ps' hps ↦ .bind (guard?_agrees hn) fun g g' hg ↦
    .bind .separator fun _ _ _ ↦ .bind (protectedBody_agrees hn hstart _) fun b b' hb ↦ .pure ?_ id
  refine ⟨_, _, _, _, rfl, rfl, rfl, ?_⟩
  simp only [MethodDef.named, View.methodDef, View.ident, hps, hg, hb]
  rfl

/-- Where a program ends, but for separators. -/
def Cursor.Finished (c : Cursor) : Prop := c.skipSeparators.kind = .eof

/-- What is read behind an expression: nothing where the program ends, and if anything is, then the
expression becomes a part of one that is no definition. -/
structure Follows (f : Expr → Parse Expr) : Prop where
  alone (e : Expr) (c : Cursor) :
    Gives c (f e) fun r c' ↦ (r = e ∧ c' = c) ∨ ∀ m, r.kind ≠ .method m
  stop (e : Expr) {c : Cursor} : c.Bounded → c.Finished → f e c = .ok (e, c)

theorem Follows.comp {f g : Expr → Parse Expr} (hf : Follows f) (hg : Follows g) :
    Follows fun e ↦ f e >>= g where
  alone e c := by
    refine .bind (hf.alone e c) fun r c₁ hr ↦ (hg.alone r c₁).mono fun r' c' hr' ↦ ?_
    obtain ⟨rfl, rfl⟩ | hne := hr'
    · exact hr
    · exact .inr hne
  stop e c hc hend := by
    rw [bind_ok (hf.stop e hc hend)]
    exact hg.stop e hc hend

namespace Cursor.Finished

theorem kind_cases (h : c.Finished) :
    c.kind = .newline ∨ c.kind = .mark .semicolon ∨ c.kind = .eof := by
  by_cases hsep : isSeparator c.kind = true
  · unfold isSeparator at hsep
    split at hsep
    · exact .inl ‹_›
    · exact .inr (.inl ‹_›)
    · cases hsep
  · unfold Finished at h
    rw [c.skipSeparators_skips.eq_of_not hsep] at h
    exact .inr (.inr h)

theorem skipNewlines (h : c.Finished) : c.skipNewlines.Finished := by
  have hskips := c.skipSeparators_skips.after c.skipNewlines_skips (by rintro _ rfl; rfl)
  unfold Finished
  rw [← hskips.unique c.skipNewlines.skipSeparators_skips]
  exact h

theorem chainContinues (h : c.Finished) : chainContinues c = false := by
  refine Bool.eq_false_iff.mpr fun hdot ↦ ?_
  have hkind := h.skipNewlines.kind_cases
  rw [kind_of_chainContinues hdot] at hkind
  obtain hkind | hkind | hkind := hkind <;> cases hkind

end Cursor.Finished

theorem iterate_stop {α β : Type} {step : α → Parse (α ⊕ β)} {a : α} {b : β} (hc : c.Bounded)
    (h : step a c = .ok (.inr b, c')) : iterate step a c = .ok (b, c') :=
  (Runs.stop h).repeatUpTo hc

theorem postfixOps_follows (nested : Nested) : Follows (postfixOps nested) where
  alone e c := by
    refine .iterate (fun r c' ↦ (r = e ∧ (c' = c ∨ c'.kind = .mark .dot)) ∨ ∀ m, r.kind ≠ .method m)
      (fun r c' h ↦ .kind ?_) (.inl ⟨rfl, .inl rfl⟩)
    have unread (hk : c'.kind ≠ .mark .dot) : (r = e ∧ c' = c) ∨ ∀ m, r.kind ≠ .method m :=
      h.imp_left fun h ↦ ⟨h.1, h.2.resolve_right hk⟩
    split
    · refine .advance (.skipNewlines (.bind_any fun m c₁ ↦ .bind_any fun a c₂ ↦ ?_))
      exact .previous (.pure (.inr nofun))
    · exact .advance (.bind_any fun args c₁ ↦ .previous (.pure (.inr nofun)))
    · rename_i hk
      refine .get (.ite (fun hdot ↦ .skipNewlines (.pure ?_)) fun _ ↦ .pure (unread ?_))
      · exact h.imp_left fun h ↦ ⟨h.1, .inr (kind_of_chainContinues hdot)⟩
      · rw [hk]
        nofun
    · exact .pure (unread ‹_›)
  stop e c hc hend := by
    refine iterate_stop hc ?_
    unfold postfixStep
    rw [kind_bind]
    obtain hk | hk | hk := hend.kind_cases
    · rw [hk]
      dsimp only
      rw [Agrees.get_bind, hend.chainContinues]
      rfl
    · rw [hk]
      rfl
    · rw [hk]
      rfl

theorem infixes_follow (right : Nat → Parse Expr) (floor : Nat) :
    Follows fun e ↦ iterate (infixStep right floor) ⟨e, Infix.tightest⟩ where
  alone e c := by
    refine .iterate (fun l c' ↦ (l.expr = e ∧ c' = c) ∨ ∀ m, l.expr.kind ≠ .method m)
      (fun l c' h ↦ .kind ?_) (.inl ⟨rfl, rfl⟩)
    split
    · exact .pure h
    · rename_i op _
      refine .ite (fun _ ↦ .pure h) fun _ ↦ .advance (.skipNewlines ?_)
      split
      · exact .bind_any fun p c₁ ↦ .pure (.inr nofun)
      · rename_i hfits
        have hjoin (r : Expr) : ∀ m, (op.join l.expr r).kind ≠ .method m := by
          cases op with
          | fits => exact (hfits rfl).elim
          | _ => exact nofun
        refine .bind_any fun r c₁ ↦ ?_
        dsimp only
        split
        · refine .kind ?_
          split
          · exact .unexpected
          · exact .pure (.inr (hjoin r))
        · exact .pure (.inr (hjoin r))
  stop e c hc hend := by
    refine iterate_stop hc ?_
    unfold infixStep
    rw [kind_bind]
    obtain hk | hk | hk := hend.kind_cases <;> rw [hk] <;> rfl

theorem simpleAssignment_eq (nested : Nested) :
    ∃ f, simpleAssignment nested = operators nested >>= f ∧ Follows f := by
  refine ⟨_, rfl, fun e c ↦ .kind ?_, fun e c hc hend ↦ ?_⟩
  · split
    · exact .pure (.inl ⟨rfl, rfl⟩)
    · refine .advance (.skipNewlines (.bind_any fun t c₁ ↦ .bind_any fun v c₂ ↦ ?_))
      split <;> exact .pure (.inr nofun)
  · rw [kind_bind]
    obtain hk | hk | hk := hend.kind_cases <;> rw [hk] <;> rfl

theorem unary_eq_operand {nested : Nested} (hc : c.Bounded) (hk : prefixOp? c.kind = none) :
    unary nested c = nested .operand c := by
  have hstep : unaryStep nested [] c = (nested .operand >>= fun e ↦ pure (.inr e)) c := by
    unfold unaryStep
    rw [kind_bind, hk]
    rfl
  cases hx : nested .operand c with
  | error e =>
    obtain ⟨n, hn⟩ := Nat.exists_eq_add_of_lt hc
    unfold unary iterate
    rw [Agrees.get_bind, hn, repeatUpTo]
    exact bind_error (hstep.trans (bind_error hx))
  | ok r => exact iterate_stop hc (hstep.trans (bind_ok hx))

theorem expression_definition (n : Nat) :
    ∃ f, Follows f ∧ ∀ c : Cursor, c.Bounded → c.kind = .keyword .def_ →
      parserUpTo (n + 2) .expression c = (methodDef (parserUpTo n) >>= f) c := by
  obtain ⟨f, hf, hfollows⟩ := simpleAssignment_eq (parserUpTo (n + 1))
  refine ⟨_, (postfixOps_follows (parserUpTo n)).comp
    ((infixes_follow (infixFrom (parserUpTo (n + 1)) 5) 1).comp hfollows), fun c hc hk ↦ ?_⟩
  have hexpression :
      parserUpTo (n + 2) .expression c = simpleAssignment (parserUpTo (n + 1)) c := by
    change (if c.kind == .mark .lBracket then _ else _ : Parse Expr) c = _
    rw [hk]
    rfl
  have hprimary : primary (parserUpTo n) c = methodDef (parserUpTo n) c := by
    unfold primary
    rw [kind_bind, hk]
    rfl
  have hunary : unary (parserUpTo (n + 1)) c =
      (methodDef (parserUpTo n) >>= postfixOps (parserUpTo n)) c := by
    rw [unary_eq_operand hc (by rw [hk]; rfl)]
    exact bind_congr hprimary _
  rw [hexpression, hf]
  refine (bind_congr (bind_congr hunary _) f).trans ?_
  simp only [bind_assoc]

section

variable {n : Nat} {p : Program} {m : MethodDef} {s : Span}

/-- The expression is read at the cursor, and goes on at `c'`. -/
def Cursor.Begins (c : Cursor) (e : Expr) (c' : Cursor) : Prop := parser .expression c = .ok (e, c')

theorem statements_sole (hk : c.kind = .keyword .def_) :
    Gives c (statements parser) fun es c' ↦
      ∀ e, es = [e] → ∃ c₁, c.Begins e c₁ ∧ c' = c₁.skipSeparators := by
  have hskip : c.skipSeparators = c := c.skipSeparators_eq (by rw [hk]; rfl)
  let state (es : List Expr) (c' : Cursor) : Prop :=
    (es = [] ∧ c' = c) ∨ (∃ e, es = [e] ∧ c.Begins e c') ∨ 2 ≤ es.length
  refine .bind (.iterate (R := fun es c' ↦ ∀ e, es = [e] → ∃ c₁, c.Begins e c₁ ∧
    c' = c₁.skipSeparators) state (fun es c₁ h ↦ .skipSeparators (.kind (.ite (fun hend ↦ .pure ?_)
      fun _ ↦ ?_))) (.inl ⟨rfl, rfl⟩)) fun es c' h ↦ .pure fun e he ↦ h e ?_
  · rintro e rfl
    obtain ⟨h, -⟩ | ⟨e', h, hbegins⟩ | h := h
    · cases h
    · cases h
      exact ⟨c₁, hbegins, rfl⟩
    · exact absurd h (Nat.not_le_of_lt (Nat.lt_succ_self 1))
  · refine .bind (P := fun r c₂ ↦ state (r :: es) c₂) (fun r c₂ hr ↦ ?_) fun r c₂ hr ↦ .kind
      (.ite (fun _ ↦ .pure hr) fun _ ↦ .unexpected)
    obtain ⟨rfl, rfl⟩ | ⟨e', rfl, -⟩ | h := h
    · rw [hskip] at hr
      exact .inr (.inl ⟨r, rfl, hr⟩)
    · exact .inr (.inr (Nat.le_refl 2))
    · exact .inr (.inr (Nat.le_succ_of_le h))
  · exact List.reverse_eq_iff.mp he

theorem program_sole (hk : c.kind = .keyword .def_) : Gives c program fun p _ ↦
    ∀ e, p.body = [e] → ∃ c₁, c.Begins e c₁ ∧ c₁.Finished := by
  refine .span (.bind (statements_sole hk) fun es c' h ↦ .kind (.ite (fun heof ↦ ?_) fun _ ↦
    .unexpected))
  have hbody (e : Expr) (he : es = [e]) : ∃ c₁, c.Begins e c₁ ∧ c₁.Finished := by
    obtain ⟨c₁, hbegins, rfl⟩ := h e he
    exact ⟨c₁, hbegins, eq_of_beq_eof heof⟩
  split <;> exact .pure hbody

theorem statementStep_definition (hk : c.kind = .keyword .def_) :
    statementStep parser [] c = (parser .expression >>= fun e ↦ kind >>= fun k ↦
      if Cursor.isSeparator k || endsBody k then pure (.inl [e]) else unexpected .separator) c := by
  unfold statementStep
  rw [skipSeparators_bind, c.skipSeparators_eq (by rw [hk]; rfl), kind_bind, hk]
  rfl

theorem program_single (hc : c.Bounded) (hk : c.kind = .keyword .def_) (he : c.Begins e c')
    (hend : c'.Finished) : ∃ s c'', program c = .ok (⟨[e], s⟩, c'') := by
  have hfirst : statementStep parser [] c = .ok (.inl [e], c') := by
    rw [statementStep_definition hk, bind_ok he, kind_bind]
    obtain hk | hk | hk := hend.kind_cases <;> rw [hk] <;> rfl
  have hlast : statementStep parser [e] c' = .ok (.inr [e], c'.skipSeparators) := by
    unfold statementStep
    rw [skipSeparators_bind, kind_bind, hend]
    rfl
  have hlt := (Phrase.Reads.forward (f := .expression) ⟨e, he⟩ hc).2
  have hsteps : iterate (statementStep parser) [] c = .ok ([e], c'.skipSeparators) :=
    (Runs.more hfirst hlt (.stop hlast)).repeatUpTo hc
  have hstatements : statements parser c = .ok ([e], c'.skipSeparators) := bind_ok hsteps
  refine ⟨c.span.merge e.span, c'.skipSeparators, ?_⟩
  unfold program
  rw [span_bind, bind_ok hstatements, kind_bind, hend]
  rfl

theorem program_error {f : ParseError} (hc : c.Bounded) (hk : c.kind = .keyword .def_)
    (he : parser .expression c = .error f) : program c = .error f := by
  have hstep : statementStep parser [] c = .error f := by
    rw [statementStep_definition hk]
    exact bind_error he
  have hsteps : iterate (statementStep parser) [] c = .error f := by
    obtain ⟨n, hn⟩ := Nat.exists_eq_add_of_lt hc
    unfold iterate
    rw [Agrees.get_bind, hn, repeatUpTo]
    exact bind_error hstep
  unfold program
  rw [span_bind]
  exact bind_error (bind_error hsteps)

theorem parser_definition (hc : c.Bounded) (hk : c.kind = .keyword .def_)
    (hn : 2 * c.limit = n + 2) :
    ∃ f, Follows f ∧ parser .expression c = (methodDef (parserUpTo n) >>= f) c := by
  obtain ⟨f, hf, hexpression⟩ := expression_definition n
  exact ⟨f, hf, (congrArg (parserUpTo · .expression c) hn).trans (hexpression c hc hk)⟩

theorem methodDef_of_program (hc : c.Bounded) (hk : c.kind = .keyword .def_)
    (hn : 2 * c.limit = n + 2) (hp : program c = .ok (p, c'))
    (hbody : p.body = [⟨.method m, s⟩]) :
    ∃ c₁, methodDef (parserUpTo n) c = .ok (⟨.method m, s⟩, c₁) ∧ c₁.Finished := by
  obtain ⟨f, hf, hexpression⟩ := parser_definition hc hk hn
  obtain ⟨c₁, he, hend⟩ := program_sole hk p c' hp _ hbody
  have hgives : Gives c (methodDef (parserUpTo n) >>= f) fun r c₁ ↦
      methodDef (parserUpTo n) c = .ok (r, c₁) ∨ ∀ m, r.kind ≠ .method m := by
    refine .bind (P := fun r c₁ ↦ methodDef (parserUpTo n) c = .ok (r, c₁)) (fun _ _ ↦ id)
      fun r c₁ hr ↦ (hf.alone r c₁).mono fun r' c' ↦ Or.imp_left ?_
    rintro ⟨rfl, rfl⟩
    exact hr
  obtain hr | hne := hgives _ c₁ (hexpression.symm.trans he)
  · exact ⟨c₁, hr, hend⟩
  · exact absurd rfl (hne m)

theorem Cursor.Heads.bound (h : c.Heads i c') (hc : c.Bounded) :
    ∃ n, 2 * c.limit = n + 2 ∧ 2 * c'.unread.length + 1 < n := by
  have hlt := h.lt hc
  have hle := c'.unread_length_le
  unfold Cursor.Bounded at hc
  exact ⟨2 * c.limit - 2, by omega, by omega⟩

/-- Where after the name of a method the same follows as after that of another method, which is
defined there, the same method is defined under the other name. -/
theorem program_renamed (hc : c.Bounded) (hd : d.Bounded) (hi : c.Heads i c') (hj : d.Heads j d')
    (h : c'.Alike .blank d') {c'' : Cursor} (hp : program c = .ok (p, c''))
    (hbody : p.body = [⟨.method m, s⟩]) :
    m.name = i ∧ ∃ q m' t d'', program d = .ok (q, d'') ∧ q.body = [⟨.method m', t⟩] ∧
      View.blank.methodDef m' = View.blank.methodDef (m.named j.name) := by
  obtain ⟨n, hn, hlt⟩ := hi.bound hc
  obtain ⟨n', hn', hlt'⟩ := hj.bound hd
  rw [← h.length] at hlt'
  obtain ⟨c₁, hm, hend⟩ := methodDef_of_program hc hi.kind hn hp hbody
  have hagrees : NestedAgrees .blank c'.unread.length (parserUpTo n) (parserUpTo n') :=
    ⟨parserUpTo_agrees.2 hlt hlt', parserUpTo_agrees.1 (by omega) (by omega)⟩
  have hsame := methodRest_agrees (i := i) (j := j) hagrees c.doc d.doc c.span d.span c' d' h
    (Nat.le_refl _) trivial
  rw [← hi.methodDef_eq, ← hj.methodDef_eq, hm] at hsame
  generalize hr : methodDef (parserUpTo n') d = r at hsame
  cases hsame with
  | @ok _ r hsame =>
    obtain ⟨e', d₁⟩ := r
    obtain ⟨m₁, m', s₁, t, heq, rfl, hname, hview⟩ := hsame.result
    cases heq
    have hfinished : d₁.Finished := hsame.alike.skipSeparators.kind.symm.trans hend
    obtain ⟨f, hf, hexpression⟩ := parser_definition hd hj.kind hn'
    have hbegins : d.Begins ⟨.method m', t⟩ d₁ := by
      refine hexpression.trans ?_
      rw [bind_ok hr]
      exact hf.stop _ hsame.alike.limit' hfinished
    obtain ⟨u, d'', hprogram⟩ := program_single hd hj.kind hbegins hfinished
    exact ⟨hname, _, m', t, d'', hprogram, rfl, hview⟩

theorem program_unnamed (hc : c.Bounded) (hi : c.Heads i c')
    (h : followsName c'.kind = false) : program c = .error (c'.unexpected .separator) := by
  obtain ⟨n, hn, -⟩ := hi.bound hc
  obtain ⟨f, -, hexpression⟩ := parser_definition hc hi.kind hn
  refine program_error hc hi.kind (hexpression.trans (bind_error ?_))
  rw [hi.methodDef_eq]
  exact methodRest_stops h

end

end Grammar

end Quill
