import Quill.Proofs.Outlines
import Quill.Proofs.Printing.Parameters

/-!
# Signatures

Main statement: `parameters_read_back`. The parameters of a method are shown in the form in which
they can be written, so what the outline shows as its signature says what the method takes.
-/

namespace Quill

open Token (Kind)

namespace Grammar

open Piece Parse

variable {n : Nat} {ps qs : List Piece}

namespace Parse.Reads

theorem atKeyword (w : Keyword) :
    Parse.Reads n (atKeyword w) ps ps (· = (first ps == .keyword w)) :=
  .bind .kind fun _ hk ↦ .pure (hk ▸ rfl)

theorem eatKeyword_other {w : Keyword} (h : (first ps == .keyword w) = false) :
    Parse.Reads n (eatKeyword w) ps ps (· = false) := by
  intro c hc
  refine ⟨false, c, ?_, hc, rfl⟩
  unfold eatKeyword eat
  rw [hc.kind, h]
  rfl

end Parse.Reads

theorem first_keyword (w : Keyword) (ps : List Piece) : first (.word w.text :: ps) = .keyword w :=
  nameKind_keyword w

theorem Cursor.Before.semicolon {c : Cursor} (h : c.Before n (.mark .semicolon :: ps))
    (hp : Cursor.isSeparator (first ps) = false) : c.skipSeparators = c.next := by
  have hskips := c.skipSeparators_skips.of_next (by rw [h.kind]; rfl)
  refine hskips.eq_of_not (Bool.eq_false_iff.mp ?_)
  rw [(h.next rfl).kind]
  exact hp

theorem separator_reads (hp : Cursor.isSeparator (first ps) = false) :
    Parse.Reads n separator (.mark .semicolon :: ps) ps fun _ ↦ True := by
  refine .bind_eq .kind ?_
  exact fun c hc ↦ ⟨(), c.next, congrArg (fun d ↦ Except.ok ((), d)) (hc.semicolon hp), hc.next rfl,
    trivial⟩

theorem endOf_reads (construct : Keyword) :
    Parse.Reads n (endOf construct) (.word Keyword.end_.text :: ps) ps fun _ ↦ True := by
  refine .bind_eq (.atKeyword .end_) ?_
  rw [first_keyword]
  exact .advance rfl

theorem statements_none {nested : Nested} :
    Parse.Reads n (statements nested) (.word Keyword.end_.text :: ps)
      (.word Keyword.end_.text :: ps) (· = []) := by
  have hfirst := first_keyword .end_ ps
  have hloop : Loops n (statementStep nested) [] (.word Keyword.end_.text :: ps)
      (.word Keyword.end_.text :: ps) (· = []) := by
    refine .stop (.bind (skipSeparators_reads (by rw [hfirst]; rfl)) fun _ _ ↦ .bind_eq .kind ?_)
    rw [hfirst]
    exact .pure rfl
  refine .bind_eq hloop.iterate ?_
  exact .pure rfl

theorem protectedBody_none {nested : Nested} (start : Span) (construct : Keyword) :
    Parse.Reads n (protectedBody nested start construct) (.word Keyword.end_.text :: ps) ps
      fun _ ↦ True := by
  have hother (w : Keyword) (hw : (Keyword.end_ == w) = false) :
      (first (.word Keyword.end_.text :: ps) == .keyword w) = false := by
    rw [first_keyword]
    exact hw
  have hrescues : Loops n (rescueStep nested) [] (.word Keyword.end_.text :: ps)
      (.word Keyword.end_.text :: ps) (· = []) := by
    refine .stop (.bind_eq (.atKeyword .rescue) ?_)
    rw [hother .rescue rfl]
    exact .pure rfl
  have hpart (w : Keyword) (hw : (Keyword.end_ == w) = false) :
      Parse.Reads n (part? nested w) (.word Keyword.end_.text :: ps)
        (.word Keyword.end_.text :: ps) (· = none) :=
    .bind_eq (.eatKeyword_other (hother w hw)) (.pure rfl)
  refine .bind_eq statements_none (.bind_eq hrescues.iterate ?_)
  refine .bind_eq (hpart .else_ rfl) (.bind_eq (hpart .ensure rfl) ?_)
  exact .bind (endOf_reads construct) fun _ _ ↦ .pure trivial

/-- What stands around the parameters of a method `f` without statements. -/
def framed (ps : List Piece) : List Piece :=
  .word Keyword.def_.text :: .blank :: .word "f" ::
    (ps ++ [.mark .semicolon, .blank, .word Keyword.end_.text])

def IsFramed (p : Params) (e : Expr) : Prop :=
  ∃ d s, e = ⟨.method d, s⟩ ∧ d.name.name = "f" ∧ d.singleton = false ∧
    View.blank.params d.params = View.blank.params p

theorem isRead_f : Kind.IsRead (.identifier "f") := ⟨by decide, by decide⟩

theorem methodDef_reads {nested : Nested} {p : Params} (h : p.Spelled Kind.IsRead)
    (hp : ∀ v ∈ p.literals, v.isPlain = true) :
    Parse.Reads n (methodDef nested) (framed p.pieces ++ ps) ps (IsFramed p) := by
  have hname : Token.nameKind "f".toList = .identifier "f" := nameKind_of_isRead isRead_f
  have hsplit : framed p.pieces ++ ps = .word Keyword.def_.text :: .blank :: .word "f" ::
      (p.pieces ++ .mark .semicolon :: .blank :: .word Keyword.end_.text :: ps) := by simp [framed]
  rw [hsplit]
  refine .bind .get fun c _ ↦ .bind (.advance rfl) fun start _ ↦ .blank ?_
  generalize hafter : Piece.mark .semicolon :: .blank :: .word Keyword.end_.text :: ps = after
  -- No `self.` stands before the name, and no equals sign after it.
  have hsingleton : Parse.Reads n singleton (.word "f" :: (p.pieces ++ after))
      (.word "f" :: (p.pieces ++ after)) (· = false) := by
    refine .bind .get fun c hc ↦ .bind .get fun c' _ ↦ ?_
    have hkind : c.kind = .identifier "f" := hc.kind.trans hname
    rw [hkind]
    exact .pure rfl
  have hdefined : Parse.Reads n definedName (.word "f" :: (p.pieces ++ after))
      (p.pieces ++ after) (·.name = "f") := by
    refine .bind .get fun c hc ↦ ?_
    have hkind : c.kind = .identifier "f" := hc.kind.trans hname
    have hsecond : c.second = .mark .lParen := hc.second
    rw [hkind, hsecond]
    exact methodName_word
  refine .bind_eq hsingleton (.bind hdefined fun i hi ↦ ?_)
  refine .bind (methodParams_reads h hp) fun q hq ↦ ?_
  subst hafter
  refine .bind_eq (.bind_eq (.eatKeyword_other rfl) (.pure rfl)) ?_
  have hend : Cursor.isSeparator (first (.word Keyword.end_.text :: ps)) = false := by
    rw [first_keyword]
    rfl
  have hseparator : Parse.Reads n separator
      (.mark .semicolon :: .blank :: .word Keyword.end_.text :: ps)
      (.blank :: .word Keyword.end_.text :: ps) fun _ ↦ True := separator_reads hend
  refine .bind hseparator fun _ _ ↦ .blank ?_
  exact .bind (protectedBody_none start .def_) fun b _ ↦ .pure ⟨_, _, rfl, hi, rfl, hq⟩

theorem LeadsUnary.of_primary {nested inner : Nested} {R : Expr → Prop}
    (hinner : nested .operand = operand inner) (hq : ∀ ps, prefixOp? (first (qs ++ ps)) = none)
    (h : ∀ ps, Parse.Reads n (primary inner) (qs ++ ps) ps R) : LeadsUnary n nested qs R := by
  intro ops ps P hp hP
  refine .stop (.bind_eq .kind ?_)
  rw [hq, hinner]
  refine .bind (.bind (h ps) fun e he ↦ ?_) fun e he ↦ .pure he
  have hstop : Loops n (postfixStep inner) e ps ps fun e ↦ P (underPrefixes e ops) :=
    .stop_eq (postfix_stop hp) (hP e he)
  exact hstop.iterate

theorem definition_reads {p : Params} (h : p.Spelled Kind.IsRead)
    (hp : ∀ v ∈ p.literals, v.isPlain = true) :
    Parse.Reads n (parser .expression) (framed p.pieces) [] (IsFramed p) := by
  have hfirst (ps : List Piece) : first (framed p.pieces ++ ps) = .keyword .def_ :=
    first_keyword .def_ _
  refine .bind .get fun c hc ↦ ?_
  obtain ⟨m, hm⟩ : ∃ m, 2 * c.limit = m + 2 := by
    have hbound := hc.bound
    rw [hc.limit]
    exact ⟨2 * n - 2, by omega⟩
  rw [hm]
  have hleads : LeadsUnary n (parserUpTo (m + 1)) (framed p.pieces) (IsFramed p) := by
    refine .of_primary rfl (fun ps ↦ by rw [hfirst]; rfl) fun ps ↦ .bind .kind fun j hj ↦ ?_
    obtain rfl : j = .keyword .def_ := hj.trans (hfirst ps)
    exact methodDef_reads h hp
  have hends : endsExpression (first []) = true := rfl
  have hsimple := (hleads.isOperand (by decide)).simpleAssignment hends
  rw [List.append_nil] at hsimple
  refine .bind .span fun _ _ ↦ .bind (.atMark .lBracket) fun b hb ↦ ?_
  have hother : first (framed p.pieces) = .keyword .def_ := first_keyword .def_ _
  obtain rfl : b = false := by
    rw [hb, hother]
    rfl
  exact .bind_eq (.pure rfl) hsimple

theorem framed_program {p : Params} (h : p.Spelled Kind.IsRead)
    (hp : ∀ v ∈ p.literals, v.isPlain = true) :
    Parse.Reads n program (framed p.pieces) [] fun q ↦ ∃ e s, q = ⟨[e], s⟩ ∧ IsFramed p e := by
  have hfirst : first (framed p.pieces) = .keyword .def_ := first_keyword .def_ _
  exact program_one (statements_one (definition_reads h hp) (by rw [hfirst]; rfl)
    (by rw [hfirst]; rfl) (Nat.succ_pos _))

end Grammar

open Grammar (View framed IsFramed)

theorem Grammar.IsFramed.of_alike {p : Params} {body : List Expr} {e : Expr} (h : IsFramed p e)
    (hsame : View.blank.exprs body = View.blank.exprs [e]) : ∃ e', body = [e'] ∧ IsFramed p e' := by
  obtain ⟨d, s, rfl, hname, hsingleton, hparams⟩ := h
  obtain - | ⟨⟨k, s'⟩, es⟩ := body
  · cases hsame
  · obtain ⟨hhead, htail⟩ := List.cons.inj hsame
    obtain rfl : es = [] := by
      cases es with
      | nil => rfl
      | cons e es => cases htail
    have hkind := (Expr.mk.inj hhead).1
    cases k with
    | method d' =>
      have hdef : View.blank.methodDef d' = View.blank.methodDef d := Expr.Kind.method.inj hkind
      obtain ⟨name, singleton, params, guard, b, doc, span⟩ := d
      obtain ⟨name', singleton', params', guard', b', doc', span'⟩ := d'
      obtain ⟨hname', hsingleton', hparams', -⟩ := MethodDef.mk.inj hdef
      exact ⟨_, rfl, _, s', rfl, (Ident.mk.inj hname').1.trans hname,
        hsingleton'.trans hsingleton, hparams'.trans hparams⟩
    | _ => cases hkind

theorem Reads.program {text : String} {ps : List Piece} (hr : Reads text.toList (Piece.kinds ps))
    (hs : Snug ps) {P : Program → Prop}
    (h : Grammar.Parse.Reads (Piece.size ps + 2) Grammar.program ps [] P) :
    ∃ p q, Program.ofText? text = .ok p ∧ P q ∧
      View.blank.exprs p.body = View.blank.exprs q.body := by
  obtain ⟨ts, hts, hkinds, htouch⟩ := hr.tokens
  rw [String.ofList_toList] at hts
  have hkinds' := hkinds.trans (Piece.words_tokens .start .start ps).symm
  have halike := Grammar.Cursor.ofTokens_alike (Token.ofText?_ended hts)
    (Piece.tokens_ended .start .start ps) hkinds'
    (minusTouches_of_all hkinds' htouch (hs.touches [] .start))
  obtain ⟨q, hq, hP⟩ := Grammar.ofTokens?_reads h .start
  have hsame := Grammar.ofTokens?_same halike
  rw [hq] at hsame
  rw [Program.ofText?, hts]
  dsimp only
  generalize Program.ofTokens? ts = outcome at hsame
  cases hsame with
  | ok hbody => exact ⟨_, q, rfl, hP, hbody⟩

theorem Params.Spelled.framed_reads {p : Params} (h : p.Spelled Kind.IsRead)
    (hp : ∀ v ∈ p.literals, v.isPlain = true) :
    Snug (framed p.pieces) ∧
      Reads ("def f" ++ p.text ++ "; end").toList (Piece.kinds (framed p.pieces)) := by
  obtain ⟨hsnug, hparams⟩ := h.reads hp
  have hafter : Snug [.mark .semicolon, .blank, .word "end"] := trivial
  refine ⟨.cons (.cons (.cons (hsnug.append hafter) nofun) nofun) nofun, ?_⟩
  have hlast : Delimits [] := ⟨nofun, nofun⟩
  have hspace (cs : List Char) : Delimits (' ' :: cs) := .of_cons (by decide)
  have hend := (Shown.keyword .end_).reads hlast .nil
  have hafter : Reads (';' :: ' ' :: "end".toList) (.mark .semicolon :: _) :=
    .mark (m := .semicolon) (by decide) (by decide) (fun _ ↦ rfl)
      (.space ((Shown.keyword .end_).head []) hend)
  have hopens : Delimits (p.text.toList ++ ';' :: ' ' :: "end".toList) := by
    rw [p.text_chars]
    exact .of_cons (by decide)
  have hname := (Shown.identifier Grammar.isRead_f).reads hopens (hparams _ _ hafter)
  have hdef := (Shown.keyword .def_).reads (hspace _)
    (.space ((Shown.identifier Grammar.isRead_f).head _) hname)
  have hchars : ("def f" ++ p.text ++ "; end").toList = Keyword.def_.text.toList ++
      ' ' :: ("f".toList ++ (p.text.toList ++ ';' :: ' ' :: "end".toList)) := by
    simp only [String.toList_append, List.append_assoc]
    rfl
  rw [hchars]
  simpa [framed] using hdef

/-- The parameters of a method are shown, as the signature in the outline, in a form that a
definition can have, and that definition has the same parameters. Only numbers with a fraction and
strings with characters that need an escape by their code point are left out. -/
theorem parameters_read_back {text : String} {p : Program} (hp : Program.ofText? text = .ok p)
    {outer : List String} {d : MethodDef} {s : Span} (hd : Expr.Defines p.body outer ⟨.method d, s⟩)
    (hplain : ∀ v ∈ d.params.literals, v.isPlain = true) :
    (∃ o, Definition.Listed p.outline outer o ∧ o.name = d.name.name ∧
      o.signature = some d.params.text) ∧
    ∃ d' s' s'', Program.ofText? ("def f" ++ d.params.text ++ "; end") =
        .ok ⟨[⟨.method d', s'⟩], s''⟩ ∧ d'.name.name = "f" ∧ d'.singleton = false ∧
      View.blank.params d'.params = View.blank.params d.params := by
  have hspelled : d.params.Spelled Kind.IsRead := hd.declares (Program.ofText?_declares hp)
  refine ⟨⟨_, hd.listed (Expr.definition?_method d s), rfl, rfl⟩, ?_⟩
  obtain ⟨hsnug, hreads⟩ := hspelled.framed_reads hplain
  obtain ⟨⟨body, s''⟩, _, htext, ⟨e, _, rfl, he⟩, hbody⟩ :=
    hreads.program hsnug (Grammar.framed_program hspelled hplain)
  obtain ⟨_, rfl, d', s', rfl, hd'⟩ := he.of_alike hbody
  exact ⟨d', s', s'', htext, hd'⟩

/-- The only statement of the program is a method whose parameters are shown as `shown`. -/
def Program.showsMethod (p : Program) (shown : String) : Bool :=
  match p.body with
  | [⟨.method d, _⟩] => d.params.literals.all Literal.isPlain && d.params.text == shown
  | _ => false

theorem patterns_read_back : ∃ p d s,
    Program.ofText? "def g( a?,b : Geo . Point, [x,- 2,*rest], :ok!, \"q\\\"\t\", _, *, & f)\nend" =
      .ok p ∧
    Expr.Defines p.body [] ⟨.method d, s⟩ ∧ (∀ v ∈ d.params.literals, v.isPlain = true) ∧
    d.params.text = "(a?, b: Geo.Point, [x, -2, *rest], :ok!, \"q\\\"\\t\", _, *, &f)" ∧
    ∃ d' s' s'', Program.ofText? ("def f" ++ d.params.text ++ "; end") =
        .ok ⟨[⟨.method d', s'⟩], s''⟩ ∧ d'.name.name = "f" ∧ d'.singleton = false ∧
      View.blank.params d'.params = View.blank.params d.params := by
  have hok : (Program.ofText?
      "def g( a?,b : Geo . Point, [x,- 2,*rest], :ok!, \"q\\\"\t\", _, *, & f)\nend").toOption.any
      (·.showsMethod "(a?, b: Geo.Point, [x, -2, *rest], :ok!, \"q\\\"\\t\", _, *, &f)") =
        true := by
    decide +kernel
  generalize htext : Program.ofText? _ = outcome at hok
  cases outcome with
  | error e => cases hok
  | ok p =>
    have hshows : p.showsMethod _ = true := hok
    unfold Program.showsMethod at hshows
    split at hshows
    · rename_i d s hbody
      obtain ⟨hplain, hshown⟩ := Bool.and_eq_true_iff.mp hshows
      have hplain := List.all_eq_true.mp hplain
      have hd : Expr.Defines p.body [] ⟨.method d, s⟩ := .here (hbody ▸ List.mem_cons_self)
      exact ⟨_, d, s, rfl, hd, hplain, beq_iff_eq.mp hshown,
        (parameters_read_back htext hd hplain).2⟩
    · cases hshows

end Quill
