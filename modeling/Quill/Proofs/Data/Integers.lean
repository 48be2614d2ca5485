import Quill.Proofs.Data.Text
import Quill.Proofs.Fresh
import Quill.Proofs.Printing.Parameters
import Quill.Proofs.Texts

/-!
# Integers in programs

Main statement: `integers_written`. What is shown for an integer is a program with that value, and
as a pattern it fits no other integer. This is true of all integers but the least, whose digits are
out of range without the minus.
-/

namespace Quill

open Piece

namespace Grammar

variable {n k : Nat} {nested : Nested} {ps qs : List Piece} {R : Expr → Prop} {value : Literal}

/-- The expression tests whether something that `R` tells of fits the literal. -/
def IsTest (R : Expr → Prop) (value : Literal) (e : Expr) : Prop :=
  ∃ l s, R l ∧ e.kind = .fits l (.literal value s)

theorem pattern_literal (hv : value.isPlain = true) :
    Parse.Reads n pattern (value.pieces ++ ps) ps fun p ↦ ∃ s, p = .literal value s := by
  refine .bind .get fun c hc ↦ ?_
  have hbound := hc.bound
  obtain ⟨m, rfl⟩ : ∃ m, n = m + 1 := ⟨n - 1, by omega⟩
  rw [hc.limit]
  exact literal_reads hv

theorem infixStep_test (hv : value.isPlain = true) {right : Nat → Parse Expr} {floor : Nat}
    {left : Left} (hfloor : floor ≤ Infix.equality) (hleft : Infix.equality ≤ left.level)
    (hl : R left.expr) :
    Parse.Reads n (infixStep right floor left) (Tree.spaced .matchOp ++ (value.pieces ++ ps)) ps
      (Sum.elim (fun l ↦ IsTest R value l.expr ∧ l.level = joins Infix.equality)
        fun _ ↦ False) := by
  have hbinds : ¬ (decide (Infix.fits.level < floor) || decide (left.level < Infix.fits.level)) =
      true := by
    have hlevel : Infix.fits.level = Infix.equality := rfl
    rw [Bool.or_eq_true, decide_eq_true_iff, decide_eq_true_iff]
    omega
  refine .blank (.bind .kind fun j hj ↦ ?_)
  obtain rfl : j = .mark .matchOp := hj
  rw [show Infix.ofKind? (.mark .matchOp) = some .fits from rfl]
  dsimp only
  rw [if_neg hbinds]
  refine .bind (.advance rfl) fun _ _ ↦ .bind .skipNewlines fun _ _ ↦ .blank ?_
  refine .bind (pattern_literal hv) ?_
  rintro _ ⟨s, rfl⟩
  exact .pure ⟨⟨left.expr, s, hl, rfl⟩, rfl⟩

theorem spine_test (hl : LeadsUnary n nested qs R) (hv : value.isPlain = true) :
    Spine n nested (qs ++ (Tree.spaced .matchOp ++ value.pieces)) (IsTest R value)
      Infix.equality := by
  intro m floor ps rs P hm hfloor hends _ hloops
  have hleft : Spine n nested qs R 8 := hl.spine (by decide)
  have htight : Infix.equality ≤ joins 8 := by decide
  have hfirst : first (Tree.spaced .matchOp ++ (value.pieces ++ ps)) = .mark .matchOp := rfl
  rw [List.append_assoc, List.append_assoc]
  refine hleft m floor _ rs P hm (Nat.le_trans hfloor (by decide)) (by rw [hfirst]; rfl) ?_
    fun e he ↦ .more (infixStep_test hv hfloor htight he) ?_ ?_
  · rw [follow, hfirst]
    decide
  · change size ps < size (.mark .matchOp :: (value.pieces ++ ps))
    rw [size_mark, size_append]
    omega
  · rintro ⟨e, level⟩ ⟨he, rfl⟩
    exact hloops e he

theorem expression_unbracketed {ps : List Piece} (hps : (first qs == .mark .lBracket) = false)
    (h : Parse.Reads n (simpleAssignment nested) qs ps R) :
    Parse.Reads n (expression nested) qs ps R := by
  refine .bind .span fun _ _ ↦ .bind_eq (.atMark .lBracket) ?_
  rw [hps]
  exact .bind_eq (.pure rfl) h

theorem test_reads (x : Variable) (hv : value.isPlain = true) :
    Parse.Reads n program (x.piece :: (Tree.spaced .matchOp ++ value.pieces)) []
      fun p ↦ ∃ e s, p = ⟨[e], s⟩ ∧ IsTest (Tree.atom (.var x)).Spanned value e := by
  have hfirst : first (x.piece :: (Tree.spaced .matchOp ++ value.pieces)) = x.piece.kind :=
    first_cons x.visible _
  have hbracket : (x.piece.kind == .mark .lBracket) = false :=
    Bool.eq_false_iff.mpr fun heq ↦ x.not_mark _ (eq_of_beq_mark heq)
  obtain ⟨hseparator, hbody⟩ := startsOperand_statement (startsOperand_variable x)
  rw [← hfirst] at hbracket hseparator hbody
  have hstatement : Parse.Reads n (parser .expression)
      (x.piece :: (Tree.spaced .matchOp ++ value.pieces)) []
      (IsTest (Tree.atom (.var x)).Spanned value) := by
    refine .bind .get fun c hc ↦ ?_
    have hbound := hc.bound
    obtain ⟨m, hm⟩ : ∃ m, 2 * c.limit = m + 2 := ⟨2 * c.limit - 2, by rw [hc.limit]; omega⟩
    have hs : Serves n 0 (parserUpTo (m + 1)) :=
      ⟨parserUpTo_reads (by omega), parserUpTo m, parserUpTo_reads (by omega), rfl⟩
    have hleft := (leads hs (.atom (.var x)) rfl (size_cons x.visible []).le).toUnary
    have hoperand : IsOperand n (parserUpTo (m + 1)) _ _ 1 :=
      ⟨_, by decide, spine_test hleft hv, fun h ↦ absurd h (by decide)⟩
    have hread : Parse.Reads n (simpleAssignment (parserUpTo (m + 1))) (_ ++ []) [] _ :=
      hoperand.simpleAssignment rfl
    rw [List.append_nil] at hread
    rw [hm]
    exact expression_unbracketed hbracket hread
  exact program_one (statements_one hstatement hseparator hbody
    (by rw [size_cons x.visible]; exact Nat.succ_pos _))

end Grammar

section

variable {n : Int64} (hn : n ≠ Int64.minValue)

include hn

theorem spell_intPieces : (toString n.toInt).toList = spell (Tree.intPieces n) :=
  Datum.spell_pieces (.scalar (.int ⟨n, hn⟩))

theorem integer_read :
    ∃ e s, Program.ofText? (toString n.toInt) = .ok ⟨[e], s⟩ ∧ e.kind = .literal (.int n) := by
  obtain ⟨e, s, hread, he⟩ := (Datum.scalar (.int ⟨n, hn⟩)).text_read
  have htext : (Datum.scalar (.int ⟨n, hn⟩)).text = toString n.toInt := String.ofList_toList
  rw [htext] at hread
  exact ⟨e, s, hread, (Scalar.spanned_iff (.int ⟨n, hn⟩) e).mp he⟩

theorem integer_test_read (x : VariableName) :
    ∃ e l s s', Program.ofText? (x.text ++ " =: " ++ toString n.toInt) = .ok ⟨[e], s⟩ ∧
      e.kind = .fits l (.literal (.int n) s') ∧ l.kind = .name x.text := by
  have hint := Tree.intPieces_readable hn
  have hlexes : Lexes (.word x.text :: (Tree.spaced .matchOp ++ Tree.intPieces n) ++ []) :=
    ((Variable.local_ x).readable.append (.spaced (by decide) hint)).lexes [] trivial
      ⟨nofun, nofun⟩
  rw [List.append_nil] at hlexes
  have htext : x.text ++ " =: " ++ toString n.toInt =
      String.ofList (spell (.word x.text :: (Tree.spaced .matchOp ++ Tree.intPieces n))) := by
    rw [← String.toList_inj, String.toList_ofList, String.toList_append, String.toList_append,
      spell_intPieces hn, spell_cons, spell_append, List.append_assoc]
    rfl
  obtain ⟨stop, htokens⟩ := Token.ofText?_spell hlexes
  obtain ⟨_, hprogram, e, s, rfl, l, s', hl, he⟩ := Grammar.ofTokens?_reads
    (Grammar.test_reads (.local_ x) (show (Literal.int n).isPlain = true from rfl)) stop
  have hread : Program.ofTokens? (Piece.tokens .start
      (.word x.text :: (Tree.spaced .matchOp ++ Tree.intPieces n)) ++ [Token.endAt stop]) =
      .ok ⟨[e], s⟩ := hprogram
  refine ⟨e, l, s, s', ?_, he, ?_⟩
  · rw [Program.ofText?, htext, htokens]
    dsimp only
    rw [hread]
  · cases hl
    rfl

end

def State.Allows (s : State) (steps : Nat) : Prop :=
  ∀ limit, s.config.stepLimit = some limit → s.steps + steps ≤ limit

theorem State.Allows.unlimited {s : State} (h : s.config.stepLimit = none) (steps : Nat) :
    s.Allows steps := by
  intro limit hlimit
  rw [h] at hlimit
  cases hlimit

theorem Eval.Gives.tick_allowed {s : State} (h : s.Allows 1) :
    Eval.tick.Gives s (.ok ()) { s with steps := s.steps + 1 } := by
  have htick : Eval.tick s = .done (.ok ()) { s with steps := s.steps + 1 } := by
    unfold Eval.tick
    dsimp only
    split
    · rename_i limit hlimit
      rw [if_neg (Nat.not_lt.mpr (h limit hlimit))]
    · rfl
  exact ⟨[], htick ▸ .done⟩

theorem Task.Gives.eval_allowed {s s' : State} {e : Expr} {ctx : Context} {o : Outcome Value}
    (hs : s.Allows 1) (h : (Eval.expression e ctx).Gives { s with steps := s.steps + 1 } o s') :
    (Task.eval e ctx).Gives s o s' := of_work (.answering (.bind (.tick_allowed hs) h))

theorem Task.Gives.literal {s : State} {e : Expr} {ctx : Context} {value : Literal}
    (hs : s.Allows 1) (he : e.kind = .literal value) :
    (Task.eval e ctx).Gives s (.ok (.ofLiteral value)) { s with steps := s.steps + 1 } := by
  refine .eval_allowed hs ?_
  rw [Eval.expression, he]
  exact .pure _ _

theorem Task.Gives.variable {s : State} {e : Expr} {ctx : Context} {name : String} {v : Value}
    (hs : s.Allows 1) (he : e.kind = .name name) (hv : s.scopes.get? ctx.scope name = some v) :
    (Task.eval e ctx).Gives s (.ok v) { s with steps := s.steps + 1 } := by
  refine .eval_allowed hs ?_
  rw [Eval.expression, he]
  refine .bind (.read _ _) ?_
  dsimp only
  rw [hv]
  exact .pure _ _

theorem Eval.Gives.matchPattern_int (n m : Int64) (ctx : Context) (span : Span) (s : State) :
    (Eval.matchPattern ctx [] (.literal (.int n) span) (.int m)).Gives s
      (.ok (if m = n then some [] else none)) s := by
  have hequal (s : State) :
      (Eval.valuesEqual (.ofLiteral (.int n)) (.int m)).Gives s (.ok (n == m)) s := .pure _ s
  rw [Eval.matchPattern]
  refine .bind (.keeping _ (hequal _)) ?_
  by_cases h : m = n
  · rw [if_pos h, beq_iff_eq.mpr h.symm]
    exact .pure _ _
  · rw [if_neg h, beq_false_of_ne (Ne.symm h)]
    exact .pure _ _

theorem Task.Gives.test_int {s : State} {e l : Expr} {ctx : Context} {name : String}
    {n m : Int64} {span : Span} (hs : s.Allows 2) (he : e.kind = .fits l (.literal (.int n) span))
    (hl : l.kind = .name name) (hm : s.scopes.get? ctx.scope name = some (.int m)) :
    (Task.eval e ctx).Gives s (.ok (.bool (m = n))) { s with steps := s.steps + 2 } := by
  refine .eval_allowed (fun limit h ↦ Nat.le_of_succ_le (hs limit h)) ?_
  have hvalue : (Eval.eval l ctx).Gives { s with steps := s.steps + 1 } (.ok (.int m))
      { s with steps := s.steps + 2 } := .perform (.variable hs hl hm)
  rw [Eval.expression, he]
  refine .bind hvalue (.bind (.keeping _ (.matchPattern_int n m ctx span _)) ?_)
  by_cases h : m = n
  · rw [if_pos h, decide_eq_true h]
    exact .bind (.change _ _) (.pure _ _)
  · rw [if_neg h, decide_eq_false h]
    exact .pure _ _

/-- The text is a program with this value, which takes so many steps and changes nothing else. -/
def Interpreter.Evaluates (i : Interpreter) (text : String) (v : Value) (steps : Nat) : Prop :=
  ∃ least, ∀ fuel, least ≤ fuel →
    i.runText text fuel = some (.ok v, ⟨{ i.rested.state with steps }⟩)

theorem Interpreter.Evaluates.of_gives {i : Interpreter} {text : String} {e : Expr} {span : Span}
    {v : Value} {steps : Nat} (hread : Program.ofText? text = .ok ⟨[e], span⟩)
    (h : (Task.eval e State.topContext).Gives i.rested.state (.ok v)
      { i.rested.state with steps }) : i.Evaluates text v steps := by
  obtain ⟨least, hrun⟩ := h.statement
  have hmachine : (i.machine ⟨[e], span⟩).run least =
      some (.ok v, { i.rested.state with steps }) := hrun
  refine ⟨least, fun fuel hfuel ↦ ?_⟩
  rw [runText, hread]
  exact run_of_machine hmachine fuel hfuel

/-- Every integer but the least one is shown in the same way to all readers. This text is a literal,
so where a step is allowed it is a program with that value; and where a variable is an integer, the
test against the text finds out whether it is the same one. -/
theorem integers_written (n : Int64) (hn : n ≠ Int64.minValue) :
    (∀ (a : Audience) (s : State), (a.text (.int n)).Gives s (.ok (toString n.toInt)) s ∧
      (s.Reached → s.types.AllBuiltIn a.message → s.frames.size < s.config.maxCallDepth →
        ∀ span, (Eval.send (.int n) a.message [] none span).Gives s
          (.ok (.str (toString n.toInt))) s)) ∧
    (∃ e s, Program.ofText? (toString n.toInt) = .ok ⟨[e], s⟩ ∧ e.kind = .literal (.int n)) ∧
    (∀ i : Interpreter, i.rested.state.Allows 1 →
      i.Evaluates (toString n.toInt) (.int n) 1) ∧
    ∀ (i : Interpreter) (x : VariableName) (m : Int64), i.rested.state.Allows 2 →
      i.state.scopes.get? State.mainScope x.text = some (.int m) →
        i.Evaluates (x.text ++ " =: " ++ toString n.toInt) (.bool (m = n)) 2 := by
  refine ⟨fun a s ↦ ?_, integer_read hn, fun i hi ↦ ?_, fun i x m hi hm ↦ ?_⟩
  · have hdirect : a.direct? s (.int n) = some (toString n.toInt) := by cases a <;> rfl
    refine ⟨Audience.text_of_direct hdirect, fun hs hcore hroom span ↦ ?_⟩
    have hplain : s.ShowsPlainly a (.int n) := ⟨hs, hcore, rfl⟩
    exact (hplain.answers hdirect span).send hroom
  · obtain ⟨e, s, hread, he⟩ := integer_read hn
    exact .of_gives hread (.literal hi he)
  · obtain ⟨e, l, s, s', hread, he, hl⟩ := integer_test_read hn x
    exact .of_gives hread (.test_int hi he hl hm)

/-- The least integer that can be written, in a new interpreter and where `x` is 5. -/
theorem least_numeral_written :
    Int64.minValue + 1 ≠ Int64.minValue ∧
    (Eval.send (.int (Int64.minValue + 1)) "to_s" [] none .origin).Gives (.initial .standard)
      (.ok (.str "-9223372036854775807")) (.initial .standard) ∧
    Interpreter.Evaluates ⟨.initial .standard⟩ "-9223372036854775807" (.int (Int64.minValue + 1))
      1 ∧
    Interpreter.Evaluates ⟨(State.initial .standard).define State.mainScope "x" (.int 5)⟩
      "x =: -9223372036854775807" (.bool false) 2 := by
  have hn : Int64.minValue + 1 ≠ Int64.minValue := by decide
  obtain ⟨htexts, -, hvalue, htest⟩ := integers_written (Int64.minValue + 1) hn
  have hcore : (State.initial .standard).types.AllBuiltIn Audience.output.message := by
    decide +kernel
  exact ⟨hn, (htexts .output _).2 (.initial _) hcore (by decide) .origin,
    hvalue ⟨.initial .standard⟩ (.unlimited rfl 1),
    htest ⟨_⟩ ⟨⟨"x", by decide⟩, by decide⟩ 5 (.unlimited rfl 2) rfl⟩

/-- The digits of the least integer are out of range. -/
theorem least_integer_unwritten : ¬ ∀ (n : Int64) (i : Interpreter), i.rested.state.Allows 1 →
    ∃ steps, i.Evaluates (toString n.toInt) (.int n) steps := by
  intro h
  obtain ⟨steps, least, hrun⟩ := h Int64.minValue ⟨.initial .standard⟩ (.unlimited rfl 1)
  have outOfRange : Program.ofText? (toString Int64.minValue.toInt) =
      .error (.lex ⟨.integerOutOfRange "9223372036854775808", ⟨⟨1, 2⟩, ⟨1, 20⟩⟩⟩) := rfl
  have hend := hrun least (Nat.le_refl least)
  rw [Interpreter.runText, outOfRange] at hend
  cases hend

end Quill
