import Quill.Proofs.Division
import Quill.Proofs.Fresh
import Quill.Proofs.Printing.Precedence

/-!
# Calculations

Whole numbers with a minus in front and the five operations. Main statement: `calculation_runs`. A
calculation that is written as a program gives its exact value, or the error of the operation that
is the first to fail.
-/

namespace Quill

inductive Calculation where
  | number (n : Numeral)
  | neg (operand : Calculation)
  | binary (op : Arithmetic) (left right : Calculation)

inductive Failure where
  | overflow
  | zeroDivision
  deriving DecidableEq

namespace Failure

def type : Failure → String
  | overflow => "RuntimeError"
  | zeroDivision => "ZeroDivisionError"

def message : Failure → String
  | overflow => "integer overflow"
  | zeroDivision => "divided by 0"

def ofResult? (z : Int) : Option Failure :=
  if Int64.minValue.toInt ≤ z ∧ z ≤ Int64.maxValue.toInt then none else some overflow

def fault : Failure → Fault
  | overflow => .overflow
  | zeroDivision => .divisionByZero

end Failure

namespace Arithmetic

def operator : Arithmetic → Operator
  | add => .add | sub => .sub | mul => .mul | div => .div | mod => .mod

/-- Division rounds down, and a remainder has the sign of the divisor. -/
def exact : Arithmetic → Int → Int → Int
  | add, a, b => a + b
  | sub, a, b => a - b
  | mul, a, b => a * b
  | div, a, b => a.fdiv b
  | mod, a, b => a.fmod b

def divides : Arithmetic → Bool
  | div | mod => true
  | _ => false

def failure? (op : Arithmetic) (a b : Int) : Option Failure :=
  if op.divides ∧ b = 0 then some .zeroDivision else Failure.ofResult? (op.exact a b)

end Arithmetic

inductive Side where
  | left
  | right
  deriving DecidableEq

/-- A failure of an operand as one of the operation. -/
def Side.under (side : Side) (failure : List Side × Failure) : List Side × Failure :=
  (side :: failure.1, failure.2)

/-- The part of an expression that the sides lead to, from the outermost operation on. -/
def Expr.part (e : Expr) : List Side → Expr
  | [] => e
  | side :: place => match e.kind, side with
    | .binary _ l _, .left => l.part place
    | .binary _ _ r, .right => r.part place
    | .unary _ operand, .left => operand.part place
    | _, _ => e

namespace Calculation

def tree : Calculation → Tree
  | number n => .int n.value
  | neg c => .unary .neg c.tree
  | binary op l r => .binary op.operator l.tree r.tree

/-- The calculation as a program, with parentheses only where precedence asks for them. -/
def text (c : Calculation) : String := c.tree.text

def exact : Calculation → Int
  | number n => n.value.toInt
  | neg c => -c.exact
  | binary op l r => op.exact l.exact r.exact

/-- The operations that fail if the operands have their exact values, with their places, in the
order in which operations are done: the left operand, then the right one, then the whole. -/
def failures : Calculation → List (List Side × Failure)
  | number _ => []
  | neg c =>
    c.failures.map Side.left.under ++ (Failure.ofResult? (-c.exact)).toList.map ([], ·)
  | binary op l r =>
    l.failures.map Side.left.under ++ r.failures.map Side.right.under ++
      (op.failure? l.exact r.exact).toList.map ([], ·)

/-- How a program ends that is the calculation and was read as `e`: with the exact value, or with
an error of the operation that fails first. -/
def Answers (c : Calculation) (e : Expr) (r : Result) : Prop :=
  match c.failures.head? with
  | none => ∃ n, r = .ok (.int n) ∧ n.toInt = c.exact
  | some (place, f) => ∃ backtrace,
    r = .error (.uncaught f.type f.message (e.part place).span backtrace)

end Calculation

/-- The outcome is the exact result, unless there is a failure. -/
def State.Computes (s : State) (f : Option Failure) (z : Int) (span : Span)
    (o : Outcome Value) : Prop :=
  match f with
  | none => ∃ n, o = .ok (.int n) ∧ n.toInt = z
  | some f => s.Raises f.fault span o

theorem State.computes_lasting (f : Option Failure) (z : Int) (span : Span) :
    Lasting fun s o ↦ s.Computes f z span o := by
  intro s s' o hs h
  cases f with
  | none => exact h
  | some f => exact raises_lasting f.fault span hs h

theorem checkedInt_eq (z : Int) :
    checkedInt z = match Failure.ofResult? z with
      | none => .ok (Int64.ofInt z)
      | some f => .error f.fault := by
  rw [checkedInt, Failure.ofResult?]
  split <;> rfl

theorem toInt_of_fits {z : Int} (h : Failure.ofResult? z = none) : (Int64.ofInt z).toInt = z := by
  rw [Failure.ofResult?, Int64.toInt_minValue, Int64.toInt_maxValue] at h
  split at h
  · rename_i hz
    exact Int64.toInt_ofInt_of_le hz.1 (Int.lt_of_le_sub_one hz.2)
  · cases h

theorem checkedInt_toInt (n : Int64) : checkedInt n.toInt = .ok n := by
  rw [checkedInt, if_pos ⟨n.minValue_le_toInt, n.toInt_le⟩, Int64.ofInt_toInt]

theorem Arithmetic.onInts_div {a b : Int64} (hb : b ≠ 0) :
    div.onInts a b = checkedInt (a.toInt.fdiv b.toInt) := by
  simp only [onInts, hb, if_false]
  cases hq : Int64.floorDiv? a b with
  | none =>
    obtain ⟨rfl, rfl⟩ := Int64.floorDiv?_eq_none.mp hq
    decide
  | some q => rw [← Int64.toInt_floorDiv hb hq, checkedInt_toInt]

theorem Arithmetic.onInts_mod {a b : Int64} (hb : b ≠ 0) :
    mod.onInts a b = checkedInt (a.toInt.fmod b.toInt) := by
  simp only [onInts, hb, if_false]
  rw [← Int64.toInt_floorMod hb, checkedInt_toInt]

theorem Arithmetic.onInts_eq (op : Arithmetic) (a b : Int64) :
    op.onInts a b = match op.failure? a.toInt b.toInt with
      | none => .ok (Int64.ofInt (op.exact a.toInt b.toInt))
      | some f => .error f.fault := by
  have hzero : b.toInt = 0 ↔ b = 0 := by rw [← Int64.toInt_inj]; rfl
  unfold failure?
  cases op with
  | div | mod =>
    by_cases hb : b = 0
    · simp [onInts, divides, hb, Failure.fault]
    · simp only [onInts_div hb, onInts_mod hb, divides, hzero, hb, and_false, checkedInt_eq]
      rfl
  | _ => exact checkedInt_eq _

theorem Arithmetic.toInt_exact {op : Arithmetic} {a b : Int} (h : op.failure? a b = none) :
    (Int64.ofInt (op.exact a b)).toInt = op.exact a b := by
  unfold failure? at h
  split at h
  · cases h
  · exact toInt_of_fits h

namespace Routine

def arithmeticEntry (op : Arithmetic) : Entry :=
  fixed .number .number op.operator.method [.number] (.number (.arithmetic op))

def negateEntry : Entry := fixed .number .number "-@" [] (.number .negate)

theorem arithmeticEntry_mem (op : Arithmetic) : arithmeticEntry op ∈ numberEntries := by
  cases op <;> decide

theorem negateEntry_mem : negateEntry ∈ numberEntries := by decide

end Routine

theorem checkedInt_yields (z : Int) (span : Span) (s : State) :
    (Eval.calculated (checkedInt z) span >>= fun n ↦ pure (Value.int n)).Yields s fun s' o ↦
      s'.Computes (Failure.ofResult? z) z span o := by
  rw [checkedInt_eq]
  cases hf : Failure.ofResult? z with
  | none => exact .pure ⟨_, rfl, toInt_of_fits hf⟩
  | some f => exact .fault f.fault span s

theorem NumberRoutine.arithmetic_run (op : Arithmetic) (a b : Int64) (span : Span) (s : State) :
    ((arithmetic op).run ⟨.int a, [.int b], none, span⟩).Yields s fun s' o ↦
      s'.Computes (op.failure? a.toInt b.toInt) (op.exact a.toInt b.toInt) span o := by
  change (Eval.calculated ((op.onInts a b).map Value.int) span).Yields _ _
  rw [op.onInts_eq]
  cases hf : op.failure? a.toInt b.toInt with
  | none => exact .pure ⟨_, rfl, op.toInt_exact hf⟩
  | some f => exact .fault f.fault span s

section

variable {s : State} (hs : s.Fresh) (hroom : s.frames.size < s.config.maxCallDepth)

include hs hroom

theorem arithmetic_yields (op : Arithmetic) (a b : Int64) (span : Span) :
    (Task.send op.operator.method ⟨.int a, [.int b], none, span⟩).Yields s fun s' o ↦
      s'.Computes (op.failure? a.toInt b.toInt) (op.exact a.toInt b.toInt) span o :=
  Task.Yields.offered (State.computes_lasting _ _ span)
    (hs.numbers _ (Routine.arithmeticEntry_mem op)) rfl rfl rfl hroom fun _ _ ↦
      NumberRoutine.arithmetic_run op a b span _

theorem operation_yields (op : Arithmetic) (a b : Int64) (span : Span) :
    (Eval.send (.int a) op.operator.method [.int b] none span >>= fun v ↦
      pure (if op.operator = .notEq then .bool (!v.isTruthy) else v)).Yields s fun s' o ↦
        s'.Computes (op.failure? a.toInt b.toInt) (op.exact a.toInt b.toInt) span o := by
  refine .bind (.perform (arithmetic_yields hs hroom op a b span)) (fun s' v _ hc ↦ .pure ?_)
    fun _ _ hc ↦ hc
  have hvalue : (if op.operator = .notEq then .bool (!v.isTruthy) else v) = v := by
    cases op <;> rfl
  rw [hvalue]
  exact hc

theorem negate_yields (a : Int64) (span : Span) :
    (Task.send "-@" ⟨.int a, [], none, span⟩).Yields s fun s' o ↦
      s'.Computes (Failure.ofResult? (-a.toInt)) (-a.toInt) span o :=
  Task.Yields.offered (State.computes_lasting _ _ span)
    (hs.numbers _ Routine.negateEntry_mem) rfl rfl rfl hroom fun _ _ ↦
      checkedInt_yields _ span _

end

namespace Calculation

/-- The outcome is the exact value, or the error of the operation that fails first. -/
def Ends (c : Calculation) (e : Expr) (s : State) (o : Outcome Value) : Prop :=
  match c.failures.head? with
  | none => ∃ n, o = .ok (.int n) ∧ n.toInt = c.exact
  | some (place, f) => s.Raises f.fault (e.part place).span o

theorem ends_lasting (c : Calculation) (e : Expr) : Lasting (c.Ends e) := by
  intro s s' o hs h
  unfold Ends at h ⊢
  split at h
  · exact h
  · exact State.raises_lasting _ _ hs h

theorem Ends.ok {c : Calculation} {e : Expr} {s : State} {v : Value} (h : c.Ends e s (.ok v)) :
    c.failures = [] ∧ ∃ n, v = .int n ∧ n.toInt = c.exact := by
  unfold Ends at h
  cases hf : c.failures with
  | nil =>
    rw [hf] at h
    obtain ⟨n, hv, hn⟩ := h
    cases hv
    exact ⟨rfl, n, rfl, hn⟩
  | cons f fs =>
    rw [hf] at h
    obtain ⟨_, _, hv, -⟩ := h
    cases hv

theorem Ends.error {c : Calculation} {e : Expr} {s : State} {u : Unwind}
    (h : c.Ends e s (.error u)) : ∃ place f fs, c.failures = (place, f) :: fs ∧
      s.Raises f.fault (e.part place).span (.error u : Outcome Value) := by
  unfold Ends at h
  cases hf : c.failures with
  | nil =>
    rw [hf] at h
    obtain ⟨_, hv, -⟩ := h
    cases hv
  | cons f fs =>
    rw [hf] at h
    exact ⟨f.1, f.2, fs, rfl, h⟩

theorem ends_of_computes {c : Calculation} {e : Expr} {s : State} {f : Option Failure} {z : Int}
    {o : Outcome Value} (hf : c.failures = f.toList.map ([], ·)) (hz : z = c.exact)
    (h : s.Computes f z e.span o) : c.Ends e s o := by
  unfold Ends
  rw [hf]
  subst hz
  cases f with
  | none => exact h
  | some f => exact h

theorem ends_of_operand (side : Side) {c c' : Calculation} {e e' : Expr} {s : State} {u : Unwind}
    (hpart : ∀ place, e.part (side :: place) = e'.part place)
    (hf : c'.failures.map side.under <+: c.failures) (h : c'.Ends e' s (.error u)) :
    c.Ends e s (.error u) := by
  obtain ⟨place, f, rest, hc', hraises⟩ := h.error
  obtain ⟨fs, hf⟩ := hf
  rw [hc'] at hf
  rw [← hpart] at hraises
  unfold Ends
  rw [← hf]
  exact hraises

theorem eval_yields (c : Calculation) {e : Expr} (he : c.tree.Spanned e) (ctx : Context) {s : State}
    (hs : s.Fresh) (hroom : s.frames.size < s.config.maxCallDepth) :
    (Task.eval e ctx).Yields s (c.Ends e) := by
  induction c generalizing e s with
  | number n =>
    cases he
    refine .eval (by rw [hs.config]; rfl) ?_
    exact .pure ⟨n.value, rfl, rfl⟩
  | neg c ih =>
    cases he with
    | unary he =>
      refine .eval (by rw [hs.config]; rfl) ?_
      refine .bind (.perform (ih he hs.ticked hroom)) (fun s₁ v hgrows hend ↦ ?_) ?_
      · obtain ⟨hf, n, rfl, hn⟩ := hend.ok
        have hs₁ := hs.ticked.grows hgrows
        refine Eval.Yields.mono (.perform (negate_yields hs₁ (hgrows.room hroom) n _)) ?_
        intro s' o hc
        rw [hn] at hc
        refine ends_of_computes ?_ rfl hc
        rw [failures, hf, List.map_nil, List.nil_append]
      · intro s₁ u hu
        exact ends_of_operand .left (fun _ ↦ rfl) (List.prefix_append _ _) hu
  | binary op l r ihl ihr =>
    cases he with
    | binary hl hr =>
      refine .eval (by rw [hs.config]; rfl) ?_
      refine .bind (.perform (ihl hl hs.ticked hroom)) (fun s₁ v hgrows hend ↦ ?_) ?_
      · obtain ⟨hfl, a, rfl, ha⟩ := hend.ok
        -- The left operand has grown the state, which is as fresh and as roomy as before.
        have hs₁ := hs.ticked.grows hgrows
        have hroom₁ := hgrows.room hroom
        refine .bind (.keeping (ends_lasting r _) _ (.perform (ihr hr hs₁.held hroom₁))) ?_ ?_
        · intro s₂ w hgrows₂ hend₂
          obtain ⟨hfr, b, rfl, hb⟩ := hend₂.ok
          have hown : (binary op l r).failures =
              (op.failure? l.exact r.exact).toList.map ([], ·) := by
            rw [failures, hfl, hfr]
            rfl
          have hop := operation_yields (hs₁.grows hgrows₂) (hgrows₂.room hroom₁) op a b
          rw [ha, hb] at hop
          exact (hop _).mono fun s' o hc ↦ ends_of_computes hown rfl hc
        · intro s₂ u hu
          refine ends_of_operand .right (fun _ ↦ rfl) ?_ hu
          rw [failures, hfl]
          exact List.prefix_append _ _
      · intro s₁ u hu
        refine ends_of_operand .left (fun _ ↦ rfl) ?_ hu
        rw [failures, List.append_assoc]
        exact List.prefix_append _ _

theorem least_not_mem (c : Calculation) : Int64.minValue ∉ c.tree.ints := by
  induction c with
  | number n => simpa [tree, Tree.ints, eq_comm] using n.isWritten
  | neg c ih => exact ih
  | binary op l r ihl ihr => simp [tree, Tree.ints, ihl, ihr]

theorem text_read (c : Calculation) :
    ∃ e span, Program.ofText? c.text = .ok ⟨[e], span⟩ ∧ c.tree.Spanned e := by
  obtain ⟨stop, htokens⟩ := Token.ofText?_spell (c.tree.lexes c.least_not_mem)
  obtain ⟨e, span, hprogram, he⟩ := Grammar.ofTokens?_tokens c.tree stop
  refine ⟨e, span, ?_, he⟩
  rw [Program.ofText?, text, Tree.text, htokens]
  dsimp only
  rw [hprogram]

theorem fresh_knows {s : State} (hs : s.Fresh) (f : Failure) :
    s.types.knowsError f.fault.type = true := by
  cases f with
  | overflow => exact hs.errors .runtimeError (by decide) rfl
  | zeroDivision => exact hs.errors .zeroDivisionError (by decide) rfl

theorem answers_of_ends {c : Calculation} {e : Expr} {i : Interpreter} {o : Outcome Value}
    (hi : i.state.Fresh) (h : c.Ends e i.state o) :
    ∃ r, c.Answers e r ∧ ∀ whole fuel, i.result o whole fuel = some (r, i) := by
  unfold Ends at h
  unfold Answers
  cases hf : c.failures.head? with
  | none =>
    rw [hf] at h
    obtain ⟨n, rfl, hn⟩ := h
    exact ⟨.ok (.int n), ⟨n, rfl, hn⟩, fun _ _ ↦ rfl⟩
  | some failure =>
    obtain ⟨place, f⟩ := failure
    rw [hf] at h
    obtain ⟨backtrace, hresult⟩ := Interpreter.result_raises h (fresh_knows hi f)
    refine ⟨_, ⟨backtrace, ?_⟩, hresult⟩
    cases f <;> rfl

end Calculation

/-- A calculation that is written as a program is read as one expression. In a new interpreter the
program ends with the exact value if no operation fails; otherwise it ends with the error of the
first operation that fails, from the place of that operation. -/
theorem calculation_runs (c : Calculation) :
    ∃ i, (∃ least, ∀ fuel, least ≤ fuel → Interpreter.new .standard fuel = some (.ok i)) ∧
      ∃ e span, Program.ofText? c.text = .ok ⟨[e], span⟩ ∧ c.tree.Spanned e ∧
        ∃ r, c.Answers e r ∧
          ∃ least, ∀ fuel, least ≤ fuel → ∃ j, i.runText c.text fuel = some (r, j) := by
  obtain ⟨i, hi, hnew⟩ := Interpreter.new_standard
  obtain ⟨e, span, hread, he⟩ := c.text_read
  have hrested := Interpreter.fresh_rested hi
  have hroom : i.rested.state.frames.size < i.rested.state.config.maxCallDepth := by
    rw [hrested.config]
    exact (by decide : 0 < 10000)
  obtain ⟨o, s, hgrows, hends, least, hrun⟩ :=
    Interpreter.run_yields (c.eval_yields he State.topContext hrested hroom) span
  obtain ⟨r, hr, hresult⟩ := Calculation.answers_of_ends (i := ⟨s⟩) (hrested.grows hgrows) hends
  refine ⟨i, hnew, e, span, hread, he, r, hr, least, fun fuel hfuel ↦ ?_⟩
  have hrun := hrun fuel hfuel r ⟨s⟩ (hresult span fuel)
  rw [Interpreter.runText, hread]
  exact ⟨_, hrun⟩

/-- Of `(9223372036854775807 + 1) / 0` the addition fails first. -/
example : (Calculation.binary .div
    (.binary .add (.number ⟨Int64.maxValue, by decide⟩) (.number ⟨1, by decide⟩))
    (.number ⟨0, by decide⟩)).failures = [([.left], .overflow), ([], .zeroDivision)] := by
  decide

end Quill
