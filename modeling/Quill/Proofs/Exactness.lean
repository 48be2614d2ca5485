import Mathlib.Data.Rat.Floor
import Quill.Proofs.Answering
import Quill.Proofs.Calculation

namespace Quill

theorem fmod_bounds (a : Int) {b : Int} (hb : b ≠ 0) :
    (a.fmod b).natAbs < b.natAbs ∧ (a.fmod b = 0 ∨ (a.fmod b < 0 ↔ b < 0)) := by
  rcases Int.lt_or_gt_of_ne hb with hneg | hpos
  · obtain ⟨-, hlt, hle⟩ := (Int.fdiv_fmod_unique' (a := a) hneg).mp ⟨rfl, rfl⟩
    omega
  · obtain ⟨-, hle, hlt⟩ := (Int.fdiv_fmod_unique (a := a) hpos).mp ⟨rfl, rfl⟩
    omega

theorem floor_div_eq_fdiv (a : Int) {b : Int} (hb : b ≠ 0) : ⌊(a : ℚ) / b⌋ = a.fdiv b := by
  have hsum : (a : ℚ) = a.fmod b + b * a.fdiv b := by
    exact_mod_cast (Int.fmod_add_mul_fdiv a b).symm
  rw [Int.floor_eq_iff]
  rcases Int.lt_or_gt_of_ne hb with hneg | hpos
  · obtain ⟨-, hlt, hle⟩ := (Int.fdiv_fmod_unique' (a := a) hneg).mp ⟨rfl, rfl⟩
    have hneg : (b : ℚ) < 0 := by exact_mod_cast hneg
    have hlt : (b : ℚ) < a.fmod b := by exact_mod_cast hlt
    have hle : (a.fmod b : ℚ) ≤ 0 := by exact_mod_cast hle
    rw [le_div_iff_of_neg hneg, div_lt_iff_of_neg hneg]
    constructor <;> linarith
  · obtain ⟨-, hle, hlt⟩ := (Int.fdiv_fmod_unique (a := a) hpos).mp ⟨rfl, rfl⟩
    have hpos : (0 : ℚ) < b := by exact_mod_cast hpos
    have hlt : (a.fmod b : ℚ) < b := by exact_mod_cast hlt
    have hle : (0 : ℚ) ≤ a.fmod b := by exact_mod_cast hle
    rw [le_div_iff₀ hpos, div_lt_iff₀ hpos]
    constructor <;> linarith

/-- The outcome is the whole number `z` if that has 64 bits, and else the error of an overflow. -/
def State.Exact (s : State) (z : Int) (span : Span) (o : Outcome Value) : Prop :=
  s.Computes (Failure.ofResult? z) z span o

/-- As long as whole numbers answer the message as from the start, it ends as `P` says, and nothing
is changed that was there. -/
def State.IntAnswers (s : State) (name : String) (a : Int64) (args : List Value) (span : Span)
    (P : State → Outcome Value → Prop) : Prop :=
  s.types.FindsInstalled name [.int] → (Task.send name ⟨.int a, args, none, span⟩).Yields s P

namespace Routine

def absEntry : Entry := fixed .number .number "abs" [] (.number .abs)

end Routine

section

variable {s : State} (hroom : s.frames.size < s.config.maxCallDepth)

include hroom

theorem intAnswers_of_run {e : Routine.Entry} {a : Int64} {args : List Value} {span : Span}
    {P : State → Outcome Value → Prop} (hP : Lasting P) (he : Types.standard.offers .int e = true)
    (hfits : e.signature.mismatch s.types.sort (.int a) args false = none)
    (hrun : ∀ s', (e.routine.run ⟨.int a, args, none, span⟩).Yields s' P) :
    s.IntAnswers e.name a args span P := by
  intro hfinds
  have hoffers : s.types.offers .int e = true := hfinds.offers (List.mem_singleton_self _) he
  exact Task.Yields.offered hP hoffers rfl rfl hfits hroom fun _ _ ↦ hrun _

theorem arithmetic_answers (op : Arithmetic) (a b : Int64) (span : Span) :
    s.IntAnswers op.operator.method a [.int b] span fun s' o ↦
      s'.Computes (op.failure? a.toInt b.toInt) (op.exact a.toInt b.toInt) span o := by
  refine intAnswers_of_run (e := Routine.arithmeticEntry op) hroom (State.computes_lasting _ _ _)
    ?_ rfl fun s' ↦ NumberRoutine.arithmetic_run op a b span s'
  cases op <;> decide +kernel

theorem negate_answers (a : Int64) (span : Span) :
    s.IntAnswers "-@" a [] span fun s' o ↦ s'.Exact (-a.toInt) span o :=
  intAnswers_of_run (e := Routine.negateEntry) hroom (State.computes_lasting _ _ _)
    (by decide +kernel) rfl fun s' ↦ checkedInt_yields _ span s'

theorem abs_answers (a : Int64) (span : Span) :
    s.IntAnswers "abs" a [] span fun s' o ↦ s'.Exact a.toInt.natAbs span o :=
  intAnswers_of_run (e := Routine.absEntry) hroom (State.computes_lasting _ _ _)
    (by decide +kernel) rfl fun s' ↦ checkedInt_yields _ span s'

end

theorem failure?_of_fits {op : Arithmetic} {a b : Int} (hb : b ≠ 0) (n : Int64)
    (hn : n.toInt = op.exact a b) : op.failure? a b = none := by
  rw [Arithmetic.failure?, if_neg fun h ↦ hb h.2, ← hn]
  exact if_pos ⟨n.minValue_le_toInt, n.toInt_le⟩

/-- What whole numbers answer is exact or an error. The remainder is smaller in size than the
divisor and has its sign, and the quotient is rounded down. Only the least number divided by `-1` is
too large; no step of the other divisions wraps around. -/
theorem integers_exact {s : State} (hroom : s.frames.size < s.config.maxCallDepth) (a b : Int64)
    (span : Span) :
    s.IntAnswers "+" a [.int b] span (fun s' o ↦ s'.Exact (a.toInt + b.toInt) span o) ∧
    s.IntAnswers "-" a [.int b] span (fun s' o ↦ s'.Exact (a.toInt - b.toInt) span o) ∧
    s.IntAnswers "*" a [.int b] span (fun s' o ↦ s'.Exact (a.toInt * b.toInt) span o) ∧
    s.IntAnswers "-@" a [] span (fun s' o ↦ s'.Exact (-a.toInt) span o) ∧
    s.IntAnswers "abs" a [] span (fun s' o ↦ s'.Exact a.toInt.natAbs span o) ∧
    (b = 0 →
      s.IntAnswers "/" a [.int b] span (fun s' o ↦ s'.Raises .divisionByZero span o) ∧
      s.IntAnswers "%" a [.int b] span (fun s' o ↦ s'.Raises .divisionByZero span o)) ∧
    (b ≠ 0 → Int64.DividesExactly a b ∧
      ∃ r, s.IntAnswers "%" a [.int b] span (fun _ o ↦ o = .ok (.int r)) ∧
        r.toInt.natAbs < b.toInt.natAbs ∧ (r = 0 ∨ (r < 0 ↔ b < 0)) ∧
        if a = Int64.minValue ∧ b = -1 then
          s.IntAnswers "/" a [.int b] span (fun s' o ↦ s'.Raises .overflow span o)
        else ∃ q, s.IntAnswers "/" a [.int b] span (fun _ o ↦ o = .ok (.int q)) ∧
          q.toInt = ⌊(a.toInt : ℚ) / b.toInt⌋ ∧ a.toInt = q.toInt * b.toInt + r.toInt) ∧
    (Fault.overflow.type = .runtimeError ∧ Fault.overflow.message = "integer overflow") ∧
    (Fault.divisionByZero.type = .zeroDivisionError ∧
      Fault.divisionByZero.message = "divided by 0") := by
  have hanswers (op : Arithmetic) := arithmetic_answers hroom op a b span
  have hwhole (op : Arithmetic) (hb : b.toInt ≠ 0) {n : Int64}
      (hn : n.toInt = op.exact a.toInt b.toInt) :
      s.IntAnswers op.operator.method a [.int b] span fun _ o ↦ o = .ok (.int n) := by
    intro hfinds
    have hyields := hanswers op hfinds
    rw [failure?_of_fits hb n hn] at hyields
    obtain ⟨o, s', hgives, hgrows, m, rfl, hm⟩ := hyields
    obtain rfl : m = n := Int64.toInt_inj.mp (hm.trans hn.symm)
    exact ⟨_, s', hgives, hgrows, rfl⟩
  refine ⟨hanswers .add, hanswers .sub, hanswers .mul, negate_answers hroom a span,
    abs_answers hroom a span, ?_, fun hb ↦ ?_, ⟨rfl, rfl⟩, ⟨rfl, rfl⟩⟩
  · rintro rfl
    exact ⟨hanswers .div, hanswers .mod⟩
  · have hzero := Int64.toInt_ne_zero.mpr hb
    have hr := Int64.toInt_floorMod (a := a) hb
    obtain ⟨hlt, hsign⟩ := fmod_bounds a.toInt hzero
    refine ⟨Int64.dividesExactly hb, Int64.floorMod a b, hwhole .mod hzero hr, ?_, ?_, ?_⟩
    · rwa [hr]
    · rwa [Int64.neg_iff, Int64.neg_iff, hr, ← Int64.toInt_inj, hr]
    · split
      · rename_i hleast
        obtain ⟨rfl, rfl⟩ := hleast
        exact hanswers .div
      · rename_i hleast
        cases hq : Int64.floorDiv? a b with
        | none => exact absurd (Int64.floorDiv?_eq_none.mp hq) hleast
        | some q =>
          have hq := Int64.toInt_floorDiv hb hq
          refine ⟨q, hwhole .div hzero hq, ?_, ?_⟩
          · rw [floor_div_eq_fdiv _ hzero, hq]
          · rw [hq, hr, Int.mul_comm, Int.add_comm]
            exact (Int.fmod_add_mul_fdiv _ _).symm

/-- `7 / -2` and `7 % -2`, and what is too large. -/
theorem integers_exact_of_seven :
    let s := State.initial .standard
    (Task.send "/" ⟨.int 7, [.int (-2)], none, .origin⟩).Yields s (fun _ o ↦ o = .ok (.int (-4))) ∧
      (Task.send "%" ⟨.int 7, [.int (-2)], none, .origin⟩).Yields s
        (fun _ o ↦ o = .ok (.int (-1))) ∧
      (Task.send "/" ⟨.int Int64.minValue, [.int (-1)], none, .origin⟩).Yields s
        (fun s' o ↦ s'.Raises .overflow .origin o) := by
  intro s
  have hroom : s.frames.size < s.config.maxCallDepth := by decide
  have hfinds (name : String) : s.types.FindsInstalled name [.int] := fun _ _ ↦ rfl
  obtain ⟨-, -, -, -, -, -, hdivides, -⟩ := integers_exact hroom 7 (-2) .origin
  obtain ⟨-, r, hmod, -, -, hrest⟩ := hdivides (by decide)
  rw [if_neg (by decide)] at hrest
  obtain ⟨q, hdiv, hq, hsum⟩ := hrest
  rw [floor_div_eq_fdiv _ (by decide)] at hq
  obtain rfl : q = -4 := Int64.toInt_inj.mp (hq.trans (by decide))
  have hr : r.toInt = 7 - -4 * -2 := eq_sub_of_add_eq' hsum.symm
  obtain rfl : r = -1 := Int64.toInt_inj.mp hr
  obtain ⟨-, -, -, -, -, -, hleast, -⟩ := integers_exact hroom Int64.minValue (-1) .origin
  obtain ⟨-, _, -, -, -, hleast⟩ := hleast (by decide)
  rw [if_pos ⟨rfl, rfl⟩] at hleast
  exact ⟨hdiv (hfinds _), hmod (hfinds _), hleast (hfinds _)⟩

end Quill
