import Quill.Arithmetic

/-!
# Division of words

A machine divides toward zero, and its remainders have the sign of the dividend. Corrected where
there is a remainder and the signs differ, the quotient is rounded down, and the remainder has the
sign of the divisor. Main statements: `Int64.toInt_floorDiv` and `Int64.toInt_floorMod`. On the way
nothing wraps around: `Int64.dividesExactly`.
-/

namespace Quill

section

variable {a b : Int}

theorem natAbs_tmod_lt (a : Int) (hb : b ≠ 0) : (a.tmod b).natAbs < b.natAbs := by
  rw [Int.natAbs_tmod]
  exact Nat.mod_lt _ (by omega)

theorem tmod_sign (a b : Int) : (0 ≤ a → 0 ≤ a.tmod b) ∧ (a ≤ 0 → a.tmod b ≤ 0) := by
  refine ⟨Int.tmod_nonneg b, fun ha ↦ ?_⟩
  have hneg := Int.tmod_nonneg b (Int.neg_nonneg_of_nonpos ha)
  rw [Int.neg_tmod] at hneg
  omega

theorem tmod_neg_iff (hr : a.tmod b ≠ 0) : a.tmod b < 0 ↔ a < 0 := by
  have hsign := tmod_sign a b
  omega

theorem fdiv_of_same_sign (hb : b ≠ 0) (h : a.tmod b = 0 ∨ (a < 0 ↔ b < 0)) :
    a.fdiv b = a.tdiv b ∧ a.fmod b = a.tmod b := by
  have hlt := natAbs_tmod_lt a hb
  have hsign := tmod_sign a b
  have hwhole := Int.tmod_add_mul_tdiv a b
  rcases Int.lt_or_gt_of_ne hb with hneg | hpos
  · exact (Int.fdiv_fmod_unique' hneg).mpr ⟨hwhole, by omega, by omega⟩
  · exact (Int.fdiv_fmod_unique hpos).mpr ⟨hwhole, by omega, by omega⟩

theorem fdiv_of_signs_differ (hb : b ≠ 0) (hr : a.tmod b ≠ 0) (h : ¬(a < 0 ↔ b < 0)) :
    a.fdiv b = a.tdiv b - 1 ∧ a.fmod b = a.tmod b + b := by
  have hlt := natAbs_tmod_lt a hb
  have hneg := tmod_neg_iff hr
  have hwhole : a.tmod b + b + b * (a.tdiv b - 1) = a := by
    have hsum := Int.tmod_add_mul_tdiv a b
    rw [Int.mul_sub]
    omega
  rcases Int.lt_or_gt_of_ne hb with hb | hb
  · exact (Int.fdiv_fmod_unique' hb).mpr ⟨hwhole, by omega, by omega⟩
  · exact (Int.fdiv_fmod_unique hb).mpr ⟨hwhole, by omega, by omega⟩

/-- Where there is a remainder, the divisor is two or more in size, which halves the quotient. -/
theorem natAbs_tdiv_le_half (hb : b ≠ 0) (hr : a.tmod b ≠ 0) :
    2 * (a.tdiv b).natAbs ≤ a.natAbs := by
  have hlt := natAbs_tmod_lt a hb
  have hle : a.natAbs / b.natAbs ≤ a.natAbs / 2 := Nat.div_le_div_left (by omega) (by decide)
  rw [Int.natAbs_tdiv]
  change 2 * (a.natAbs / b.natAbs) ≤ a.natAbs
  omega

end

namespace Int64

variable {a b : Int64}

theorem toInt_ne_zero : a.toInt ≠ 0 ↔ a ≠ 0 := by
  rw [ne_eq, ← Int64.toInt_zero, Int64.toInt_inj]

theorem neg_iff : a < 0 ↔ a.toInt < 0 := Int64.lt_iff_toInt_lt

theorem decide_neg_ne : decide (a < 0) ≠ decide (b < 0) ↔ ¬(a.toInt < 0 ↔ b.toInt < 0) := by
  rw [ne_eq, decide_eq_decide, neg_iff, neg_iff]

/-- A division of words in which no operation wraps around. -/
structure DividesExactly (a b : Int64) : Prop where
  quotient : ¬(a = Int64.minValue ∧ b = -1) → (a / b).toInt = a.toInt.tdiv b.toInt
  remainder : (a % b).toInt = a.toInt.tmod b.toInt
  lowered : a % b ≠ 0 → (a / b - 1).toInt = (a / b).toInt - 1
  raised : a % b ≠ 0 → decide (a % b < 0) ≠ decide (b < 0) →
    (a % b + b).toInt = (a % b).toInt + b.toInt

theorem toInt_div (h : ¬(a = Int64.minValue ∧ b = -1)) : (a / b).toInt = a.toInt.tdiv b.toInt := by
  by_cases ha : a = Int64.minValue
  · exact Int64.toInt_div_of_ne_right a b fun hb ↦ h ⟨ha, hb⟩
  · exact Int64.toInt_div_of_ne_left a b ha

theorem not_least_of_mod (hr : a % b ≠ 0) : ¬(a = Int64.minValue ∧ b = -1) := by
  rintro ⟨rfl, rfl⟩
  exact hr (by decide)

theorem dividesExactly (hb : b ≠ 0) : DividesExactly a b where
  quotient := toInt_div
  remainder := Int64.toInt_mod a b
  lowered hr := by
    have hquotient := toInt_div (not_least_of_mod hr)
    have hhalf := natAbs_tdiv_le_half (toInt_ne_zero.mpr hb)
      (Int64.toInt_mod a b ▸ toInt_ne_zero.mpr hr)
    have hmin := a.le_toInt
    have hmax := a.toInt_lt
    have hone : (1 : Int64).toInt = 1 := rfl
    rw [Int64.toInt_sub, hquotient, hone]
    exact Int.bmod_eq_of_le (by omega) (by omega)
  raised hr hdiffer := by
    have hmin := b.le_toInt
    have hmax := b.toInt_lt
    have hlt := natAbs_tmod_lt a.toInt (toInt_ne_zero.mpr hb)
    rw [decide_neg_ne] at hdiffer
    rw [← Int64.toInt_mod] at hlt
    rw [Int64.toInt_add]
    exact Int.bmod_eq_of_le (by omega) (by omega)

theorem floorDiv?_eq_none : floorDiv? a b = none ↔ a = Int64.minValue ∧ b = -1 := by
  unfold floorDiv?
  split <;> simp [*]

theorem toInt_floorDiv {q : Int64} (hb : b ≠ 0) (hq : floorDiv? a b = some q) :
    q.toInt = a.toInt.fdiv b.toInt := by
  have hexact := dividesExactly (a := a) hb
  have hzero := toInt_ne_zero.mpr hb
  unfold floorDiv? at hq
  split at hq
  · cases hq
  · rename_i hleast
    have hquotient := hexact.quotient hleast
    cases hq
    split
    · rename_i hcorrected
      obtain ⟨hr, hdiffer⟩ := hcorrected
      rw [hexact.lowered hr, hquotient]
      rw [decide_neg_ne] at hdiffer
      rw [← toInt_ne_zero, hexact.remainder] at hr
      exact (fdiv_of_signs_differ hzero hr hdiffer).1.symm
    · rename_i hplain
      rw [hquotient]
      refine (fdiv_of_same_sign hzero ?_).1.symm
      rw [← toInt_ne_zero, hexact.remainder, decide_neg_ne] at hplain
      omega

theorem toInt_floorMod (hb : b ≠ 0) : (floorMod a b).toInt = a.toInt.fmod b.toInt := by
  have hexact := dividesExactly (a := a) hb
  have hzero := toInt_ne_zero.mpr hb
  unfold floorMod
  dsimp only
  split
  · rename_i hcorrected
    obtain ⟨hr, hdiffer⟩ := hcorrected
    rw [hexact.raised hr hdiffer, hexact.remainder]
    rw [decide_neg_ne, hexact.remainder] at hdiffer
    rw [← toInt_ne_zero, hexact.remainder] at hr
    rw [tmod_neg_iff hr] at hdiffer
    exact (fdiv_of_signs_differ hzero hr hdiffer).2.symm
  · rename_i hplain
    rw [hexact.remainder]
    refine (fdiv_of_same_sign hzero ?_).2.symm
    rw [← toInt_ne_zero, decide_neg_ne, hexact.remainder] at hplain
    by_cases hr : a.toInt.tmod b.toInt = 0
    · exact .inl hr
    · rw [tmod_neg_iff hr] at hplain
      omega

end Int64

end Quill
