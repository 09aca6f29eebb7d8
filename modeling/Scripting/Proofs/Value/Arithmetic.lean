import Mathlib.Algebra.Order.Ring.Int
import Mathlib.Data.Int.ModEq
import Scripting.Value.Arithmetic
/-!
# `Proofs.Value.Arithmetic` — the operators on integers are those of the mathematical integers

Every law is stated of the integer that a word stands for. A sum, difference or product is the exact
result reduced to the range of a word, which `Int.bmod` by `2 ^ 64` does; a shift is a product or a
floored quotient by a power of two, with no bound on the count; and division truncates, apart from the
one quotient that is not a word.
-/

namespace Scripting

open Int Int64 Integer

namespace Integer

/-- `q` and `r` are quotient and remainder of `a` by `b`. The quotient is truncated, but `-least` is no
word, and the quotient is then `least`. -/
structure Division (a b q r : Int) : Prop where
  recompose : a ≡ q * b + r [ZMOD 2 ^ 64]
  small : |r| < |b|
  sign : r = 0 ∨ r.sign = a.sign
  quotient : q = if a = least ∧ b = -1 then least else a.tdiv b
  exact : a = least → b = -1 → r = 0

theorem toInt_mem (a : Int64) : least ≤ a.toInt ∧ a.toInt ≤ greatest := ⟨a.le_toInt, le_of_lt_add_one a.toInt_lt⟩

theorem bmod_of_mem {n : Int} (h : least ≤ n ∧ n ≤ greatest) : n.bmod (2 ^ 64) = n := by
  simp only [least, greatest] at h
  exact bmod_eq_of_le (by omega) (by omega)

theorem ofInt?_toInt (n : Int64) : ofInt? n.toInt = some n := by
  rw [ofInt?, if_pos (toInt_mem n), ofInt_toInt]

/-! ## Division -/

/-- Only one quotient of words is not a word. -/
theorem tdiv_mem {a b : Int} (ha : least ≤ a ∧ a ≤ greatest) (h : ¬(a = least ∧ b = -1)) :
    least ≤ a.tdiv b ∧ a.tdiv b ≤ greatest := by
  have habs : (a.tdiv b).natAbs ≤ a.natAbs := natAbs_tdiv_le_natAbs a b
  simp only [least, greatest] at ha h ⊢
  by_cases hmin : a = -9223372036854775808
  · -- the quotient is `2 ^ 63` only for the divisor `-1`
    subst hmin
    rcases lt_trichotomy b 0 with hneg | rfl | hpos
    · have hhalf : (tdiv (-9223372036854775808) b).natAbs ≤ 9223372036854775808 / 2 := by
        rw [natAbs_tdiv]
        exact Nat.div_le_div_left (by omega) (by decide)
      omega
    · simp
    · have : tdiv (-9223372036854775808) b ≤ 0 := by
        rw [Int.neg_tdiv]
        exact Int.neg_nonpos_of_nonneg (Int.tdiv_nonneg (by decide) hpos.le)
      omega
  · omega

theorem toInt_quo (a b : Int64) :
    (a / b).toInt = if a.toInt = least ∧ b.toInt = -1 then least else a.toInt.tdiv b.toInt := by
  rw [toInt_div]
  split
  · next h => rw [h.1, h.2]; decide
  · next h => exact bmod_of_mem (tdiv_mem (toInt_mem a) h)

theorem sign_tmod (a b : Int) : a.tmod b = 0 ∨ (a.tmod b).sign = a.sign := by
  rcases lt_trichotomy a 0 with h | rfl | h
  · have hle : a.tmod b ≤ 0 := by
      have := tmod_nonneg b (neg_nonneg_of_nonpos h.le)
      rw [neg_tmod] at this
      omega
    rcases hle.lt_or_eq with hlt | heq
    · exact .inr (by rw [sign_eq_neg_one_of_neg hlt, sign_eq_neg_one_of_neg h])
    · exact .inl heq
  · simp
  · rcases (tmod_nonneg b h.le).lt_or_eq with hlt | heq
    · exact .inr (by rw [sign_eq_one_of_pos hlt, sign_eq_one_of_pos h])
    · exact .inl heq.symm

theorem division_words {a b : Int64} (hb : b.toInt ≠ 0) : Division a.toInt b.toInt (a / b).toInt (a % b).toInt := by
  have hrem : (a % b).toInt = a.toInt.tmod b.toInt := toInt_mod a b
  refine ⟨?_, ?_, hrem ▸ sign_tmod .., toInt_quo a b, ?_⟩
  · rw [hrem, toInt_quo]
    split
    · next h => rw [h.1, h.2]; decide
    · have : a.toInt.tdiv b.toInt * b.toInt + a.toInt.tmod b.toInt = a.toInt := tdiv_mul_add_tmod ..
      rw [this]
  · rw [hrem]
    simpa only [abs_eq_natAbs, natAbs_tmod, Nat.cast_lt] using Nat.mod_lt _ (natAbs_pos.2 hb)
  · intro ha hb
    rw [hrem, ha, hb]
    decide

/-! ## Shifts -/

/-- The count of a shift is below the width exactly when its integer is, and is then that integer. -/
theorem count_lt_iff (b : Int64) : b.toUInt64.toNat < 64 ↔ 0 ≤ b.toInt ∧ b.toInt < 64 := by
  have hb : b.toInt = b.toBitVec.toInt := rfl
  have hn : b.toUInt64.toNat = b.toBitVec.toNat := rfl
  rw [hb, BitVec.toInt_eq_toNat_cond]
  split <;> omega

theorem toNat_smod_count {b : Int64} (h0 : 0 ≤ b.toInt) (h : b.toInt < 64) :
    (b.toBitVec.smod 64).toNat = b.toInt.toNat := by
  have hmod : (b.toBitVec.smod 64).toInt = b.toInt := by
    rw [BitVec.toInt_smod]
    exact (fmod_eq_emod_of_nonneg _ (by decide)).trans (emod_eq_of_lt h0 h)
  rw [BitVec.toInt_eq_toNat_cond] at hmod
  split at hmod <;> omega

theorem toInt_shiftLeft (a b : Int64) : (shiftLeft a b).toInt =
    if 0 ≤ b.toInt then (a.toInt * 2 ^ b.toInt.toNat).bmod (2 ^ 64) else 0 := by
  have hcount := count_lt_iff b
  unfold shiftLeft
  by_cases h : 0 ≤ b.toInt
  · rw [if_pos h]
    by_cases hlt : b.toInt < 64
    · have ha : a.toInt = (a.toBitVec.toNat : Int).bmod (2 ^ 64) := BitVec.toInt_eq_toNat_bmod _
      rw [if_neg (by omega), ← Int64.toInt_toBitVec, Int64.toBitVec_shiftLeft, BitVec.shiftLeft_eq',
        BitVec.toInt_shiftLeft, toNat_smod_count h hlt, Nat.shiftLeft_eq, ha, bmod_mul_bmod]
      norm_cast
    · -- nothing of the product is left below `2 ^ 64`
      have hdvd : ((2 ^ 64 : Nat) : Int) ∣ a.toInt * 2 ^ b.toInt.toNat :=
        (pow_dvd_pow 2 (by omega : 64 ≤ b.toInt.toNat)).mul_left _
      rw [if_pos (by omega), bmod_eq_zero_of_dvd hdvd]
      rfl
  · rw [if_neg h, if_pos (by omega)]
    rfl

theorem toInt_shiftRight : (shiftRight a b).toInt =
    if 0 ≤ b.toInt then a.toInt / 2 ^ b.toInt.toNat else if a.toInt < 0 then -1 else 0 := by
  have hcount := count_lt_iff b
  have hsign : (if a < 0 then (-1 : Int64) else 0).toInt = if a.toInt < 0 then -1 else 0 := by
    simp only [lt_iff_toInt_lt, toInt_zero]
    split <;> rfl
  unfold shiftRight
  by_cases h : 0 ≤ b.toInt
  · rw [if_pos h]
    by_cases hlt : b.toInt < 64
    · rw [if_neg (by omega), ← Int64.toInt_toBitVec, Int64.toBitVec_shiftRight,
        BitVec.toInt_sshiftRight', toNat_smod_count h hlt, shiftRight_eq_div_pow]
      norm_cast
    · have ha := toInt_mem a
      have hpow : (2 : Int) ^ 64 ≤ 2 ^ b.toInt.toNat := pow_le_pow_right₀ (by decide) (by omega)
      simp only [least, greatest] at ha
      rw [if_pos (by omega), hsign]
      split
      · refine (ediv_eq_iff_of_pos (by omega)).2 ?_ |>.symm
        omega
      · exact (ediv_eq_zero_of_lt (by omega) (by omega)).symm
  · rw [if_neg h, if_pos (by omega), hsign]

end Integer

namespace Value

/-- On every heap the operator gives an integer with a property, and leaves the heap alone. -/
def Gives (op : Arith) (a b : Int64) (P : Int64 → Prop) : Prop :=
  ∃ c, (∀ h, binary (.arith op) (.int a) (.int b) h = .ok (.int c) h) ∧ P c

/-- **The operators on integers are exact.** Sums, differences, products and left shifts are the exact
results reduced to a word; a division fails exactly for the divisor zero, and otherwise quotient and
remainder are those of truncated division; a right shift is a floored quotient; the bit operators work
bit by bit; and comparing words is comparing integers. -/
theorem integer_operators_exact (a b : Int64) :
    Gives .add a b (fun c => c.toInt = (a.toInt + b.toInt).bmod (2 ^ 64)) ∧
    Gives .sub a b (fun c => c.toInt = (a.toInt - b.toInt).bmod (2 ^ 64)) ∧
    Gives .mul a b (fun c => c.toInt = (a.toInt * b.toInt).bmod (2 ^ 64)) ∧
    (if b.toInt = 0 then
      ∀ h, binary (.arith .quo) (.int a) (.int b) h = .error .divisionByZero h ∧
        binary (.arith .rem) (.int a) (.int b) h = .error .divisionByZero h
    else
      Gives .quo a b fun q => Gives .rem a b fun r =>
        Division a.toInt b.toInt q.toInt r.toInt) ∧
    Gives .shl a b (fun c => c.toInt =
      if 0 ≤ b.toInt then (a.toInt * 2 ^ b.toInt.toNat).bmod (2 ^ 64) else 0) ∧
    Gives .shr a b (fun c => c.toInt =
      if 0 ≤ b.toInt then a.toInt / 2 ^ b.toInt.toNat else if a.toInt < 0 then -1 else 0) ∧
    Gives .andNot a b (fun c => ∀ i, c.toBitVec.getLsbD i = (a.toBitVec.getLsbD i && !b.toBitVec.getLsbD i)) ∧
    ∀ h, binary (.order .less) (.int a) (.int b) h = .ok (.bool (a.toInt < b.toInt)) h ∧
      binary (.order .greater) (.int a) (.int b) h = .ok (.bool (a.toInt > b.toInt)) h ∧
      binary (.order .lessEq) (.int a) (.int b) h = .ok (.bool (a.toInt ≤ b.toInt)) h ∧
      binary (.order .greaterEq) (.int a) (.int b) h = .ok (.bool (a.toInt ≥ b.toInt)) h := by
  refine ⟨⟨a + b, fun _ => rfl, toInt_add a b⟩, ⟨a - b, fun _ => rfl, toInt_sub a b⟩,
    ⟨a * b, fun _ => rfl, toInt_mul a b⟩, ?_,
    ⟨shiftLeft a b, fun _ => rfl, toInt_shiftLeft a b⟩,
    ⟨shiftRight a b, fun _ => rfl, toInt_shiftRight⟩,
    ⟨a &&& ~~~b, fun _ => rfl, ?_⟩, fun _ => ⟨rfl, rfl, rfl, rfl⟩⟩
  · have hzero : b = 0 ↔ b.toInt = 0 := toInt_inj.symm
    split
    · next hb =>
      refine fun h => ⟨?_, ?_⟩
      all_goals
        simp only [binary, plainBinary, intBinary, if_pos (hzero.2 hb)]
        rfl
    · next hb =>
      have hne : b ≠ 0 := fun h => hb (hzero.1 h)
      refine ⟨a / b, fun h => ?_, a % b, fun h => ?_, division_words hb⟩
      all_goals
        simp only [binary, plainBinary, intBinary, if_neg hne]
        rfl
  · intro i
    by_cases hi : i < 64
    · simp [hi]
    · simp [hi, BitVec.getLsbD_of_ge a.toBitVec i (by omega)]

end Value

end Scripting
