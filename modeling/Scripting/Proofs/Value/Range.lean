import Mathlib.Algebra.Order.Floor.Div
import Mathlib.Data.NNRat.Floor
import Mathlib.Data.Rat.Floor
import Scripting.Builtin.Call
/-!
# `Proofs.Value.Range` — a range is an arithmetic progression

`range` goes from `start` toward `stop` in equal steps and leaves `stop` out. The number of items is the
distance divided by the step, rounded up. Items are computed with mathematical integers, and each of
them lies between two words, so none is changed by becoming a word.
-/

namespace Scripting.Builtin

/-- `xs` are the words `start, start + step, …` below `stop` or, if `stop` is below `start`, the words
`start, start - step, …` above it, with none left out. -/
structure Progression (start stop step : Int) (xs : Array Value) : Prop where
  item : ∀ i < xs.size, ∃ w : Int64, xs[i]? = some (.int w) ∧
    if start ≤ stop then w.toInt = start + i * step ∧ start ≤ w.toInt ∧ w.toInt < stop
    else w.toInt = start - i * step ∧ stop < w.toInt ∧ w.toInt ≤ start
  complete : if start ≤ stop then stop ≤ start + xs.size * step else start - xs.size * step ≤ stop

section
variable (start stop : Int) {step : Nat} (h : 0 < step)
include h

/-- So many steps fit exactly if so many times the step is at least the distance. -/
theorem rangeCount_le_iff (n : Nat) : rangeCount start stop step ≤ n ↔ (stop - start).natAbs ≤ n * step := by
  rw [rangeCount, ← Nat.add_sub_assoc h, ← Nat.ceilDiv_eq_add_pred_div, ceilDiv_le_iff_le_mul h, mul_comm]

/-- The number of items is the distance over the step, rounded up. -/
theorem rangeCount_eq_ceil : rangeCount start stop step = ⌈|(stop : ℚ) - start| / step⌉₊ := by
  have hdist : |(stop : ℚ) - start| = ((stop - start).natAbs : ℚ) := by
    rw [Nat.cast_natAbs]
    push_cast
    rfl
  refine eq_of_forall_ge_iff fun n => ?_
  rw [rangeCount_le_iff start stop h, hdist, Nat.ceil_le, div_le_iff₀ (by exact_mod_cast h)]
  norm_cast

theorem mul_lt_of_lt_rangeCount {i : Nat} (hi : i < rangeCount start stop step) :
    i * step < (stop - start).natAbs := by
  have := (rangeCount_le_iff start stop h i).not.1 (by omega)
  omega

end

/-- The items of a range, before they are put into an array. -/
theorem range_progression {start stop step : Int64} (hstep : 0 < step.toInt) :
    Progression start.toInt stop.toInt step.toInt
      (Array.ofFn fun i : Fin (rangeCount start.toInt stop.toInt step.toInt.toNat) =>
        .int (Int64.ofInt (rangeItem start.toInt stop.toInt step.toInt.toNat i))) := by
  have hpos : 0 < step.toInt.toNat := by omega
  have hcast : (step.toInt.toNat : Int) = step.toInt := Int.toNat_of_nonneg hstep.le
  constructor
  · intro i hi
    rw [Array.size_ofFn] at hi
    have hway := mul_lt_of_lt_rangeCount _ _ hpos hi
    have hway' : (i : Int) * step.toInt < (stop.toInt - start.toInt).natAbs := by
      rw [← hcast]
      exact_mod_cast hway
    have hnonneg : 0 ≤ (i : Int) * step.toInt := by positivity
    -- an item lies between the start and the stop, which are words
    have hitem : -2 ^ 63 ≤ rangeItem start.toInt stop.toInt step.toInt.toNat i ∧
        rangeItem start.toInt stop.toInt step.toInt.toNat i < 2 ^ 63 := by
      have := start.le_toInt
      have := start.toInt_lt
      have := stop.le_toInt
      have := stop.toInt_lt
      rw [rangeItem]
      split <;> omega
    refine ⟨_, by rw [Array.getElem?_ofFn, dif_pos hi], ?_⟩
    rw [Int64.toInt_ofInt_of_le hitem.1 hitem.2, rangeItem, hcast]
    split <;> omega
  · have hdone := (rangeCount_le_iff start.toInt stop.toInt hpos _).1 le_rfl
    have hdone' : ((stop.toInt - start.toInt).natAbs : Int) ≤
        rangeCount start.toInt stop.toInt step.toInt.toNat * step.toInt := by
      rw [← hcast]
      exact_mod_cast hdone
    rw [Array.size_ofFn]
    split <;> omega

/-- **A range is the exact arithmetic progression.** With `c` the distance over the step, rounded up:
the call fails, for its size, exactly if `c` is over the limit, and otherwise gives a new array with the
`c` items of the progression. The step is one if it is left out. -/
theorem range_exact (start stop step : Int64) (hstep : 0 < step.toInt) (args : List Value)
    (hargs : args = [.int start, .int stop, .int step] ∨ step = 1 ∧ args = [.int start, .int stop]) (h : Heap) :
    let c := ⌈|(stop.toInt : ℚ) - start.toInt| / step.toInt⌉₊
    if rangeLimit < c then call .range args h = .error (.rangeTooLarge c rangeLimit) h
    else ∃ xs, xs.size = c ∧ Progression start.toInt stop.toInt step.toInt xs ∧ call .range args h =
        .ok (.array .mutable h.arrays.size) { h with arrays := h.arrays.push xs } := by
  intro c
  have hcast : ((step.toInt.toNat : ℕ) : ℚ) = step.toInt := by
    exact_mod_cast Int.toNat_of_nonneg hstep.le
  have hcount : rangeCount start.toInt stop.toInt step.toInt.toNat = c := by
    rw [rangeCount_eq_ceil _ _ (by omega), hcast]
  -- the rational number has done its work: from here on the count is that of the program
  clear_value c
  subst hcount
  have hcall : call .range args h = rangeOf start stop step h := by
    rcases hargs with rfl | ⟨rfl, rfl⟩ <;> rfl
  have hvalid : ¬step.toInt ≤ 0 := by omega
  split
  · next hlimit =>
    simp only [hcall, rangeOf, if_neg hvalid, if_pos hlimit]
    rfl
  · next hlimit =>
    refine ⟨_, Array.size_ofFn, range_progression hstep, ?_⟩
    simp only [hcall, rangeOf, if_neg hvalid, if_neg hlimit]
    rfl

/-- The range over all words in steps of the greatest one has three items. -/
theorem widest_range_exact : ∃ xs : Array Value, xs.size = 3 ∧
    Progression (-9223372036854775808) 9223372036854775807 9223372036854775807 xs ∧
    call .range [.int Int64.minValue, .int Int64.maxValue, .int Int64.maxValue] {} =
      .ok (.array .mutable 0) { arrays := #[xs] } := by
  have hceil : ⌈|((9223372036854775807 : Int) : ℚ) - (-9223372036854775808 : Int)| /
      (9223372036854775807 : Int)⌉₊ = 3 := by
    norm_num
  have hrange := range_exact Int64.minValue Int64.maxValue Int64.maxValue (by decide) _ (.inl rfl) {}
  have hmin : Int64.minValue.toInt = -9223372036854775808 := by decide
  have hmax : Int64.maxValue.toInt = 9223372036854775807 := by decide
  simp only [hmin, hmax, hceil] at hrange
  rwa [if_neg (by decide)] at hrange

end Scripting.Builtin
