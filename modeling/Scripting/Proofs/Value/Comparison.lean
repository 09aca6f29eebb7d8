import Scripting.Compile.Construct
import Scripting.Proofs.Value.Arithmetic
import Scripting.Proofs.Value.Equality
/-!
# `Proofs.Value.Comparison` — order, and arithmetic on points in time

Swapping the operands of a comparison together with its direction changes nothing, whatever the values are
(`comparisons_swap`). On values of kinds that are in order among themselves the comparisons are those of a
linear order, and next to a not-a-number none of them holds.

Instants are moved exactly (`time_arithmetic_exact`), with one exception: going back is going forward by the
negated word, and the least word is its own negation.
-/

namespace Scripting

open Integer

/-! ## Comparisons -/

namespace Flonum

open Float.Model

theorem compare_nan (x : UnpackedFloat) : x.compare .notANumber = none := by
  cases x <;> rfl

/-- A not-a-number is in no order with anything. -/
theorem unordered {x y : Flonum} (h : x.isNaN = true ∨ y.isNaN = true) : x.lt y = false ∧ x.le y = false := by
  have hcompare : x.toFloat.toModel.unpack.compare y.toFloat.toModel.unpack = none := by
    have hnan : Float.nan.toModel.unpack = .notANumber := rfl
    rcases h with h | h
    · rw [(toFloat_eq_nan_iff x).mpr h]
      rfl
    · rw [(toFloat_eq_nan_iff y).mpr h, hnan, compare_nan]
  have hlt : x.toFloat.toModel.unpack.lt y.toFloat.toModel.unpack = false := by
    simp only [UnpackedFloat.lt, hcompare]
    rfl
  have hle : x.toFloat.toModel.unpack.le y.toFloat.toModel.unpack = false := by
    simp only [UnpackedFloat.le, hcompare]
    rfl
  exact ⟨decide_eq_false (ne_true_of_eq_false hlt), decide_eq_false (ne_true_of_eq_false hle)⟩

end Flonum

theorem Generator.binary_swap (pos : Pos) (o : Order) (lhs rhs : Gen Unit) :
    binary pos (.order o) lhs rhs = binary pos (.order o.swap) rhs lhs := by
  cases o <;> rfl

namespace Value

/-- The answers to `a < b`, `a > b`, `a <= b` and `a >= b`, on every heap. -/
def Compares (a b : Value) (lt gt le ge : Bool) : Prop :=
  ∀ h, binary (.order .less) a b h = .ok (.bool lt) h ∧ binary (.order .greater) a b h = .ok (.bool gt) h ∧
    binary (.order .lessEq) a b h = .ok (.bool le) h ∧ binary (.order .greaterEq) a b h = .ok (.bool ge) h

/-- Values of kinds that are in order among themselves. -/
inductive Ordered : Value → Value → Prop
  | ints (a b : Int64) : Ordered (.int a) (.int b)
  | chars (c d : Char) : Ordered (.char c) (.char d)
  | intChar (a : Int64) (d : Char) : Ordered (.int a) (.char d)
  | charInt (c : Char) (b : Int64) : Ordered (.char c) (.int b)
  | texts (s t : String) : Ordered (.str s) (.str t)
  | times (t u : Instant) : Ordered (.time t) (.time u)

/-- A number that is or is not a not-a-number. -/
inductive Number : Value → Bool → Prop
  | int (a : Int64) : Number (.int a) false
  | float (x : Flonum) : Number (.float x) x.isNaN

theorem plainBinary_swap : plainBinary (.order o) a b = plainBinary (.order o.swap) b a := by
  have hint (x y : Int) : compareInt (.order o) x y = compareInt (.order o.swap) y x := by cases o <;> rfl
  have hfloat (x y : Flonum) : floatBinary (.order o) x y = floatBinary (.order o.swap) y x := by cases o <;> rfl
  cases a with
  | int a =>
    cases b with
    | int b => exact hint ..
    | float y => exact hfloat ..
    | char d => exact hint ..
    | _ => rfl
  | float x =>
    cases b with
    | int b => exact hfloat ..
    | float y => exact hfloat ..
    | _ => rfl
  | char c =>
    cases b with
    | int b => exact hint ..
    | char d => exact hint ..
    | _ => rfl
  | str s =>
    cases b with
    | str t => cases o <;> rfl
    | _ => rfl
  | time t =>
    cases b with
    | time u => exact hint ..
    | _ => rfl
  | _ => cases b <;> rfl

theorem binary_swap (o : Order) (a b : Value) (h : Heap) : binary (.order o) a b h = binary (.order o.swap) b a h :=
  congrArg (Action.ofExcept · h) plainBinary_swap

/-- Integers, or what is compared as integers, are in linear order. -/
theorem compares_of_compareInt {x y : Int} (h : ∀ o, plainBinary (.order o) a b = compareInt (.order o) x y) :
    ∃ lt gt, Compares a b lt gt (!gt) (!lt) ∧ (lt && gt) = false := by
  have hle (x y : Int) : decide (x ≤ y) = !decide (y < x) := by simp only [← not_lt, decide_not]
  refine ⟨x < y, y < x, fun k => ?_, by simpa using fun h => h.le⟩
  have hbinary (o : Order) : binary (.order o) a b k = Action.ofExcept (compareInt (.order o) x y) k := by
    rw [← h o]
    rfl
  rw [hbinary, hbinary, hbinary, hbinary, ← hle x y, ← hle y x]
  exact ⟨rfl, rfl, rfl, rfl⟩

theorem Ordered.compares (h : Ordered a b) : ∃ lt gt, Compares a b lt gt (!gt) (!lt) ∧ (lt && gt) = false := by
  cases h with
  | texts s t =>
    refine ⟨s < t, t < s, fun h => ⟨rfl, rfl, rfl, rfl⟩, ?_⟩
    simpa only [Bool.and_eq_false_imp, decide_eq_true_eq, decide_eq_false_iff_not] using String.lt_asymm
  | _ => exact compares_of_compareInt fun _ => rfl

theorem Number.compares (ha : Number a m) (hb : Number b n) (hfloat : (m || n) = true) :
    Compares a b false false false false := by
  have hall {x y : Flonum} (h : x.isNaN = true ∨ y.isNaN = true)
      (hop : ∀ o k, binary (.order o) a b k = .ok (.bool (o.eval Flonum.lt Flonum.le x y)) k) :
      Compares a b false false false false := by
    intro k
    have hxy := Flonum.unordered h
    have hyx := Flonum.unordered h.symm
    simp only [hop, Order.eval, hxy, hyx, and_self]
  cases ha with
  | int a =>
    cases hb with
    | int b => cases hfloat
    | float y => exact hall (.inr hfloat) fun _ _ => rfl
  | float x =>
    cases hb with
    | int b => exact hall (.inl (by simpa using hfloat)) fun _ _ => rfl
    | float y => exact hall (by simpa using hfloat) fun _ _ => rfl

/-- **A comparison and its mirror image agree**, in their answers and in their errors, and `a < b` compiles to
the code of `b > a`. On values that are in order exactly one of `a < b`, `b < a` and `a <= b && b <= a` holds,
and `a <= b` is the negation of `b < a`; next to a not-a-number all four comparisons are false. -/
theorem comparisons_swap : (∀ o a b h, binary (.order o) a b h = binary (.order o.swap) b a h) ∧
    (∀ pos o lhs rhs, Generator.binary pos (.order o) lhs rhs = Generator.binary pos (.order o.swap) rhs lhs) ∧
    (∀ a b, Ordered a b → ∃ lt gt, Compares a b lt gt (!gt) (!lt) ∧ Compares b a gt lt (!lt) (!gt) ∧
      [lt, gt, !gt && !lt].count true = 1) ∧
    ∀ a b m n, Number a m → Number b n → (m || n) = true → Compares a b false false false false := by
  refine ⟨binary_swap, Generator.binary_swap, fun a b h => ?_, fun a b m n ha hb => ha.compares hb⟩
  obtain ⟨lt, gt, hab, hone⟩ := h.compares
  refine ⟨lt, gt, hab, fun k => ?_, by cases lt <;> cases gt <;> first | rfl | cases hone⟩
  rw [binary_swap .less, binary_swap .greater, binary_swap .lessEq, binary_swap .greaterEq]
  exact ⟨(hab k).2.1, (hab k).1, (hab k).2.2.2, (hab k).2.2.1⟩

theorem comparisons_swap_mixed : (∃ lt gt, Compares (.int 97) (.char 'b') lt gt (!gt) (!lt)) ∧
      Compares (.int 1) (.float .nan) false false false false :=
  ⟨(comparisons_swap.2.2.1 _ _ (.intChar 97 'b')).imp fun _ h => h.imp fun _ h => h.1,
    comparisons_swap.2.2.2 _ _ _ _ (.int 1) (.float .nan) (by decide)⟩

/-! ## Points in time -/

/-- On every heap the operator moves `t` by `d` nanoseconds, and fails exactly if there is no such instant. -/
def Moves (op : Arith) (t : Instant) (n : Int64) (d : Int) : Prop :=
  ∀ h, (∃ u : Instant, u.nanos = t.nanos + d ∧ binary (.arith op) (.time t) (.int n) h = .ok (.time u) h) ∨
    ¬(Instant.least ≤ t.nanos + d ∧ t.nanos + d ≤ Instant.greatest) ∧
      binary (.arith op) (.time t) (.int n) h = .error .invalidOperator h

theorem moves_of_moveTime (hop : ∀ h, binary (.arith op) (.time t) (.int n) h = Action.ofExcept (moveTime t m) h) :
    Moves op t n m.toInt := by
  intro h
  by_cases hrange : Instant.least ≤ t.nanos + m.toInt ∧ t.nanos + m.toInt ≤ Instant.greatest
  · refine .inl ⟨⟨_, hrange⟩, rfl, ?_⟩
    simp only [hop, moveTime, Instant.add?, Instant.ofNanos?, dif_pos hrange]
    rfl
  · refine .inr ⟨hrange, ?_⟩
    simp only [hop, moveTime, Instant.add?, Instant.ofNanos?, dif_neg hrange]
    rfl

/-- A move that succeeds arrives at the right instant. -/
theorem Moves.nanos (hm : Moves op t n d) (h : binary (.arith op) (.time t) (.int n) k = .ok (.time u) k) :
    u.nanos = t.nanos + d := by
  rcases hm k with ⟨v, hv, hok⟩ | ⟨-, herror⟩
  · rw [hok] at h
    cases h
    exact hv
  · rw [herror] at h
    cases h

/-- The least word is its own negation. -/
theorem toInt_neg_word (n : Int64) : (-n).toInt = if n.toInt = least then n.toInt else -n.toInt := by
  have hn := toInt_mem n
  rw [Int64.toInt_neg]
  split
  · next h =>
    rw [h]
    decide
  · next h =>
    simp only [least, greatest] at hn h
    exact bmod_of_mem (by simp only [least, greatest]; omega)

theorem sub_times {t u : Instant} {n : Int64} (h : u.nanos = t.nanos + n.toInt) :
    binary (.arith .sub) (.time u) (.time t) k = .ok (.int n) k := by
  have hsince : u.since t = n.toInt := by
    rw [Instant.since]
    omega
  simp only [binary, plainBinary, timeBinary, hsince, ofInt?_toInt]
  rfl

theorem less_times {t u : Instant} {d : Int} (h : u.nanos = t.nanos + d) :
    binary (.order .less) (.time t) (.time u) k = .ok (.bool (0 < d)) k := by
  have hless : (t.nanos < u.nanos) = (0 < d) := by
    exact propext ⟨by omega, by omega⟩
  simp only [binary, plainBinary, timeBinary, compareInt, Order.eval, hless]
  rfl

/-- **Moving instants is exact**, and fails exactly at the ends of the range, except that `t - least` is `t + least`.
What is added can be read off the two instants, what is taken away can be added again, and an instant moves to a later
one exactly by a positive number. -/
theorem time_arithmetic_exact (t : Instant) (n : Int64) : Moves .add t n n.toInt ∧
    Moves .sub t n (if n.toInt = least then n.toInt else -n.toInt) ∧
    (∀ u h, binary (.arith .add) (.time t) (.int n) h = .ok (.time u) h →
      binary (.arith .sub) (.time u) (.time t) h = .ok (.int n) h ∧
      binary (.order .less) (.time t) (.time u) h = .ok (.bool (0 < n.toInt)) h) ∧
    (n.toInt ≠ least → ∀ u h, binary (.arith .sub) (.time t) (.int n) h = .ok (.time u) h →
      binary (.arith .add) (.time u) (.int n) h = .ok (.time t) h ∧
      binary (.order .less) (.time u) (.time t) h = .ok (.bool (0 < n.toInt)) h) := by
  have hadd (t : Instant) : Moves .add t n n.toInt := moves_of_moveTime fun _ => rfl
  have hsub : Moves .sub t n (if n.toInt = least then n.toInt else -n.toInt) := by
    rw [← toInt_neg_word]
    exact moves_of_moveTime fun _ => rfl
  refine ⟨hadd t, hsub, fun u h hu => ?_, fun hn u h hu => ?_⟩
  · have hnanos := (hadd t).nanos hu
    exact ⟨sub_times hnanos, less_times hnanos⟩
  · have hnanos := hsub.nanos hu
    have hback : t.nanos = u.nanos + n.toInt := by omega
    refine ⟨?_, less_times hback⟩
    -- the way back arrives, since the instant it leads to is `t`
    rcases hadd u h with ⟨v, hv, hok⟩ | ⟨hout, -⟩
    · have hvt : v = t := by
        cases v
        cases t
        simpa using hv.trans hback.symm
      rw [hok, hvt]
    · exact absurd (hback ▸ t.inRange) hout

/-- One day after the epoch, and back. -/
theorem epoch_arithmetic_exact :
    binary (.arith .sub) (.time ⟨86400000000000, by decide⟩) (.time default) {} = .ok (.int 86400000000000) {} :=
  ((time_arithmetic_exact default 86400000000000).2.2.1 _ _ rfl).1

/-- Going back by the least integer goes back instead of forward. -/
theorem going_back_by_least : ∃ u : Instant, binary (.arith .sub) (.time default) (.int Int64.minValue) {} =
    .ok (.time u) {} ∧ u.nanos = -2 ^ 63 ∧ u.nanos ≠ (default : Instant).nanos - Int64.minValue.toInt :=
  ⟨⟨-2 ^ 63, by decide⟩, rfl, rfl, by decide⟩

end Value

end Scripting
