import Mathlib.Algebra.Order.Ring.Nat
import Mathlib.Data.Nat.SuccPred
import Scripting.Value.Arithmetic
import Scripting.Value.Index
import Scripting.Value.Slice
/-!
# `Proofs.Value.Slice` — slices stay in bounds and compose

A slice is refused exactly if its bounds are inverted, and is otherwise the part between the clamped bounds, in a
new object of the same kind. Clamping keeps the order of bounds, so slices that meet at a bound join to one slice.
-/

namespace Scripting.Value

open Heap Array

namespace Sequence

/-- The elements, as what an index reads. -/
def elements : Sequence → List Value
  | items xs => xs.toList
  | chars cs => cs.toList.map .char
  | bytes bs => bs.toList.map fun b => .int (Int64.ofNat b.toNat)

/-- A sum with these contents is within the limits. -/
def Fits : Sequence → Prop
  | items _ => True
  | chars cs => (String.ofList cs.toList).utf8ByteSize ≤ Limits.textSize
  | bytes bs => bs.size ≤ Limits.bytesSize

end Sequence

/-- The second sequence is of the kind of the first one and has its elements from `l` up to `r`, which are all there. -/
structure Segment (s : Sequence) (l r : Nat) (p : Sequence) : Prop where
  bounds : l ≤ r ∧ r ≤ s.length
  elements : p.elements = (s.elements.take r).drop l
  kind : p.ctorIdx = s.ctorIdx

/-- `k` is `n` clamped to `0 … length`. -/
def Clamped (length : Nat) (n : Int) (k : Nat) : Prop := (k : Int) = max 0 (min n length)

/-- A bound of a slice, as a value. -/
def boundValue (bound : Option Int64) : Value := bound.elim undefined int

/-- A bound of a slice, as an integer. -/
def boundOr (default : Int) (bound : Option Int64) : Int := bound.elim default Int64.toInt

/-- The slice succeeds, with the part between the clamped bounds. -/
def Selects (h : Heap) (target : Value) (s : Sequence) (low high : Value) (n m : Int) : Prop :=
  ∃ v h' l r p, slice target low high h = .ok v h' ∧ v.sequence? h' = some p ∧ Clamped s.length n l ∧
    Clamped s.length m r ∧ Segment s l r p

section

variable {target e : Value} {s : Sequence} {h : Heap} {k l r : Nat}

theorem clamped_clampTo (length : Nat) (n : Int) : Clamped length n (clampTo length n) := by
  simp only [Clamped, clampTo]
  omega

theorem segment_extract (h : l ≤ r) (hr : r ≤ s.length) : Segment s l r (s.extract l r) := by
  refine ⟨⟨h, hr⟩, ?_, by cases s <;> rfl⟩
  cases s <;> simp [Sequence.extract, Sequence.elements, List.extract_eq_take_drop, List.drop_take]

theorem sequence?_toValue (s : Sequence) (h : Heap) : (s.toValue h).1.sequence? (s.toValue h).2 = some s := by
  cases s with
  | items xs => simp [Sequence.toValue, sequence?, newArray, arrayAt]
  | chars cs => simp [Sequence.toValue, sequence?]
  | bytes bs => simp [Sequence.toValue, sequence?, newBytes, bytesAt]

/-- What is sliced stays as it was. -/
theorem sequence?_after (hs : target.sequence? h = some s) (l r : Nat) :
    target.sequence? ((s.extract l r).toValue h).2 = some s := by
  cases target with
  | str t =>
    cases hs
    rfl
  | array kind q =>
    cases hs
    -- a reference past the end reads as empty before and after
    by_cases hq : q = h.arrays.size
    · simp [Sequence.extract, Sequence.toValue, sequence?, newArray, arrayAt, hq]
    · simp [Sequence.extract, Sequence.toValue, sequence?, newArray, arrayAt, getElem?_push, hq]
  | bytes q =>
    cases hs
    by_cases hq : q = h.bytes.size
    · simp [Sequence.extract, Sequence.toValue, sequence?, newBytes, bytesAt, hq]
    · simp [Sequence.extract, Sequence.toValue, sequence?, newBytes, bytesAt, getElem?_push, hq]
  | _ => cases hs

/-- What a slice does, from the integers that its bounds stand for. -/
theorem slice_eq (hs : target.sequence? h = some s) (low high : Option Int64) :
    slice target (boundValue low) (boundValue high) h =
      if boundOr s.length high < boundOr 0 low then
        .error (.inverted (boundOr 0 low) (boundOr s.length high)) h
      else
        let part := (s.extract (clampTo s.length (boundOr 0 low)) (clampTo s.length (boundOr s.length high))).toValue h
        .ok part.1 part.2 := by
  have hbound (b : Option Int64) : sliceBound h (boundValue b) = .ok (b.map Int64.toInt) := by cases b <;> rfl
  have hget (d : Int) (b : Option Int64) : (b.map Int64.toInt).getD d = boundOr d b := by cases b <;> rfl
  have hpart : slicePart h target (boundValue low) (boundValue high) =
      (sliceRange s.length (low.map Int64.toInt) (high.map Int64.toInt)).map fun p => s.extract p.1 p.2 := by
    simp only [slicePart, hbound, hs]
    rfl
  simp only [slice, hpart, sliceRange, hget]
  by_cases hlt : boundOr s.length high < boundOr 0 low
  · simp only [if_pos hlt]
    rfl
  · simp only [if_neg hlt]
    rfl

theorem clampTo_mono (length : Nat) {n m : Int} (h : n ≤ m) : clampTo length n ≤ clampTo length m := by
  simp only [clampTo]
  omega

/-- A slice with integers for bounds that are not inverted. -/
theorem slice_ints (hs : target.sequence? h = some s) {a b : Int64} (hab : a.toInt ≤ b.toInt) :
    slice target (.int a) (.int b) h =
      let part := (s.extract (clampTo s.length a.toInt) (clampTo s.length b.toInt)).toValue h
      .ok part.1 part.2 :=
  (slice_eq hs (some a) (some b)).trans (if_neg (Int.not_lt.mpr hab))

/-- A sum of two parts that meet. -/
theorem join_parts (hl : l ≤ k) (hr : k ≤ r) (hfits : (s.extract l r).Fits) :
    ∃ z h', binary (.arith .add) ((s.extract l k).toValue h).1
        ((s.extract k r).toValue ((s.extract l k).toValue h).2).1
        ((s.extract k r).toValue ((s.extract l k).toValue h).2).2 = .ok z h' ∧
      z.sequence? h' = some (s.extract l r) := by
  have hjoin {α : Type} (xs : Array α) : xs.extract l k ++ xs.extract k r = xs.extract l r := by
    rw [extract_append_extract, Nat.min_eq_left hl, Nat.max_eq_right hr]
  cases s with
  | items xs =>
    refine ⟨_, _, rfl, ?_⟩
    simp [Sequence.extract, Sequence.toValue, sequence?, newArray, arrayAt, getElem_push, hjoin]
  | chars cs =>
    have htext : String.ofList (cs.extract l k).toList ++ String.ofList (cs.extract k r).toList =
        String.ofList (cs.extract l r).toList := by
      rw [← String.ofList_append, ← toList_append, hjoin]
    refine ⟨.str (String.ofList (cs.extract l r).toList), h, ?_,
      by simp only [sequence?, Sequence.extract, String.toList_ofList, toArray_toList]⟩
    simp only [Sequence.extract, Sequence.toValue, binary, plainBinary, textBinary, joinText]
    rw [if_neg, htext]
    · rfl
    · rw [← String.utf8ByteSize_append, htext]
      exact Nat.not_lt.mpr hfits
  | bytes bs =>
    have hsize : ¬Limits.bytesSize < (bs.extract l k).size + (bs.extract k r).size := by
      rw [← size_append, hjoin]
      exact Nat.not_lt.mpr hfits
    -- both parts are in the heap by then, and the second one does not touch the first
    let h1 := (h.newBytes (bs.extract l k)).2
    let h2 := (h1.newBytes (bs.extract k r)).2
    have hx : h2.bytesAt h.bytes.size = bs.extract l k := by
      simp [h2, h1, newBytes, bytesAt, getElem_push]
    have hy : h2.bytesAt h1.bytes.size = bs.extract k r := by simp [h2, newBytes, bytesAt]
    refine ⟨(h2.newBytes (bs.extract l r)).1, (h2.newBytes (bs.extract l r)).2, ?_,
      sequence?_toValue (.bytes (bs.extract l r)) h2⟩
    show (if Limits.bytesSize < (h2.bytesAt h.bytes.size).size + (h2.bytesAt h1.bytes.size).size then _
      else Action.newBytes (h2.bytesAt h.bytes.size ++ h2.bytesAt h1.bytes.size) h2) = _
    rw [hx, hy, if_neg hsize, hjoin]
    rfl

/-- What an index reads is the element there. -/
theorem indexGet_elements (hs : target.sequence? h = some s) {i : Int64} (hi : 0 ≤ i.toInt)
    (he : s.elements[i.toInt.toNat]? = some e) : indexGet h target (.int i) = .ok e := by
  have hindex : indexOf? i = some i.toInt.toNat := by
    rw [indexOf?, if_neg]
    rw [Int64.lt_iff_toInt_lt, Int64.toInt_zero]
    omega
  cases target with
  | array kind r =>
    cases hs
    simp only [Sequence.elements, getElem?_toList] at he
    simp only [indexGet, hindex, Option.bind_some, he, Option.getD_some]
  | str t =>
    cases hs
    simp only [Sequence.elements, List.getElem?_map, Option.map_eq_some_iff] at he
    obtain ⟨c, hc, rfl⟩ := he
    simp only [indexGet, hindex, Option.bind_some, hc, Option.elim_some]
  | bytes r =>
    cases hs
    simp only [Sequence.elements, List.getElem?_map, Option.map_eq_some_iff, getElem?_toList] at he
    obtain ⟨b, hb, rfl⟩ := he
    simp only [indexGet, hindex, Option.bind_some, hb, Option.elim_some]
  | _ => cases hs

/-- **Slices are in bounds and compose.** A slice fails exactly if the lower bound is above the upper one; otherwise it
is the part between the bounds, clamped to the sequence. Slices that meet join to the slice from the first bound to
the last, within the limits on sizes, and a slice of length one holds what the index reads. -/
theorem slices_compose (hs : target.sequence? h = some s) : (∀ low high : Option Int64,
      if boundOr s.length high < boundOr 0 low then
        slice target (boundValue low) (boundValue high) h =
          .error (.inverted (boundOr 0 low) (boundOr s.length high)) h
      else
        Selects h target s (boundValue low) (boundValue high) (boundOr 0 low) (boundOr s.length high)) ∧
    (∀ a b c : Int64, a.toInt ≤ b.toInt → b.toInt ≤ c.toInt → ∃ x h1 y h2 w h3 p,
      slice target (.int a) (.int b) h = .ok x h1 ∧ slice target (.int b) (.int c) h1 = .ok y h2 ∧
      slice target (.int a) (.int c) h = .ok w h3 ∧ w.sequence? h3 = some p ∧
      (p.Fits → ∃ z h4, binary (.arith .add) x y h2 = .ok z h4 ∧ z.sequence? h4 = some p)) ∧
    (∀ i j : Int64, 0 ≤ i.toInt → i.toInt < s.length → j.toInt = i.toInt + 1 → ∃ v h' p e,
      slice target (.int i) (.int j) h = .ok v h' ∧ v.sequence? h' = some p ∧ p.elements = [e] ∧
      indexGet h target (.int i) = .ok e) := by
  refine ⟨fun low high => ?_, fun a b c hab hbc => ?_, fun i j hi hlt hj => ?_⟩
  · split
    · next hinverted => rw [slice_eq hs, if_pos hinverted]
    · next hle =>
      have hslice := slice_eq hs low high
      rw [if_neg hle] at hslice
      refine ⟨_, _, _, _, _, hslice, sequence?_toValue _ _, clamped_clampTo _ _, clamped_clampTo _ _, ?_⟩
      exact segment_extract (clampTo_mono _ (Int.not_lt.mp hle)) (Nat.min_le_right _ _)
  · exact ⟨_, _, _, _, _, _, _, slice_ints hs hab, slice_ints (sequence?_after hs _ _) hbc,
      slice_ints hs (hab.trans hbc), sequence?_toValue _ _,
      join_parts (clampTo_mono _ hab) (clampTo_mono _ hbc)⟩
  · have hpart := segment_extract (s := s) (clampTo_mono _ (by omega : i.toInt ≤ j.toInt)) (Nat.min_le_right _ _)
    have hlength : s.elements.length = s.length := by cases s <;> simp [Sequence.elements, Sequence.length]
    obtain ⟨e, he⟩ : ∃ e, s.elements[i.toInt.toNat]? = some e := ⟨_, List.getElem?_eq_getElem (by omega)⟩
    refine ⟨_, _, _, e, slice_ints hs (by omega), sequence?_toValue _ _, ?_, indexGet_elements hs hi he⟩
    have hl : clampTo s.length i.toInt = i.toInt.toNat := by simp only [clampTo]; omega
    have hr : clampTo s.length j.toInt = i.toInt.toNat + 1 := by simp only [clampTo]; omega
    rw [hpart.elements, hl, hr, List.take_add_one, he]
    exact List.drop_left' (List.length_take_of_le (by omega))

end

/-- The middle of a text, by characters. -/
theorem text_slices_compose : ∃ v h' p e, slice (.str "aπb") (.int 1) (.int 2) {} = .ok v h' ∧
    v.sequence? h' = some p ∧ p.elements = [e] ∧ indexGet {} (.str "aπb") (.int 1) = .ok e :=
  (slices_compose (s := .chars #['a', 'π', 'b']) (h := {}) rfl).2.2 1 2 (by decide) (by decide) (by decide)

end Scripting.Value
