import Mathlib
import Scripting.Value.Equality
/-!
# `Proofs.Value.Equality` — equality of values

A comparison goes down into arrays and maps and, below `Limits.nesting` levels, takes containers for equal only if
they are the same object. `Equal h depth` says what it looks at, as a relation. On every heap it is symmetric and
transitive, and nothing but a not-a-number within these levels keeps a value from being equal to itself
(`equals_partialEquivalence`).

Where something is inside a value is said with paths: `Value.at? h path v` is what a path of indices and keys leads to.
-/

namespace Scripting

open List Value Dict

/-! ## Numbers -/

namespace Flonum

open Float.Model Float.Model.UnpackedFloat

/-- The bits of a number, as those of a packed one. -/
def packed (x : Flonum) : BitVec Format.binary64.numBits := x.bits.toBitVec

theorem isNaNBits_packed (x : Flonum) : isNaNBits x.packed = x.isNaN := by
  have hexponent : (unpackExponent x.packed).toNat = x.exponentField := by
    simp [packed, unpackExponent, exponentField, BitVec.extractLsb, BitVec.extractLsb', Nat.shiftRight_eq_div_pow]
  have hmantissa : (unpackMantissa x.packed).toNat = x.fraction := by
    simp [packed, unpackMantissa, fraction, BitVec.extractLsb, BitVec.extractLsb']
  unfold isNaNBits isNaN
  rw [← hexponent, ← hmantissa, Bool.eq_iff_iff]
  simp only [decide_eq_true_eq, Bool.and_eq_true, beq_iff_eq, bne_iff_ne, ne_eq, ← BitVec.toNat_inj]
  simp

/-- All numbers but the not-a-numbers keep their bits. -/
theorem toFloat_toBits (x : Flonum) :
    x.toFloat.toBits.toBitVec = if x.isNaN then packedNaN .binary64 else x.packed := by
  have hpack : x.toFloat.toBits.toBitVec = if isNaNBits x.packed then packedNaN .binary64 else x.packed :=
    pack_unpack x.packed
  rwa [isNaNBits_packed] at hpack

theorem toFloat_eq_nan_iff (x : Flonum) : x.toFloat = Float.nan ↔ x.isNaN = true := by
  have hbits := x.toFloat_toBits
  constructor
  · intro hnan
    by_contra hx
    rw [if_neg hx, hnan] at hbits
    -- the bits of the one not-a-number are those of a not-a-number
    refine hx ((isNaNBits_packed x).symm.trans ?_)
    rw [← hbits]
    decide +kernel
  · intro hx
    rw [if_pos hx] at hbits
    exact Float.toBits_inj.mp (UInt64.toBitVec_inj.mp hbits)

theorem toBits_toFloat {x : Flonum} (hx : x.toFloat ≠ Float.nan) : x.toFloat.toBits = x.bits := by
  have hbits := x.toFloat_toBits
  rw [if_neg (mt x.toFloat_eq_nan_iff.mpr hx)] at hbits
  exact UInt64.toBitVec_inj.mp hbits

/-- **A number equals itself** unless it is a not-a-number. -/
theorem eq_self_iff (x : Flonum) : x.eq x = true ↔ x.isNaN = false := by
  unfold Flonum.eq
  rw [Float.beq_iff_ne_nan_and_eq, Bool.eq_false_iff, ne_eq, ne_eq, toFloat_eq_nan_iff]
  exact ⟨fun h => h.1, fun h => ⟨h, h, .inl rfl⟩⟩

/-- Numbers that compare equal have the same bits, or are the two zeros. -/
theorem eq_cases {x y : Flonum} (h : x.eq y = true) :
    x = y ∨ x = ⟨0⟩ ∧ y = ⟨0x8000000000000000⟩ ∨ x = ⟨0x8000000000000000⟩ ∧ y = ⟨0⟩ := by
  obtain ⟨hx, hy, hxy⟩ := Float.beq_iff_ne_nan_and_eq.mp h
  have hbits := toBits_toFloat hx
  have hbits' := toBits_toFloat hy
  rcases hxy with hsame | ⟨hleft, hright⟩ | ⟨hleft, hright⟩
  · left
    rw [hsame, hbits'] at hbits
    exact congrArg Flonum.mk hbits.symm
  · rw [hleft] at hbits
    rw [hright] at hbits'
    exact .inr (.inl ⟨congrArg Flonum.mk hbits.symm, congrArg Flonum.mk hbits'.symm⟩)
  · rw [hleft] at hbits
    rw [hright] at hbits'
    exact .inr (.inr ⟨congrArg Flonum.mk hbits.symm, congrArg Flonum.mk hbits'.symm⟩)

theorem eq_symm {x y : Flonum} (heq : x.eq y = true) : y.eq x = true := by
  rcases eq_cases heq with rfl | ⟨rfl, rfl⟩ | ⟨rfl, rfl⟩
  · exact heq
  all_goals decide +kernel

theorem eq_trans {x y z : Flonum} (heq : x.eq y = true) (heq' : y.eq z = true) : x.eq z = true := by
  rcases eq_cases heq with rfl | ⟨rfl, rfl⟩ | ⟨rfl, rfl⟩
  · exact heq'
  all_goals
    rcases eq_cases heq' with rfl | ⟨-, rfl⟩ | ⟨-, rfl⟩
    all_goals decide +kernel

end Flonum

section

variable {h : Heap} {u v w : Value} {depth : Nat}

/-! ## Atoms -/

/-- Atoms that compare equal are the same, or numbers, or byte buffers. -/
theorem atomEq_cases (heq : v.atomEq h w = true) : v = w ∨
    (∃ x y, v = .float x ∧ w = .float y ∧ x.eq y = true) ∨
      ∃ r s, v = .bytes r ∧ w = .bytes s ∧ h.bytesAt r = h.bytesAt s := by
  unfold atomEq at heq
  split at heq
  case h_3 => exact .inr (.inl ⟨_, _, rfl, rfl, heq⟩)
  case h_7 a b =>
    have hnanos : a.nanos = b.nanos := eq_of_beq heq
    have hab : a = b := by
      cases a
      cases b
      cases hnanos
      rfl
    exact .inl (by rw [hab])
  case h_8 => exact .inr (.inr ⟨_, _, rfl, rfl, eq_of_beq heq⟩)
  all_goals first
    | cases heq
      done
    | exact .inl rfl
    | exact .inl (by rw [eq_of_beq heq])

theorem atomEq_self (hv : v.isContainer = false) (hx : ∀ x, v = .float x → x.isNaN = false) :
    v.atomEq h v = true := by
  cases v with
  | float x => exact x.eq_self_iff.mpr (hx x rfl)
  | array | map => cases hv
  | _ => simp [atomEq]

theorem atomEq_symm (heq : v.atomEq h w = true) : w.atomEq h v = true := by
  rcases atomEq_cases heq with rfl | ⟨x, y, rfl, rfl, hxy⟩ | ⟨r, s, rfl, rfl, content⟩
  · exact heq
  · exact Flonum.eq_symm hxy
  · exact beq_iff_eq.mpr content.symm

theorem atomEq_trans (heq : v.atomEq h w = true) (heq' : w.atomEq h u = true) : v.atomEq h u = true := by
  rcases atomEq_cases heq with rfl | ⟨x, y, rfl, rfl, hxy⟩ | ⟨r, s, rfl, rfl, content⟩
  · exact heq'
  · cases u with
    | float z => exact Flonum.eq_trans hxy heq'
    | _ => cases heq'
  · cases u with
    | bytes t => exact beq_iff_eq.mpr (content.trans (eq_of_beq heq'))
    | _ => cases heq'

/-! ## Dictionaries -/

theorem Dict.mem_of_get? {d : Dict Value} (hd : d.get? key = some v) : (key, v) ∈ d.entries := by
  unfold get? at hd
  generalize d.entries = es at hd
  induction es with
  | nil => cases hd
  | cons e rest ih =>
    unfold find? at hd
    split at hd
    · next heq =>
      cases hd
      rw [← heq]
      exact mem_cons_self
    · exact mem_cons_of_mem _ (ih hd)

/-- A dictionary as large as another one that has all its keys has the same keys. -/
theorem Dict.keys_perm {d e : Dict Value} (hsize : d.size = e.size) (hkeys : ∀ key ∈ d.keys, key ∈ e.keys) :
    d.keys.Perm e.keys := by
  have hlength : d.keys.length = e.keys.length := by
    rw [keys, keys, length_map, length_map]
    exact hsize
  exact (subperm_of_subset d.nodup hkeys).perm_of_length_le (Nat.le_of_eq hlength.symm)

theorem Dict.get?_of_mem {d : Dict Value} {e : String × Value} (he : e ∈ d.entries) : d.get? e.1 = some e.2 := by
  have hnodup := d.nodup
  unfold get?
  generalize d.entries = es at he hnodup
  induction es with
  | nil => cases he
  | cons e' rest ih =>
    rw [map_cons, nodup_cons] at hnodup
    unfold find?
    rcases mem_cons.mp he with rfl | he
    · exact if_pos rfl
    · have hne : e'.1 ≠ e.1 := fun heq => hnodup.1 (heq ▸ mem_map_of_mem he)
      rw [if_neg hne]
      exact ih he hnodup.2

theorem Dict.get?_of_mem_keys {d : Dict Value} {key : String} (hk : key ∈ d.keys) : ∃ v, d.get? key = some v := by
  obtain ⟨e, he, rfl⟩ := mem_map.mp hk
  exact ⟨e.2, get?_of_mem he⟩

/-! ## Comparisons -/

theorem eq_of_sameContainer (heq : sameContainer v w = true) : v = w := by
  unfold sameContainer at heq
  split at heq
  · rw [Bool.and_eq_true, beq_iff_eq, beq_iff_eq] at heq
    rw [heq.1, heq.2]
  · rw [Bool.and_eq_true, beq_iff_eq, beq_iff_eq] at heq
    rw [heq.1, heq.2]
  · cases heq

/-- **What a comparison looks at**: atoms, and the contents of containers as far down as it goes. -/
inductive Equal (h : Heap) : Nat → Value → Value → Prop
  | atom {depth : Nat} {v w : Value} (atoms : v.atomEq h w = true) : Equal h depth v w
  | same {v : Value} (container : v.isContainer = true) : Equal h 0 v v
  | array {depth : Nat} {kind kind' r s} (size : (h.arrayAt r).size = (h.arrayAt s).size)
      (items : ∀ (i : Nat) x y, (h.arrayAt r)[i]? = some x → (h.arrayAt s)[i]? = some y → Equal h depth x y) :
      Equal h (depth + 1) (.array kind r) (.array kind' s)
  | map {depth : Nat} {kind kind' r s} (keys : (h.mapAt r).keys.Perm (h.mapAt s).keys)
      (values : ∀ key x y, (h.mapAt r).get? key = some x → (h.mapAt s).get? key = some y → Equal h depth x y) :
      Equal h (depth + 1) (.map kind r) (.map kind' s)

theorem equal_of_equalsTo (heq : equalsTo h depth v w = true) : Equal h depth v w := by
  induction depth generalizing v w with
  | zero =>
    unfold equalsTo at heq
    split at heq
    · next hc =>
      rw [← eq_of_sameContainer heq]
      exact .same hc
    · exact .atom heq
  | succ depth ih =>
    unfold equalsTo at heq
    split at heq
    · simp only [Bool.and_eq_true, beq_iff_eq, all_eq_true] at heq
      obtain ⟨hsize, hall⟩ := heq
      refine .array hsize fun i x y hx hy => ih (hall (x, y) (mem_of_getElem? (i := i) ?_))
      rw [getElem?_zip_eq_some]
      exact ⟨by simpa using hx, by simpa using hy⟩
    · simp only [Bool.and_eq_true, beq_iff_eq, all_eq_true, Option.any_eq_true] at heq
      obtain ⟨hsize, hall⟩ := heq
      refine .map (keys_perm hsize fun key hkey => ?_) fun key x y hx hy => ?_
      · obtain ⟨e, he, rfl⟩ := mem_map.mp hkey
        obtain ⟨y, hy, _⟩ := hall e he
        exact mem_map.mpr ⟨(e.1, y), mem_of_get? hy, rfl⟩
      · obtain ⟨y', hy', heq⟩ := hall (key, x) (mem_of_get? hx)
        rw [hy] at hy'
        cases hy'
        exact ih heq
    · exact .atom heq

namespace Equal

theorem symm (he : Equal h depth v w) : Equal h depth w v := by
  induction he with
  | atom atoms => exact .atom (atomEq_symm atoms)
  | same hc => exact .same hc
  | array size _ ih => exact .array size.symm fun i x y hx hy => ih i y x hy hx
  | map keys _ ih => exact .map keys.symm fun key x y hx hy => ih key y x hy hx

theorem trans (he : Equal h depth v w) (he' : Equal h depth w u) : Equal h depth v u := by
  induction he generalizing u with
  | @atom _ v _ atoms =>
    cases he' with
    | atom atoms' => exact .atom (atomEq_trans atoms atoms')
    | same => exact .atom atoms
    | array | map => cases v <;> cases atoms
  | same => exact he'
  | array size _ ih =>
    cases he' with
    | atom atoms => cases atoms
    | array size' items =>
      refine .array (size.trans size') fun i x z hx hz => ?_
      have hi := (Array.getElem?_eq_some_iff.mp hx).1
      rw [size] at hi
      exact ih i x _ hx (Array.getElem?_eq_getElem hi) (items i _ z (Array.getElem?_eq_getElem hi) hz)
  | map keys _ ih =>
    cases he' with
    | atom atoms => cases atoms
    | map keys' values =>
      refine .map (keys.trans keys') fun key x z hx hz => ?_
      have hkey := keys.mem_iff.mp (mem_map_of_mem (mem_of_get? hx))
      obtain ⟨y, hy⟩ := get?_of_mem_keys hkey
      exact ih key x y hx hy (values key y z hy hz)

theorem equalsTo (he : Equal h depth v w) : v.equalsTo h depth w = true := by
  induction he with
  | @atom depth v w atoms => cases depth <;> cases v <;> first | exact atoms | cases atoms
  | @same v hc =>
    rw [Value.equalsTo, if_pos hc]
    cases v <;> simp_all [isContainer, sameContainer]
  | array size _ ih =>
    simp only [Value.equalsTo, Bool.and_eq_true, beq_iff_eq, all_eq_true]
    refine ⟨size, fun e he => ?_⟩
    obtain ⟨i, hi⟩ := getElem?_of_mem he
    obtain ⟨hx, hy⟩ := getElem?_zip_eq_some.mp hi
    exact ih i e.1 e.2 (by simpa using hx) (by simpa using hy)
  | map keys _ ih =>
    simp only [Value.equalsTo, Bool.and_eq_true, beq_iff_eq, all_eq_true, Option.any_eq_true]
    refine ⟨by simpa [Dict.keys, Dict.size] using keys.length_eq, fun e he => ?_⟩
    obtain ⟨y, hy⟩ := get?_of_mem_keys (keys.mem_iff.mp (mem_map_of_mem he))
    exact ⟨y, hy, ih e.1 e.2 y (get?_of_mem he) hy⟩

end Equal

theorem equalsTo_iff : v.equalsTo h depth w = true ↔ Equal h depth v w := ⟨equal_of_equalsTo, Equal.equalsTo⟩

end

/-! ## What is in reach -/

/-- One step down into a container. -/
inductive Edge
  | item (index : Nat)
  | entry (key : String)
  deriving DecidableEq, Repr

/-- The value one step down. -/
def Value.child? (h : Heap) (v : Value) (e : Edge) : Option Value :=
  match v with
  | .array _ r =>
    match e with
    | .item i => (h.arrayAt r)[i]?
    | .entry _ => none
  | .map _ r =>
    match e with
    | .item _ => none
    | .entry key => (h.mapAt r).get? key
  | _ => none

/-- **The value that a path leads to**, through arrays and maps. -/
def Value.at? (h : Heap) : List Edge → Value → Option Value
  | [], v => some v
  | e :: path, v => (v.child? h e).bind (at? h path)

section

variable {h : Heap} {v w x y : Value} {depth : Nat}

theorem Equal.child (he : Equal h (depth + 1) v w) (hx : v.child? h e = some x) (hy : w.child? h e = some y) :
    Equal h depth x y := by
  cases he with
  | atom atoms => cases v <;> first | cases atoms | cases hx
  | array _ items =>
    cases e with
    | item i => exact items i x y hx hy
    | entry => cases hx
  | map _ values =>
    cases e with
    | item => cases hx
    | entry key => exact values key x y hx hy

/-- There is no not-a-number in a value that is equal to itself. -/
theorem Equal.isNaN_eq_false {x : Flonum} (he : Equal h depth v v) (hlen : path.length ≤ depth)
    (hx : v.at? h path = some (.float x)) : x.isNaN = false := by
  induction path generalizing v depth with
  | nil =>
    cases hx
    cases he with
    | atom atoms => exact x.eq_self_iff.mp atoms
    | same container => cases container
  | cons e path ih =>
    obtain ⟨y, hy, hx⟩ := Option.bind_eq_some_iff.mp hx
    cases depth with
    | zero => cases hlen
    | succ depth => exact ih (he.child hy hy) (Nat.le_of_succ_le_succ hlen) hx

/-- A value with no not-a-number in it is equal to itself. -/
theorem Equal.self (hv : ∀ path x, path.length ≤ depth → v.at? h path = some (.float x) → x.isNaN = false) :
    Equal h depth v v := by
  induction depth generalizing v with
  | zero =>
    cases hc : v.isContainer with
    | true => exact .same hc
    | false => exact .atom (atomEq_self hc fun x hx => hv [] x (Nat.zero_le _) (congrArg some hx))
  | succ depth ih =>
    -- a path from a value inside is one from the container, too
    have hinside {e : Edge} {x : Value} (hx : v.child? h e = some x) : Equal h depth x x :=
      ih fun path z hlen hz =>
        hv (e :: path) z (Nat.succ_le_succ hlen) (Option.bind_eq_some_iff.mpr ⟨x, hx, hz⟩)
    cases v with
    | array kind r =>
      refine .array rfl fun i x y hx hy => ?_
      cases hx.symm.trans hy
      exact hinside (e := .item i) hx
    | map kind r =>
      refine .map (Perm.refl _) fun key x y hx hy => ?_
      cases hx.symm.trans hy
      exact hinside (e := .entry key) hx
    | _ => exact .atom (atomEq_self rfl fun x hx => hv [] x (Nat.zero_le _) (congrArg some hx))

end

/-- **Equality is symmetric and transitive**, on every heap, and a value is equal to itself exactly if no path of at
most `Limits.nesting` steps through arrays and maps leads from it to a not-a-number. -/
theorem equals_partialEquivalence (h : Heap) :
    (∀ a b : Value, a.equals h b = b.equals h a) ∧
      (∀ a b c : Value, a.equals h b = true → b.equals h c = true → a.equals h c = true) ∧
      ∀ a : Value, a.equals h a = true ↔ ¬∃ path x, path.length ≤ Limits.nesting ∧
        a.at? h path = some (.float x) ∧ x.isNaN = true := by
  refine ⟨fun a b => ?_, fun a b c hab hbc => ?_, fun a => ?_⟩
  · rw [Bool.eq_iff_iff, equals, equals, equalsTo_iff, equalsTo_iff]
    exact ⟨Equal.symm, Equal.symm⟩
  · exact ((equal_of_equalsTo hab).trans (equal_of_equalsTo hbc)).equalsTo
  · rw [equals, equalsTo_iff]
    constructor
    · rintro he ⟨path, x, hlen, hx, hnan⟩
      exact Bool.false_ne_true ((he.isNaN_eq_false hlen hx).symm.trans hnan)
    · intro hno
      refine .self fun path x hlen hx => Bool.eq_false_iff.mpr fun hnan => ?_
      exact hno ⟨path, x, hlen, hx, hnan⟩

/-- Two arrays, each of which contains itself, and a map with a not-a-number. -/
def loopHeap : Heap where
  arrays := #[#[.array .mutable 0], #[.array .mutable 1]]
  maps := #[ofList [("x", .float .nan)]]

/-- An array that contains itself is equal to itself, and not to another one; a map with a not-a-number is not. -/
theorem loopHeap_equals : (array .mutable 0).equals loopHeap (.array .mutable 0) = true ∧
    (array .mutable 0).equals loopHeap (.array .mutable 1) = false ∧
    (map .frozen 0).equals loopHeap (.map .frozen 0) = false := by
  obtain ⟨-, -, hself⟩ := equals_partialEquivalence loopHeap
  refine ⟨(hself _).mpr ?_, by decide +kernel, ?_⟩
  · rintro ⟨path, x, -, hx, -⟩
    -- every path leads back to the array
    induction path with
    | nil => cases hx
    | cons e path ih =>
      match e with
      | .item 0 => exact ih hx
      | .item (i + 1) => cases hx
      | .entry key => cases hx
  · refine Bool.eq_false_iff.mpr fun he => (hself _).mp he ?_
    exact ⟨[.entry "x"], .nan, by decide, by decide, by decide⟩

end Scripting
