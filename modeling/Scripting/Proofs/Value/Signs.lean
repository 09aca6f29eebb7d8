import Scripting.Proofs.Value.Equality
import Scripting.Proofs.Value.Formatted
/-!
# `Proofs.Value.Signs` — numbers are written with one sign

The sign of a number is printed with its digits, a plus sign is added where a comparison says that the number is not
negative, and zeros go after the sign. For integers and for all floating-point numbers but one the three agree
(`number_signs`). The exception is the negative zero, which is printed with a sign but is not below zero.
-/

namespace Scripting

open List

/-! ## The sign of a floating-point number -/

namespace Flonum

open Float.Model Float.Model.UnpackedFloat UnpackedFloat

/-- A number with this sign. -/
inductive HasSign (s : Sign) : UnpackedFloat → Prop
  | infinity : HasSign s (.infinity s)
  | zero : HasSign s (.zero s)
  | finite (m e hm) : HasSign s (.finite s m e hm)

variable {s s' : Sign} {u : UnpackedFloat} {m n : Nat} {e : Int} {a : Accuracy} {x : Flonum}

theorem hasSign_unpack {b : BitVec Format.binary64.numBits} (hb : isNaNBits b = false) :
    HasSign (Sign.ofBitVec (unpackSign b)) (unpack .binary64 b) := by
  simp only [isNaNBits, decide_eq_false_iff_not, not_and, not_not] at hb
  unfold UnpackedFloat.unpack
  dsimp only
  split
  · next hexponent =>
    rw [if_pos (hb hexponent)]
    exact .infinity
  · split
    · split
      · exact .zero
      · exact .finite ..
    · exact .finite ..

/-- Packing keeps the sign and gives no not-a-number. -/
theorem unpackSign_pack (hu : HasSign s u) :
    unpackSign (pack .binary64 u) = s.toBitVec ∧
      isNaNBits (pack .binary64 u) = false := by
  cases hu with
  | infinity => simp [UnpackedFloat.pack, packedInfinity, isNaNBits]
  | zero => simp [UnpackedFloat.pack, packedZero, isNaNBits]
  | finite m e hm =>
    unfold UnpackedFloat.pack
    dsimp only
    split
    · simp [packedInfinity, isNaNBits]
    · next hlimit =>
      split
      · refine ⟨unpackSign_packComponents .., ?_⟩
        rw [isNaNBits, decide_eq_false_iff_not, unpackExponent_packComponents]
        intro hnan
        have hall := congrArg BitVec.toNat hnan.1
        simp at hall hlimit
        omega
      · simp [isNaNBits]

theorem HasSign.repack (hu : HasSign s u) : HasSign s (Float.Model.pack u).unpack := by
  obtain ⟨hsign, hnan⟩ := unpackSign_pack hu
  have hunpack := hasSign_unpack hnan
  rwa [hsign, Sign.ofBitVec_toBitVec] at hunpack

theorem HasSign.neg (hu : HasSign s u) : HasSign (-s) u.neg := by
  cases hu with
  | infinity => exact .infinity
  | zero => exact .zero
  | finite m e hm => exact .finite ..

theorem hasSign_round : HasSign s (roundWithAccuracy .binary64 s m e a) := by
  unfold roundWithAccuracy
  dsimp only
  split
  · exact .zero
  · exact .finite ..

theorem HasSign.mul (hu : HasSign .positive u) (m : Nat) (e : Int) (hm : 0 < m) :
    HasSign .positive (UnpackedFloat.mul .binary64 u (.finite .positive m e hm)) := by
  cases hu with
  | infinity => exact .infinity
  | zero => exact .zero
  | finite => exact hasSign_round ..

theorem hasSign_ofScientific : HasSign .positive (ofScientific .binary64 n 0) := by
  unfold UnpackedFloat.ofScientific
  split
  · exact .zero
  · rw [if_neg (by decide), if_neg (by simp), if_pos (Int.le_refl 0)]
    exact (HasSign.finite _ _ _).mul ..

theorem one_finite : ∃ m e hm, (Float.ofBits 0x3FF0000000000000).toModel.unpack = .finite .positive m e hm := by
  have hbits : (Float.ofBits 0x3FF0000000000000).toModel.toBits.toBitVec = 0x3FF0000000000000#64 := by decide +kernel
  unfold Float.Model.unpack
  rw [hbits]
  unfold UnpackedFloat.unpack
  dsimp only
  rw [if_neg (by decide), if_neg (by decide), show Sign.ofBitVec _ = Sign.positive from if_pos (by decide)]
  exact ⟨_, _, by decide +kernel, rfl⟩

theorem hasSign_ofNat : HasSign .positive (Float.ofNat n).toModel.unpack := by
  show HasSign .positive (Float.ofScientific n false 0).toModel.unpack
  unfold Float.ofScientific
  split
  · -- a product with one
    have hnat : HasSign .positive (UnpackedFloat.ofInt .binary64 (n.toUInt64.toNat : Int)) := by
      unfold UnpackedFloat.ofInt UnpackedFloat.normalize
      split
      · next hlt => exact absurd (Int.compare_eq_lt.mp hlt) (by omega)
      · exact .zero
      · exact hasSign_round ..
    obtain ⟨m, e, hm, hone⟩ := one_finite
    have hproduct := hnat.repack.mul m e hm
    rw [← hone] at hproduct
    exact hproduct.repack
  · exact hasSign_ofScientific.repack

theorem hasSign_ofInt {n : Int} :
    HasSign (if n < 0 then .negative else .positive) (Float.ofInt n).toModel.unpack := by
  cases n with
  | ofNat n => exact hasSign_ofNat
  | negSucc n =>
    rw [if_pos (Int.negSucc_lt_zero n)]
    exact hasSign_ofNat.neg.repack

theorem isNegative_iff (x : Flonum) : x.isNegative = true ↔ Sign.ofBitVec (unpackSign x.packed) = .negative := by
  have hlt := x.bits.toNat_lt
  have hsign : (unpackSign x.packed).toNat = x.bits.toNat / 0x8000000000000000 := by
    simp [unpackSign_def, packed, BitVec.extractLsb', Nat.shiftRight_eq_div_pow]
    omega
  rw [isNegative, decide_eq_true_eq, Sign.ofBitVec]
  by_cases hzero : unpackSign x.packed = 0#1
  · rw [hzero] at hsign
    simp at hsign
    simp [hzero]
    omega
  · have hone := mt BitVec.toNat_inj.mp hzero
    rw [hsign] at hone
    simp at hone
    simp [hzero]
    omega

theorem HasSign.eq (hu : HasSign s u) (hu' : HasSign s' u) : s = s' := by
  cases hu <;> cases hu' <;> rfl

theorem HasSign.not_nan (hx : HasSign s (unpack .binary64 x.packed)) : x.isNaN = false := by
  rw [← isNaNBits_packed, Bool.eq_false_iff]
  intro hnan
  obtain ⟨hexponent, hmantissa⟩ := of_decide_eq_true hnan
  unfold UnpackedFloat.unpack at hx
  dsimp only at hx
  rw [if_pos hexponent, if_neg hmantissa] at hx
  cases hx

/-- **The sign of a number**, from its bits. -/
theorem hasSign (x : Flonum) (hx : x.isNaN = false) :
    HasSign (if x.isNegative then .negative else .positive) (unpack .binary64 x.packed) := by
  have hunpack := hasSign_unpack ((isNaNBits_packed x).trans hx)
  have hnegative := x.isNegative_iff
  cases hsign : Sign.ofBitVec (unpackSign x.packed) <;> simp_all

/-- **A number made of an integer has its sign.** -/
theorem ofInt_isNegative (n : Int) : (ofInt n).isNegative = decide (n < 0) ∧ (ofInt n).isNaN = false := by
  have hsign : HasSign (if n < 0 then .negative else .positive) (unpack .binary64 (ofInt n).packed) :=
    hasSign_ofInt
  refine ⟨?_, hsign.not_nan⟩
  have heq := hsign.eq ((ofInt n).hasSign hsign.not_nan)
  by_cases hn : n < 0 <;> cases hneg : (ofInt n).isNegative <;> simp_all

/-- The zero with a sign. -/
def negativeZero : Flonum := ⟨0x8000000000000000⟩

theorem unpack_toFloat (hx : x.isNaN = false) :
    x.toFloat.toModel.unpack = unpack .binary64 x.packed := by
  have hbits := toBits_toFloat (mt (toFloat_eq_nan_iff x).mp (by simp [hx]))
  show unpack .binary64 x.toFloat.toBits.toBitVec = _
  rw [hbits]
  rfl

/-- **What is below zero** has a sign and is not the zero with a sign. -/
theorem lt_zero (hx : x.isNaN = false) : x.lt ⟨0⟩ = (x.isNegative && decide (x ≠ negativeZero)) := by
  by_cases hzero : x = negativeZero
  · rw [hzero]
    decide +kernel
  · have hright : (⟨0⟩ : Flonum).toFloat.toModel.unpack = .zero .positive := by
      have hbits : (⟨0⟩ : Flonum).packed = packedZero .binary64 .positive := by decide +kernel
      rw [unpack_toFloat (by decide), hbits, unpack_packedZero]
    have hlt : x.lt ⟨0⟩ = (unpack .binary64 x.packed).lt (.zero .positive) := by
      rw [← unpack_toFloat hx, ← hright]
      exact Bool.decide_eq_true
    have hpack := pack_unpack x.packed
    rw [isNaNBits_packed, hx, if_neg (by decide)] at hpack
    have hsign := x.hasSign hx
    rw [hlt, decide_eq_true hzero, Bool.and_true]
    generalize unpack .binary64 x.packed = u at hsign hpack
    cases hneg : x.isNegative with
    | false =>
      rw [hneg] at hsign
      cases hsign <;> rfl
    | true =>
      rw [hneg] at hsign
      cases hsign with
      | infinity => rfl
      | zero => exact absurd (congrArg mk (UInt64.toBitVec_inj.mp hpack.symm)) hzero
      | finite => rfl

end Flonum

/-! ## Signs in texts -/

/-- The signs in front of the first digit or letter of a text. -/
def leadingSigns (s : String) : List Char := (s.toList.takeWhile (!·.isAlphanum)).filter fun c => c = '+' ∨ c = '-'

/-- A text that begins with a minus sign or not, and then has a digit or a letter. -/
def IsSigned (negative : Bool) (s : String) : Prop :=
  ∃ c cs, c.isAlphanum = true ∧ s.toList = (if negative then ['-'] else []) ++ c :: cs

variable {negative : Bool} {s : String} {c : Char} {cs : List Char}

theorem IsSigned.head? (hs : IsSigned negative s) : s.toList.head? = some '-' ↔ negative = true := by
  obtain ⟨c, cs, hc, hs⟩ := hs
  rw [hs]
  cases negative with
  | true => simp
  | false =>
    simp only [Bool.false_eq_true, if_false, nil_append, head?_cons, Option.some.injEq, iff_false]
    rintro rfl
    cases hc

namespace Decimal

theorem positional_head {digits : Nat} {exponent : Int} :
    ∃ c cs, c.isAlphanum = true ∧ (positional digits exponent).toList = c :: cs := by
  have hdigits (ds : List Char) (hds : ∀ c ∈ ds, c.isDigit = true) (hne : ds ≠ []) (rest : List Char) :
      ∃ c cs, c.isAlphanum = true ∧ ds ++ rest = c :: cs := by
    obtain ⟨c, cs, rfl⟩ := exists_cons_of_ne_nil hne
    refine ⟨c, cs ++ rest, ?_, rfl⟩
    rw [Char.isAlphanum, hds c (mem_cons_self ..), Bool.or_true]
  unfold positional
  cases exponent with
  | ofNat e =>
    simp only [String.toList_append, String.toList_ofList]
    exact hdigits _ (fun c hc => isDigit_toDigits hc) Nat.toDigits_ne_nil _
  | negSucc e =>
    simp only [String.toList_append, String.toList_ofList, append_assoc]
    refine hdigits _ (fun c hc => ?_) ?_ _
    · exact numeralText_digits (mem_of_mem_take hc)
    · simp
      omega

end Decimal

namespace Flonum

theorem isSigned_signed (x : Flonum) {body : String} (hbody : ∃ c cs, c.isAlphanum = true ∧ body.toList = c :: cs) :
    IsSigned x.isNegative (x.signed body) := by
  obtain ⟨c, cs, hc, hbody⟩ := hbody
  refine ⟨c, cs, hc, ?_⟩
  unfold signed
  split
  · rw [String.toList_append, hbody]
    rfl
  · exact hbody

theorem isSigned_text {x : Flonum} (hx : x.isNaN = false) : IsSigned x.isNegative x.text := by
  unfold text
  rw [if_neg (by simp [hx])]
  split
  · exact x.isSigned_signed ⟨'i', ['n', 'f'], rfl, rfl⟩
  · split
    · exact x.isSigned_signed ⟨'0', [], rfl, rfl⟩
    · exact x.isSigned_signed (Decimal.positional_head ..)

theorem isSigned_textFixed {x : Flonum} (hx : x.isNaN = false) (places : Nat) :
    IsSigned x.isNegative (x.textFixed places) := by
  unfold textFixed
  rw [if_neg (by simp [hx])]
  split
  · exact x.isSigned_signed ⟨'i', ['n', 'f'], rfl, rfl⟩
  · exact x.isSigned_signed (Decimal.positional_head ..)

end Flonum

theorem Integer.isSigned_text (n : Int64) : IsSigned (n < 0) (Integer.text n) := by
  have htext : (Integer.text n).toList = numeralText false 0 n.toInt := Format.signed_text {} n
  obtain ⟨c, cs, hdigits⟩ := exists_cons_of_ne_nil (Nat.toDigits_ne_nil (b := 10) (n := n.toInt.natAbs))
  refine ⟨c, cs, ?_, ?_⟩
  · rw [Char.isAlphanum, Decimal.isDigit_toDigits (hdigits ▸ mem_cons_self ..), Bool.or_true]
  · simp [htext, numeralText, signText, hdigits, Int64.lt_iff_toInt_lt]

namespace Format

open Flonum

/-- Signs before a digit or a letter, with spaces in front. -/
theorem leadingSigns_eq (a : Nat) (cs : List Char) {signs : List Char} (hsigns : ∀ c ∈ signs, c = '+' ∨ c = '-')
    (hc : c.isAlphanum = true) (hs : s.toList = replicate a ' ' ++ (signs ++ c :: cs)) : leadingSigns s = signs := by
  have hspaces : ∀ c ∈ replicate a ' ', (!c.isAlphanum) = true := fun c hc => by
    rw [eq_of_mem_replicate hc]
    rfl
  have hnot : ∀ c ∈ signs, (!c.isAlphanum) = true := fun c hc => by rcases hsigns c hc with rfl | rfl <;> rfl
  have hnone : (replicate a ' ').filter (fun c => c = '+' ∨ c = '-') = [] := filter_eq_nil_iff.mpr fun c hc => by
    rw [eq_of_mem_replicate hc]
    decide
  have hall : signs.filter (fun c => c = '+' ∨ c = '-') = signs := filter_eq_self.mpr (by simpa using hsigns)
  rw [leadingSigns, hs, takeWhile_append_of_pos hspaces, takeWhile_append_of_pos hnot,
    takeWhile_cons_of_neg (by simp [hc]), append_nil, filter_append, hnone, hall, nil_append]

/-- **Filling up** keeps the signs, unless there are several and zeros go between them. -/
theorem leadingSigns_pad (spec : Spec) {body : String} {signs : List Char} (hsigns : ∀ c ∈ signs, c = '+' ∨ c = '-')
    (hc : c.isAlphanum = true) (hbody : body.toList = signs ++ c :: cs) :
    ∃ k, leadingSigns (spec.pad body) = signs.take (k + 1) := by
  have hwhole (s : String) (a : Nat) (ds : List Char) (hs : s.toList = replicate a ' ' ++ (signs ++ c :: ds)) :
      ∃ k, leadingSigns s = signs.take (k + 1) :=
    ⟨signs.length, by rw [leadingSigns_eq a ds hsigns hc hs, take_of_length_le (Nat.le_succ _)]⟩
  -- zeros go after the first sign
  have hzeros (fill : Nat) (sign rest : List Char) (hsplit : signs = sign ++ rest) (hfirst : signs.take 1 = sign) :
      ∃ k, leadingSigns (String.ofList (sign ++ replicate fill '0' ++ (rest ++ c :: cs))) = signs.take (k + 1) := by
    cases fill with
    | zero => exact hwhole _ 0 cs (by simp [hsplit])
    | succ fill =>
      have hsign : ∀ c ∈ sign, c = '+' ∨ c = '-' := fun c hc => hsigns c (hsplit ▸ mem_append_left _ hc)
      refine ⟨0, (leadingSigns_eq 0 (replicate fill '0' ++ (rest ++ c :: cs)) hsign (c := '0') rfl ?_).trans
        hfirst.symm⟩
      rw [String.toList_ofList, replicate_zero, nil_append, append_assoc]
      rfl
  unfold Spec.pad
  cases spec.width with
  | none => exact hwhole _ 0 cs hbody
  | some width =>
    dsimp only
    generalize width - body.toList.length = fill
    split
    · exact hwhole _ 0 (cs ++ replicate fill ' ') (by simp [hbody])
    · split
      · rw [hbody]
        cases signs with
        | nil =>
          rw [nil_append]
          split
          · next heq =>
            cases heq
            cases hc
          · next heq =>
            cases heq
            cases hc
          · exact hzeros fill [] [] rfl rfl
        | cons s signs =>
          rcases hsigns s (mem_cons_self ..) with rfl | rfl
          · exact hzeros fill ['+'] signs rfl rfl
          · exact hzeros fill ['-'] signs rfl rfl
      · exact hwhole _ fill cs (by simp [hbody])

/-- A verb that writes a number. -/
inductive WritesNumber : Char → Value → Prop
  | int (n : Int64) (hverb : verb = 'v' ∨ verb = 'd' ∨ verb = 'f') : WritesNumber verb (.int n)
  | float (x : Flonum) (hx : x.isNaN = false) (hverb : verb = 'v' ∨ verb = 'f') : WritesNumber verb (.float x)

/-- **Where the sign comes from**: the printed text has the sign of the number, and what is below zero has one. -/
theorem body?_number (h : Heap) (spec : Spec) {verb : Char} {arg : Value} (hnumber : WritesNumber verb arg) :
    ∃ negative below s, body? h spec verb arg = some (spec.signed below s) ∧ IsSigned negative s ∧
      IsSigned negative (arg.plain h) ∧
      (arg ≠ .float negativeZero ∧ below = negative ∨ arg = .float negativeZero ∧ below = false) := by
  cases hnumber with
  | int n hverb =>
    have hplain := Integer.isSigned_text n
    rcases hverb with rfl | rfl | rfl
    · exact ⟨_, _, _, rfl, hplain, hplain, .inl ⟨by simp, rfl⟩⟩
    · exact ⟨_, _, _, rfl, hplain, hplain, .inl ⟨by simp, rfl⟩⟩
    · obtain ⟨hnegative, hnan⟩ := ofInt_isNegative n.toInt
      have hfixed := isSigned_textFixed hnan (spec.precision.getD 6)
      have hless : decide (n.toInt < 0) = decide (n < 0) := by simp [Int64.lt_iff_toInt_lt]
      rw [hnegative, hless] at hfixed
      exact ⟨_, _, _, rfl, hfixed, hplain, .inl ⟨by simp, rfl⟩⟩
  | float x hx hverb =>
    have hbelow : Value.float x ≠ .float negativeZero ∧ x.lt ⟨0⟩ = x.isNegative ∨
        Value.float x = .float negativeZero ∧ x.lt ⟨0⟩ = false := by
      rw [lt_zero hx]
      by_cases hzero : x = negativeZero <;> simp [hzero]
    have hplain := isSigned_text hx
    rcases hverb with rfl | rfl
    · refine ⟨_, _, _, rfl, ?_, hplain, hbelow⟩
      cases spec.precision with
      | none => exact hplain
      | some p => exact isSigned_textFixed hx p
    · exact ⟨_, _, _, rfl, isSigned_textFixed hx _, hplain, hbelow⟩

/-- **Numbers are written with one sign.** Whatever the flags, the width and the precision are, a number other than the
not-a-numbers has at most one sign before its first digit or letter; it is a minus sign exactly if the plain text of the
number begins with one, and with the flag `+` there is one. Only the zero with a sign, written with that flag, gets a
plus sign in front of its own. -/
theorem number_signs (h : Heap) (spec : Spec) {verb : Char} {arg : Value} (hnumber : WritesNumber verb arg) :
    (¬(spec.plus = true ∧ arg = .float negativeZero) → (leadingSigns (render h spec verb arg)).length ≤ 1 ∧
      ('-' ∈ leadingSigns (render h spec verb arg) ↔ (arg.plain h).toList.head? = some '-') ∧
      (spec.plus = true → (leadingSigns (render h spec verb arg)).length = 1)) ∧
    (spec.plus = true ∧ arg = .float negativeZero →
      (leadingSigns (render h spec verb arg)).head? = some '+' ∧ (arg.plain h).toList.head? = some '-') := by
  obtain ⟨negative, below, s, hbody, ⟨c, cs, hc, hs⟩, hplain, hbelow⟩ := body?_number h spec hnumber
  have htext : (spec.signed below s).toList =
      ((if spec.plus && !below then ['+'] else []) ++ if negative then ['-'] else []) ++ c :: cs := by
    rw [Spec.signed, append_assoc, ← hs]
    split
    · rw [String.toList_append]
      rfl
    · rfl
  have hsigns : ∀ c ∈ (if spec.plus && !below then ['+'] else []) ++ (if negative then ['-'] else []),
      c = '+' ∨ c = '-' := by
    cases spec.plus <;> cases below <;> cases negative <;> simp
  obtain ⟨k, hk⟩ := leadingSigns_pad spec hsigns hc htext
  have hrender : render h spec verb arg = spec.pad (spec.signed below s) := by rw [render, hbody]
  rw [hrender, hk, hplain.head?]
  rcases hbelow with ⟨hzero, rfl⟩ | ⟨rfl, rfl⟩
  · refine ⟨fun _ => ?_, fun h => absurd h.2 hzero⟩
    cases spec.plus <;> cases below <;> simp
  · have hnegative : negative = true :=
      hplain.head?.mp ((isSigned_text (x := negativeZero) (by decide)).head?.mpr (by decide))
    subst hnegative
    cases spec.plus <;> simp

/-- An infinity with a sign, in a field filled with zeros. -/
theorem infinity_signs : (leadingSigns (render {} { plus := true, zero := true, width := some 9 } 'f'
    (.float infinity))).length = 1 :=
  ((number_signs {} _ (.float _ (by decide) (.inr rfl))).1 (by decide)).2.2 rfl

/-- The zero with a sign, written with the flag `+`, has both signs. -/
theorem negativeZero_signs : render {} { plus := true } 'v' (.float negativeZero) = "+-0" := by
  decide +kernel

end Format

end Scripting
