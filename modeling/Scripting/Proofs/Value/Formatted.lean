import Mathlib.Data.List.Basic
import Mathlib.Data.String.Basic
import Mathlib.Tactic.IntervalCases
import Scripting.Builtin.Call
import Scripting.Proofs.Value.Arithmetic
/-!
# `Proofs.Value.Formatted` — integers that are formatted read back

A directive `%d` writes sign and digits, with spaces in front or behind, or with zeros after the sign. Reading drops
the spaces and takes the zeros for digits, so every flag and width gives a text of the integer (`formatted_reads_back`).
-/

namespace Scripting

open List Nat Integer Limits

/-! ## Digits -/

namespace Decimal

theorem isDigit_toDigits (hc : c ∈ toDigits 10 n) : c.isDigit = true :=
  isDigit_of_mem_toDigits (by decide) (by decide) hc

theorem digitsValue_eq : digitsValue ds = ofDigitChars 10 ds 0 := by
  simp only [ofDigitChars_eq_foldl, mul_comm 10]
  rfl

/-- A numeral does not begin with a zero, unless it is the one of zero. -/
theorem toDigits_head (n : Nat) (hn : 0 < n) : ∃ c cs, toDigits 10 n = c :: cs ∧ c ≠ '0' := by
  induction n using Nat.strongRecOn with
  | _ n ih =>
    rw [toDigits_eq_if (by decide)]
    split
    · refine ⟨n.digitChar, [], rfl, ?_⟩
      interval_cases n <;> decide
    · obtain ⟨c, cs, hcs, hc⟩ := ih (n / 10) (by omega) (by omega)
      exact ⟨c, cs ++ _, by rw [hcs]; rfl, hc⟩

theorem takeSign_digits (h : ∀ c ∈ ds, c.isDigit = true) : takeSign ds = (false, ds) := by
  unfold takeSign
  split
  · cases h '-' (mem_cons_self ..)
  · cases h '+' (mem_cons_self ..)
  · rfl

end Decimal

/-- The sign of an integer, where a plus sign is written or not. -/
def signText (plus : Bool) (n : Int) : List Char := if n < 0 then ['-'] else if plus then ['+'] else []

/-- Sign and digits of an integer, with zeros between them. -/
def numeralText (plus : Bool) (zeros : Nat) (n : Int) : List Char :=
  signText plus n ++ (replicate zeros '0' ++ toDigits 10 n.natAbs)

theorem numeralText_digits (hc : c ∈ replicate zeros '0' ++ toDigits 10 n) : c.isDigit = true := by
  rcases mem_append.mp hc with hc | hc
  · rw [eq_of_mem_replicate hc]
    rfl
  · exact Decimal.isDigit_toDigits hc

theorem numeralText_cases (hc : c ∈ numeralText plus zeros n) : c = '-' ∨ c = '+' ∨ c.isDigit = true := by
  rcases mem_append.mp hc with hc | hc
  · unfold signText at hc
    split at hc
    · exact .inl (mem_singleton.mp hc)
    · split at hc
      · exact .inr (.inl (mem_singleton.mp hc))
      · cases hc
  · exact .inr (.inr (numeralText_digits hc))

/-- **A numeral reads as its integer**, with a plus sign or zeros as well. -/
theorem signedNumeral?_numeralText : Decimal.signedNumeral? (numeralText plus zeros n) = some n := by
  have hnumeral : Decimal.numeral? (replicate zeros '0' ++ toDigits 10 n.natAbs) = some n.natAbs := by
    rw [Decimal.numeral?, if_neg]
    · rw [Decimal.digitsValue_eq, ofDigitChars_append, ofDigitChars_replicate_zero, mul_zero,
        ofDigitChars_ten_toDigits]
    · simpa using fun c hc => Decimal.isDigit_toDigits hc
  generalize hds : replicate zeros '0' ++ toDigits 10 n.natAbs = ds at hnumeral
  have hread (negative : Bool) (sign : List Char) (hsign : Decimal.takeSign (sign ++ ds) = (negative, ds))
      (hn : (if negative then -(n.natAbs : Int) else n.natAbs) = n) :
      Decimal.signedNumeral? (sign ++ ds) = some n := by
    rw [Decimal.signedNumeral?, hsign]
    simp only [hnumeral, Option.map_some, hn]
  unfold numeralText signText
  rw [hds]
  split
  · exact hread true ['-'] rfl (by simp only [if_true]; omega)
  · have hn : (if false = true then -(n.natAbs : Int) else n.natAbs) = n := by
      simp only [Bool.false_eq_true, if_false]
      omega
    split
    · exact hread false ['+'] rfl hn
    · exact hread false [] (Decimal.takeSign_digits fun c hc => numeralText_digits (hds ▸ hc)) hn

/-! ## Blanks -/

namespace Text

theorem isBlank_of_numeral (hc : c = '-' ∨ c = '+' ∨ c.isDigit = true) : isBlank c = false := by
  rcases hc with rfl | rfl | hc
  · rfl
  · rfl
  · simp only [Char.isDigit, Bool.and_eq_true, UInt32.le_iff_toNat_le] at hc
    have hn : c.toNat = c.val.toNat := rfl
    simp at hc
    refine Bool.eq_false_iff.mpr fun hb => ?_
    simp only [isBlank, blanks, any_cons, any_nil, Bool.or_eq_true, Bool.and_eq_true, decide_eq_true_eq,
      Bool.false_eq_true, or_false, hn] at hb
    omega

theorem dropWhile_spaces (k : Nat) (cs : List Char) (h : ∀ c ∈ cs.head?, isBlank c = false) :
    (replicate k ' ' ++ cs).dropWhile isBlank = cs := by
  rw [dropWhile_append_of_pos fun c hc => by rw [eq_of_mem_replicate hc]; rfl]
  cases cs with
  | nil => rfl
  | cons c cs => rw [dropWhile_cons_of_neg (by simp [h c rfl])]

/-- Trimming drops spaces at both ends. -/
theorem trim_spaces {cs : List Char} (a b : Nat) (hne : cs ≠ []) (h : ∀ c ∈ cs, isBlank c = false) :
    trim (String.ofList (replicate a ' ' ++ (cs ++ replicate b ' '))) = String.ofList cs := by
  have hfront := dropWhile_spaces a (cs ++ replicate b ' ') fun c hc => by
    rw [head?_append_of_ne_nil _ hne] at hc
    exact h c (mem_of_mem_head? hc)
  have hback := dropWhile_spaces b cs.reverse fun c hc => h c (mem_reverse.mp (mem_of_mem_head? hc))
  rw [trim, String.toList_ofList, hfront, trimEndList, reverse_append, reverse_replicate, hback,
    reverse_reverse]

end Text

/-! ## Directives -/

namespace Format

/-- A character that is a flag. -/
def IsFlag (c : Char) : Prop := c = '-' ∨ c = '+' ∨ c = '0'

theorem takeFlags_append (hrest : ∀ c ∈ rest.head?, ¬IsFlag c) : ∀ (flags : List Char) (spec : Spec),
    (∀ c ∈ flags, IsFlag c) → ∃ spec' : Spec, takeFlags spec (flags ++ rest) = (spec', rest) ∧
      spec'.plus = (spec.plus || decide ('+' ∈ flags))
  | [], spec, _ => by
    refine ⟨spec, ?_, by simp⟩
    rw [nil_append]
    unfold takeFlags
    split
    · exact absurd (.inl rfl) (hrest '-' rfl)
    · exact absurd (.inr (.inl rfl)) (hrest '+' rfl)
    · exact absurd (.inr (.inr rfl)) (hrest '0' rfl)
    · rfl
  | c :: flags, spec, h => by
    have hflags : ∀ c ∈ flags, IsFlag c := fun c hc => h c (mem_cons_of_mem _ hc)
    rcases h c (mem_cons_self ..) with rfl | rfl | rfl
    · simpa [takeFlags] using takeFlags_append hrest flags { spec with left := true } hflags
    · simpa [takeFlags] using takeFlags_append hrest flags { spec with plus := true } hflags
    · simpa [takeFlags] using takeFlags_append hrest flags { spec with zero := true } hflags

/-- A width, as it is written in a directive. -/
def widthText (width : Option Nat) : List Char := width.elim [] (toDigits 10)

theorem takeNumber_widthText : takeNumber (widthText width ++ ['d']) = (width, ['d']) := by
  cases width with
  | none => rfl
  | some w =>
    have hall : ∀ c ∈ toDigits 10 w, c.isDigit = true := fun c hc => Decimal.isDigit_toDigits hc
    have hspan : Decimal.spanDigits (toDigits 10 w ++ ['d']) = (toDigits 10 w, ['d']) := by
      rw [Decimal.spanDigits, takeWhile_append_of_pos hall, dropWhile_append_of_pos hall]
      simp
    simp only [takeNumber, widthText, Option.elim_some, hspan, Decimal.digitsValue_eq]
    simp

/-- A directive `%d` with these flags and this width is read as the given one. -/
structure Reads (flags : List Char) (width : Option Nat) (spec : Spec) : Prop where
  parse : parse ('%' :: (flags ++ (widthText width ++ ['d']))) = [.directive spec 'd']
  plus : spec.plus = decide ('+' ∈ flags)
  width : spec.width.getD 0 = width.getD 0
  precision : spec.precision = none

theorem reads_of_head (hf : ∀ c ∈ flags, IsFlag c) (width : Option Nat)
    (hw : ∀ c ∈ (widthText width ++ ['d']).head?, ¬IsFlag c) : ∃ spec, Reads flags width spec := by
  obtain ⟨spec, hspec, hplus⟩ := takeFlags_append hw flags {} hf
  have hread : takeSpec (flags ++ (widthText width ++ ['d'])) = ({ spec with width, precision := none }, ['d']) := by
    simp only [takeSpec, hspec, takeNumber_widthText]
    rfl
  refine ⟨{ spec with width, precision := none }, ?_, by simpa using hplus, rfl, rfl⟩
  rw [parse, if_pos rfl]
  split
  · next heq => rw [hread] at heq; cases heq
  · next heq =>
    rw [hread] at heq
    cases heq
    rw [if_neg (by decide), parse]

/-- **A directive is read as it is written**; a width of zero is read as a flag. -/
theorem exists_reads (hf : ∀ c ∈ flags, IsFlag c) (width : Option Nat) : ∃ spec, Reads flags width spec := by
  rcases width with _ | w
  · exact reads_of_head hf none (by simp [widthText, IsFlag])
  · rcases Nat.eq_zero_or_pos w with rfl | hpos
    · have hf' : ∀ c ∈ flags ++ ['0'], IsFlag c := by simpa [or_imp, forall_and, IsFlag] using hf
      obtain ⟨spec, h⟩ := reads_of_head hf' none (by simp [widthText, IsFlag])
      exact ⟨spec, by simpa [widthText] using h.parse, by simpa using h.plus, h.width, h.precision⟩
    · obtain ⟨c, cs, hcs, hc⟩ := Decimal.toDigits_head w hpos
      have hdigit : c.isDigit = true := Decimal.isDigit_toDigits (n := w) (hcs ▸ mem_cons_self ..)
      refine reads_of_head hf (some w) ?_
      simp only [widthText, Option.elim_some, hcs, cons_append, head?_cons, Option.mem_some_iff]
      rintro _ rfl (rfl | rfl | rfl)
      · cases hdigit
      · cases hdigit
      · exact hc rfl

/-- The numeral that a directive fills up. -/
theorem signed_text (spec : Spec) (n : Int64) :
    (spec.signed (n < 0) (text n)).toList = numeralText spec.plus 0 n.toInt := by
  have htext : (text n).toList = (if n.toInt < 0 then ['-'] else []) ++ toDigits 10 n.toInt.natAbs := by
    unfold text
    cases n.toInt with
    | ofNat m => simp [Int.repr, repr_eq_ofList_toDigits]
    | negSucc m => simp [Int.repr, repr_eq_ofList_toDigits, String.toList_append]
  have hneg : (n < 0) = (n.toInt < 0) := by rw [Int64.lt_iff_toInt_lt, Int64.toInt_zero]
  simp only [Spec.signed, numeralText, signText, hneg]
  by_cases h : n.toInt < 0
  · simp [h, htext]
  · cases spec.plus <;> simp [h, htext, String.toList_append]

/-- **Filling up** puts spaces around the numeral, or zeros into it, up to the width. -/
theorem pad_numeral (spec : Spec) (plus : Bool) (n : Int) (hbody : body.toList = numeralText plus 0 n) :
    ∃ a z b, spec.pad body = String.ofList (replicate a ' ' ++ (numeralText plus z n ++ replicate b ' ')) ∧
      a + b + (numeralText plus z n).length = max (spec.width.getD 0) (numeralText plus 0 n).length := by
  have hbody' : body = String.ofList (numeralText plus 0 n) := by rw [← hbody, String.ofList_toList]
  unfold Spec.pad
  cases spec.width with
  | none => exact ⟨0, 0, 0, by simpa using hbody', by simp⟩
  | some w =>
    simp only [hbody]
    split
    · exact ⟨0, 0, w - (numeralText plus 0 n).length, by simp [hbody'], by simp; omega⟩
    · split
      · refine ⟨0, w - (numeralText plus 0 n).length, 0, ?_, by simp [numeralText]; omega⟩
        simp only [replicate_zero, append_nil]
        congr 1
        unfold numeralText signText
        by_cases hneg : n < 0
        · simp [hneg]
        · cases plus with
          | true => simp [hneg]
          | false =>
            -- zeros go after the first character if that is a sign, and it is a digit here
            simp only [hneg, if_false, Bool.false_eq_true, nil_append, replicate_zero]
            split
            · next heq =>
              cases Decimal.isDigit_toDigits (c := '-') (n := n.natAbs) (heq ▸ mem_cons_self ..)
            · next heq =>
              cases Decimal.isDigit_toDigits (c := '+') (n := n.natAbs) (heq ▸ mem_cons_self ..)
            · rfl
      · exact ⟨w - (numeralText plus 0 n).length, 0, 0, by simp [hbody'], by simp; omega⟩

theorem utf8ByteSize_ascii : ∀ {cs : List Char}, (∀ c ∈ cs, c.utf8Size = 1) →
    (String.ofList cs).utf8ByteSize = cs.length
  | [], _ => rfl
  | c :: cs, h => by
    have ih := utf8ByteSize_ascii fun c hc => h c (mem_cons_of_mem _ hc)
    rw [String.utf8ByteSize_ofList] at ih ⊢
    rw [String.utf8Len_cons, ih, h c (mem_cons_self ..), length_cons]

theorem utf8Size_filled (hc : c ∈ replicate a ' ' ++ (numeralText plus z n ++ replicate b ' ')) :
    c.utf8Size = 1 := by
  simp only [mem_append] at hc
  rcases hc with hc | hc | hc
  · rw [eq_of_mem_replicate hc]
    rfl
  · rcases numeralText_cases hc with rfl | rfl | hc
    · rfl
    · rfl
    · simp only [Char.isDigit, Bool.and_eq_true, decide_eq_true_eq] at hc
      exact Char.utf8Size_eq_one_iff.mpr (UInt32.le_trans hc.2 (by decide))
  · rw [eq_of_mem_replicate hc]
    rfl

theorem numeralText_length_le (plus : Bool) (n : Int64) : (numeralText plus 0 n.toInt).length ≤ 20 := by
  have hn := toInt_mem n
  simp only [least, greatest] at hn
  have hdigits : (toDigits 10 n.toInt.natAbs).length ≤ 19 :=
    (length_toDigits_le_iff (by decide) (by decide)).mpr (by omega)
  have hsign : (signText plus n.toInt).length ≤ 1 := by
    unfold signText
    split
    · simp
    · split <;> simp
  simp only [numeralText, replicate_zero, nil_append, length_append]
  omega

/-- A template of one directive, whose text is within the limits. -/
theorem format_of_reads (hr : Reads flags width spec) (hw : width.getD 0 ≤ textSize)
    (hs : spec.pad (spec.signed (n < 0) (text n)) = s) (hsize : s.utf8ByteSize ≤ textSize) :
    format h (String.ofList ('%' :: (flags ++ (widthText width ++ ['d'])))) [.int n] = .ok s := by
  have hfill : fill h [.directive spec 'd'] [.int n] "" = .ok (s, []) := by
    have hrequested : ¬textSize - "".utf8ByteSize < spec.requested := by
      simp only [Spec.requested, hr.precision, hr.width]
      simpa using hw
    have hrender : render h spec 'd' (.int n) = s := hs
    simp only [fill, if_neg hrequested, fillDirective, hrender]
    simp [not_lt.mpr hsize]
  simp only [format, String.toList_ofList, hr.parse, hfill]
  simp [surplus, not_lt.mpr hsize, bind, Except.bind, pure, Except.pure]

end Format

namespace Builtin

open Format

/-- **A formatted integer reads back.** With any flags and any width up to the limit, a directive `%d` gives a text as
long as the width or, if that is longer, the numeral with its sign, and the text converts to the integer again. -/
theorem formatted_reads_back (n : Int64) {flags : List Char} (hf : ∀ c ∈ flags, IsFlag c) {width : Option Nat}
    (hw : ∀ w ∈ width, w ≤ textSize) (h : Heap) : ∃ s : String,
    call .format [.str (String.ofList ('%' :: (flags ++ (widthText width ++ ['d'])))), .int n] h = .ok (.str s) h ∧
      s.length = max (width.getD 0) (numeralText ('+' ∈ flags) 0 n.toInt).length ∧
      call .int [.str s] h = .ok (.int n) h := by
  obtain ⟨spec, hreads⟩ := exists_reads hf width
  obtain ⟨a, z, b, hpad, hlength⟩ := pad_numeral spec _ n.toInt (signed_text spec n)
  rw [hreads.plus, hreads.width] at hlength
  have hle : width.getD 0 ≤ textSize := by
    cases width with
    | none => exact zero_le _
    | some w => exact hw w rfl
  have hshort := numeralText_length_le (decide ('+' ∈ flags)) n
  have hlimit : (20 : Nat) ≤ textSize := by decide
  rw [hreads.plus] at hpad
  generalize hs : spec.pad (spec.signed (n < 0) (text n)) = s at hpad
  have hsize : s.utf8ByteSize ≤ textSize := by
    rw [hpad, utf8ByteSize_ascii fun _ hc => utf8Size_filled hc]
    simp only [length_append, length_replicate]
    omega
  refine ⟨s, ?_, ?_, ?_⟩
  · show Action.ofExcept ((Format.format h _ [.int n]).map Value.str) h = _
    rw [format_of_reads hreads hle hs hsize]
    rfl
  · rw [hpad, String.length_ofList]
    simp only [length_append, length_replicate]
    omega
  · have hne : numeralText ('+' ∈ flags) z n.toInt ≠ [] := by simp [numeralText, toDigits_ne_nil]
    have hread : ofText? (Text.trim s) = some n := by
      rw [hpad, Text.trim_spaces a b hne fun c hc => Text.isBlank_of_numeral (numeralText_cases hc),
        ofText?, String.toList_ofList, signedNumeral?_numeralText]
      exact ofInt?_toInt n
    simp [call, convert, Value.toInt?, hread]

/-- The least integer, with a sign and zeros. -/
theorem least_reads_back : ∃ s : String,
    call .format [.str (String.ofList ('%' :: (['+', '0'] ++ (widthText (some 30) ++ ['d'])))),
      .int Int64.minValue] {} =
        .ok (.str s) {} ∧
      s.length = max 30 (numeralText ('+' ∈ ['+', '0']) 0 Int64.minValue.toInt).length ∧
      call .int [.str s] {} = .ok (.int Int64.minValue) {} :=
  formatted_reads_back _ (by simp [IsFlag]) (by simp [textSize]) _

end Builtin

end Scripting
