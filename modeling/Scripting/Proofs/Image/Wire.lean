import Mathlib.Algebra.Ring.Nat
import Mathlib.Data.List.Basic
import Scripting.Source
import Scripting.Wire
/-!
# `Proofs.Image.Wire` — what is written can be read

`Reads r bytes a` says that the reader `r` finds `a` at the front of every input that begins with
`bytes`, and leaves the rest. It is proved here for numbers, texts and sequences, each against the
function that writes them. Numbers are natural numbers without a bound, but readers give up after ten
bytes; so what is written must be below `2 ^ 64`, as all numbers and sizes of a running program are.

Readers are put together with `Reads.bind`: the bytes of two parts, one after the other.
-/

namespace Scripting.Wire

open List

/-- **The reader finds `a` at the front of the input and leaves the rest.** -/
def Reads {α : Type} (r : Reader α) (bytes : List UInt8) (a : α) : Prop := ∀ rest, r (bytes ++ rest) = .ok (a, rest)

namespace Reads

variable {α β : Type} {r : Reader α} {bytes bytes' : List UInt8} {a : α} {b : β}

theorem pure (a : α) : Reads (pure a) [] a := fun _ => rfl

theorem bind (hr : Reads r bytes a) (hf : Reads (f a) bytes' b) : Reads (r >>= f) (bytes ++ bytes') b := by
  intro rest
  show (r (bytes ++ bytes' ++ rest) >>= fun p => f p.1 p.2) = .ok (b, rest)
  rw [append_assoc, hr]
  exact hf rest

theorem last (hr : Reads r bytes a) (hf : Reads (f a) [] b) : Reads (r >>= f) bytes b := by
  have h := hr.bind hf
  rwa [append_nil] at h

theorem map (hr : Reads r bytes a) (f : α → β) : Reads (r >>= fun a => Pure.pure (f a)) bytes (f a) :=
  hr.last (pure (f a))

end Reads

/-! ## Numbers -/

theorem byte_reads (b : UInt8) : Reads Reader.byte [b] b := fun _ => rfl

theorem take_reads (bytes : List UInt8) : Reads (Reader.take bytes.length) bytes bytes := by
  intro rest
  unfold Reader.take
  simp

theorem nat_of_lt (hn : n < 128) : nat n = [UInt8.ofNat n] := by
  rw [nat, if_pos hn]

theorem nat_of_le (hn : 128 ≤ n) : nat n = UInt8.ofNat (n % 128 + 128) :: nat (n / 128) := by
  rw [nat, if_neg (Nat.not_lt_of_le hn)]

theorem toNat_ofNat (hn : n < 256) : (UInt8.ofNat n).toNat = n := UInt8.toNat_ofNat_of_lt' hn

theorem natIn_small (hn : n < 128) (hlast : left = 0 → n ≤ last) :
    Reads (Reader.natIn last (left + 1)) (nat n) n := by
  have hbyte : (UInt8.ofNat n).toNat = n := toNat_ofNat (by omega)
  intro rest
  rw [nat_of_lt hn]
  show (if 128 ≤ (UInt8.ofNat n).toNat then _ else _ : Reader Nat) rest = _
  rw [hbyte, if_neg (Nat.not_le_of_lt hn), if_neg]
  · rfl
  · simp only [Bool.and_eq_true, decide_eq_true_eq]
    omega

/-- The first byte says that more follow. -/
theorem natIn_large (hn : 128 ≤ n) (hr : Reads (Reader.natIn last left) (nat (n / 128)) (n / 128)) :
    Reads (Reader.natIn last (left + 1)) (nat n) n := by
  have hbyte : (UInt8.ofNat (n % 128 + 128)).toNat = n % 128 + 128 := toNat_ofNat (by omega)
  have hsum : n % 128 + 128 - 128 + 128 * (n / 128) = n := by omega
  intro rest
  rw [nat_of_le hn]
  show (if 128 ≤ (UInt8.ofNat (n % 128 + 128)).toNat then _ else _ : Reader Nat) (_ ++ rest) = _
  rw [hbyte]
  have hread := hr.map (fun m => n % 128 + 128 - 128 + 128 * m) rest
  rwa [hsum] at hread

/-- A number below `128 ^ left * (last + 1)` takes at most `left + 1` bytes, and if it takes as many,
the last one is at most `last`. -/
theorem natIn_reads (hlast : last < 128) (hn : n < 128 ^ left * (last + 1)) :
    Reads (Reader.natIn last (left + 1)) (nat n) n := by
  induction left generalizing n with
  | zero =>
    exact natIn_small (by omega) fun _ => by omega
  | succ left ih =>
    by_cases hsmall : n < 128
    · exact natIn_small hsmall fun h => by omega
    · refine natIn_large (Nat.le_of_not_lt hsmall) (ih ?_)
      apply Nat.div_lt_of_lt_mul
      rw [← Nat.mul_assoc, ← Nat.pow_succ']
      exact hn

theorem nat_reads (hn : n < wordLimit) : Reads Reader.nat (nat n) n := natIn_reads (by decide) hn

theorem variant_reads (hn : n < 4294967296) : Reads Reader.variant (nat n) n := natIn_reads (by decide) hn

theorem unfold_fold : Reader.unfold (fold n) = n := by
  unfold Reader.unfold fold
  split <;> split <;> omega

theorem fold_lt (n : Int64) : fold n.toInt < wordLimit := by
  have hlow := n.le_toInt
  have hhigh := n.toInt_lt
  unfold fold wordLimit
  split <;> omega

theorem int_reads (n : Int64) : Reads Reader.int (int n) n := by
  have hread := (nat_reads (fold_lt n)).map fun m => Int64.ofInt (Reader.unfold m)
  rwa [unfold_fold, Int64.ofInt_toInt] at hread

theorem bool_reads (b : Bool) : Reads Reader.bool (bool b) b := by
  cases b <;> exact fun _ => rfl

/-! ## Words -/

theorem ofBytes_append : Reader.ofBytes (bytes ++ [b]) = Reader.ofBytes bytes + 256 ^ bytes.length * b.toNat := by
  induction bytes with
  | nil => simp [Reader.ofBytes]
  | cons c bytes ih =>
    simp only [cons_append, Reader.ofBytes, ih, length_cons, Nat.pow_succ']
    rw [Nat.mul_add, Nat.mul_assoc, Nat.add_assoc]

theorem ofBytes_digits (n k : Nat) :
    Reader.ofBytes ((range k).map fun i => UInt8.ofNat (n / Nat.pow 256 i)) = n % 256 ^ k := by
  induction k with
  | zero => simp [Reader.ofBytes, Nat.mod_one]
  | succ k ih =>
    rw [range_succ, map_append, map_singleton, ofBytes_append, ih]
    simp only [length_map, length_range]
    exact (Nat.mod_mul ..).symm

theorem word_reads (w : UInt64) : Reads Reader.word (word w) w := by
  have hlength : (word w).length = 8 := by simp [word]
  have hread := (take_reads (word w)).map fun bytes => UInt64.ofNat (Reader.ofBytes bytes)
  have hvalue : UInt64.ofNat (Reader.ofBytes (word w)) = w := by
    have hlt : w.toNat < 256 ^ 8 := w.toNat_lt
    unfold word
    rw [ofBytes_digits, Nat.mod_eq_of_lt hlt, UInt64.ofNat_toNat]
  rw [hvalue] at hread
  exact hread

/-! ## Texts -/

theorem text_reads (hs : s.utf8ByteSize < wordLimit) : Reads Reader.text (text s) s := by
  have htake := take_reads (Text.encode s)
  refine (nat_reads hs).bind (htake.last ?_)
  rw [Text.decode?_encode]
  exact Reads.pure s

theorem char_reads (c : Char) : Reads Reader.char (text c.toString) c := by
  have hsize : c.toString.utf8ByteSize ≤ 4 := by
    simpa using Char.utf8Size_le_four c
  have htake := take_reads (Text.encode c.toString)
  refine (nat_reads (by unfold wordLimit; omega)).bind ?_
  rw [if_neg (Nat.not_lt_of_le hsize)]
  refine htake.last ?_
  have hhead : (Text.decode? (Text.encode c.toString)).bind (·.toList.head?) = some c := by simp
  rw [hhead]
  exact Reads.pure c

/-! ## Sequences -/

theorem times_reads (hx : ∀ x ∈ xs, Reads item (write x) x) :
    Reads (Reader.times item xs.length) (xs.flatMap write) xs := by
  induction xs with
  | nil => exact Reads.pure []
  | cons x xs ih =>
    refine (hx x mem_cons_self).bind ?_
    exact (ih fun y hy => hx y (mem_cons_of_mem x hy)).map fun ys => x :: ys

theorem seq_reads (hlength : xs.length < wordLimit) (hx : ∀ x ∈ xs, Reads item (write x) x) :
    Reads (Reader.seq item) (seq write xs) xs :=
  (nat_reads hlength).bind (times_reads hx)

end Scripting.Wire
