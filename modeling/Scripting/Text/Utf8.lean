/-!
# `Text.Utf8` — bytes as text

`decodeLossy` reads bytes as UTF-8 and always succeeds: every longest stretch of bytes that begins a
character but does not complete one becomes a single replacement character. `decode?` accepts valid
UTF-8 only.
-/

namespace Scripting.Text

/-- The character that stands for undecodable bytes. -/
def replacement : Char := Char.ofNat 0xfffd

/-- How many continuation bytes a leading byte announces, with the range allowed for the first of
them; `none` if no character starts with this byte. The narrow ranges exclude overlong forms,
surrogates and code points that are too large. -/
def continuation? (b : Nat) : Option (Nat × Nat × Nat) :=
  if b < 0x80 then some (0, 0x80, 0xbf)
  else if b < 0xc2 then none
  else if b < 0xe0 then some (1, 0x80, 0xbf)
  else if b == 0xe0 then some (2, 0xa0, 0xbf)
  else if b == 0xed then some (2, 0x80, 0x9f)
  else if b < 0xf0 then some (2, 0x80, 0xbf)
  else if b == 0xf0 then some (3, 0x90, 0xbf)
  else if b < 0xf4 then some (3, 0x80, 0xbf)
  else if b == 0xf4 then some (3, 0x80, 0x8f)
  else none

/-- Take `n` continuation bytes, the first of them between `low` and `high`. Gives the code point that
they complete, or `none` where one is missing, and the bytes that are left. -/
def takeContinuation (acc : Nat) : Nat → Nat → Nat → List UInt8 → Option Nat × List UInt8
  | 0, _, _, bs => (some acc, bs)
  | _ + 1, _, _, [] => (none, [])
  | n + 1, low, high, b :: bs =>
    if low ≤ b.toNat && b.toNat ≤ high then
      takeContinuation (acc * 64 + (b.toNat - 0x80)) n 0x80 0xbf bs
    else (none, b :: bs)

theorem takeContinuation_length (n : Nat) : ∀ (acc low high : Nat) (bs : List UInt8),
    (takeContinuation acc n low high bs).2.length ≤ bs.length := by
  induction n with
  | zero => intro acc low high bs; simp [takeContinuation]
  | succ n ih =>
    intro acc low high bs
    cases bs with
    | nil => simp [takeContinuation]
    | cons b bs =>
      simp only [takeContinuation]
      split
      · exact Nat.le_trans (ih _ _ _ _) (by simp)
      · simp

/-- The first character of `b :: bs` and the bytes after it. -/
def takeChar (b : UInt8) (bs : List UInt8) : Char × List UInt8 :=
  match continuation? b.toNat with
  | none => (replacement, bs)
  | some (n, low, high) =>
    -- the payload of a leading byte: seven bits alone, then five, four and three
    let lead := if n == 0 then b.toNat else b.toNat % Nat.pow 2 (6 - n)
    let (code, rest) := takeContinuation lead n low high bs
    (code.elim replacement Char.ofNat, rest)

theorem takeChar_length (b : UInt8) (bs : List UInt8) : (takeChar b bs).2.length ≤ bs.length := by
  unfold takeChar
  split
  · simp
  · exact takeContinuation_length _ _ _ _ _

/-- Read bytes as characters, with replacements. -/
def decodeChars : List UInt8 → List Char
  | [] => []
  | b :: bs => (takeChar b bs).1 :: decodeChars (takeChar b bs).2
termination_by bs => bs.length
decreasing_by have := takeChar_length b bs; simp; omega

def decodeLossy (bs : Array UInt8) : String := String.ofList (decodeChars bs.toList)

/-- Read bytes that must be valid UTF-8. -/
def decode? (bs : List UInt8) : Option String := String.fromUTF8? ⟨bs.toArray⟩

def encode (s : String) : List UInt8 := s.toUTF8.data.toList

@[simp] theorem decode?_encode (s : String) : decode? (encode s) = some s := by
  unfold decode? encode String.fromUTF8?
  have h : (⟨s.toUTF8.data.toList.toArray⟩ : ByteArray) = s.toUTF8 := by simp
  rw [h]
  split
  · simp [String.fromUTF8, String.toUTF8]
  · rename_i hn
    exact absurd s.isValidUTF8 hn

end Scripting.Text
