import Scripting.Proofs.Code.Region
/-!
# `Proofs.Code.Reading` — instructions read back

The machine reads operands in place. Where an instruction stands whose operands fit, its opcode and its
operands are what the machine reads.
-/

namespace Scripting

open Code Fragment Instruction List

namespace Code

variable {before after : List UInt8} {b : UInt8} {o w v : Nat}

theorem readU8_of {code : Bytes} (h : code.toList = before ++ b :: after) (hb : before.length = o) :
    readU8 code o = b.toNat := by
  have hget : code[o]? = some b := by
    rw [← Array.getElem?_toList, h, ← hb]
    simp
  simp [readU8, hget]

/-- **An operand that fits is read back.** -/
theorem readOperand_of {code : Bytes} (hw : w = 1 ∨ w = 2) (hv : v ≤ maxOperand w)
    (h : code.toList = before ++ (operandBytes w v ++ after)) (hb : before.length = o) :
    readOperand code w o = v := by
  rcases hw with rfl | rfl
  · have h1 := readU8_of (by simpa [operandBytes] using h) hb
    simp only [maxOperand] at hv
    simp only [readOperand, h1, UInt8.toNat_ofNat']
    omega
  · have h1 := readU8_of (by simpa [operandBytes] using h) hb
    have h' : code.toList = (before ++ [UInt8.ofNat (v / 256)]) ++ UInt8.ofNat v :: after := by
      simpa [operandBytes] using h
    have h2 : readU8 code (o + 1) = (UInt8.ofNat v).toNat := readU8_of h' (by simp [hb])
    simp only [maxOperand] at hv
    simp only [readOperand, readU16, h1, h2, UInt8.toNat_ofNat']
    omega

theorem readOperands_of {code : Bytes} : ∀ {ws vs : List Nat} {before after : List UInt8} {o : Nat},
    (∀ w ∈ ws, w = 1 ∨ w = 2) → vs.length = ws.length → (∀ p ∈ ws.zip vs, p.2 ≤ maxOperand p.1) →
      code.toList = before ++ ((ws.zip vs).flatMap (fun p => operandBytes p.1 p.2) ++ after) →
      before.length = o → readOperands code ws o = vs
  | [], [], _, _, _, _, _, _, _, _ => rfl
  | [], _ :: _, _, _, _, _, hlen, _, _, _ => by cases hlen
  | _ :: _, [], _, _, _, _, hlen, _, _, _ => by cases hlen
  | w :: ws, v :: vs, before, after, o, hw, hlen, hfit, h, hb => by
    have hw0 := hw w (mem_cons_self ..)
    have hhead : code.toList = before ++ (operandBytes w v ++
        ((ws.zip vs).flatMap (fun p => operandBytes p.1 p.2) ++ after)) := by
      rw [h]; simp
    have htail : code.toList = (before ++ operandBytes w v) ++
        ((ws.zip vs).flatMap (fun p => operandBytes p.1 p.2) ++ after) := by
      rw [h]; simp
    have ih := readOperands_of (fun w' h' => hw w' (mem_cons_of_mem _ h')) (Nat.succ.inj hlen)
      (fun p hp => hfit p (mem_cons_of_mem _ hp)) htail rfl
    rw [readOperands, readOperand_of hw0 (hfit (w, v) (mem_cons_self ..)) hhead hb]
    rw [length_append, length_operandBytes hw0, hb] at ih
    rw [ih]

end Code

namespace Listed

variable {code : Bytes} {o : Nat} {i : Instruction}

theorem bytes_eq (h : Stands code.toList o i) : ∃ before after, code.toList = before ++ i.op.byte ::
      ((i.op.widths.zip i.operands).flatMap (fun p => operandBytes p.1 p.2) ++ after) ∧
      before.length = o := by
  obtain ⟨⟨before, after, hc, hb⟩, -⟩ := h
  exact ⟨before, after, by simpa [assemble] using hc, hb⟩

theorem in_bounds (h : Stands code.toList o i) : o + i.op.length ≤ code.size := by
  have hlen := length_assemble (h.fits i (by simp)).1
  obtain ⟨⟨before, after, hc, hb⟩, -⟩ := h
  have := congrArg length hc
  simp only [Array.length_toList, assembleAll_cons, assembleAll_nil, append_nil, length_append,
    hlen] at this
  omega

theorem lt_size (h : Stands code.toList o i) : o < code.size := by
  have := h.in_bounds
  have := i.op.length_pos
  omega

/-- **The opcode is read back.** -/
theorem opcode (h : Stands code.toList o i) (hlt : o < code.size) : Opcode.ofByte? code[o] = some i.op := by
  obtain ⟨before, after, hc, hb⟩ := h.bytes_eq
  have hget : code[o]? = some i.op.byte := by
    rw [← Array.getElem?_toList, hc, ← hb]
    simp
  rw [Array.getElem?_eq_getElem hlt, Option.some.injEq] at hget
  rw [hget, Opcode.ofByte?_byte]

/-- **The operands are read back.** -/
theorem operands (h : Stands code.toList o i) : readOperands code i.op.widths (o + 1) = i.operands := by
  obtain ⟨before, after, hc, hb⟩ := h.bytes_eq
  have hfit := h.fits i (by simp)
  have hc' : code.toList = (before ++ [i.op.byte]) ++
      ((i.op.widths.zip i.operands).flatMap (fun p => operandBytes p.1 p.2) ++ after) := by
    simpa using hc
  exact readOperands_of (widths_small _) hfit.1 hfit.2 hc' (by simp [hb])

end Listed

end Scripting
