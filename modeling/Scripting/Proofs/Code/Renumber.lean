import Mathlib.Data.List.Basic
import Scripting.Program.Pool
import Scripting.Proofs.Code.Reading
/-!
# `Proofs.Code.Renumber` — constants in other places

Renumbering works on bytes: it decodes the code and overwrites the operands that are numbers of constants.
On the layout of a fragment this gives the layout of the renumbered fragment (`toList_renumber`), and a
typed fragment stays typed if the new numbers refer to constants of the same kind (`Typed.renumber`).
-/

namespace Scripting

open Code Fragment Instruction

/-! ## Typed fragments -/

/-- Everything that one signature allows, the other one allows under another number. -/
structure Sig.Maps (π : Nat → Nat) (Λ Λ' : Sig) : Prop where
  locals : Λ.locals ≤ Λ'.locals
  free : Λ.free ≤ Λ'.free
  constant : ∀ {k κ}, Λ.constant k κ → Λ'.constant (π k) κ
  closure : ∀ {k n}, Λ.closure k n → Λ'.closure (π k) n

section

variable {π : Nat → Nat} {Λ Λ' : Sig} {i : Instruction} {σ τ : Shape} {f : Fragment}

theorem Effect.renumber (h : Λ.Maps π Λ') (he : Effect Λ i σ τ) : Effect Λ' (i.renumber π) σ τ := by
  have hl := h.locals
  have hf := h.free
  cases he with
  | @operation op xs ks ht =>
    have : renumber π ⟨op, []⟩ = ⟨op, []⟩ := by cases op <;> rfl
    rw [this]
    exact .operation ht
  | pop => exact .pop
  | constant hk => exact .constant (h.constant hk)
  | load hi =>
    unfold Sig.Loads at hi
    split at hi
    · exact .load trivial
    · exact .load (show _ < _ by omega)
    · exact .load (show _ < _ by omega)
    · exact .load hi
    · cases hi
  | store hi =>
    unfold Sig.Stores at hi
    split at hi
    · exact .store trivial
    · exact .store (show _ < _ by omega)
    · exact .store (show _ < _ by omega)
    · exact .store (show _ < _ by omega)
    · cases hi
  | storePart hi =>
    unfold Sig.StoresPart at hi
    split at hi
    · exact .storePart hi
    · exact .storePart ⟨by omega, hi.2⟩
    · exact .storePart ⟨by omega, hi.2⟩
    · cases hi
  | binary hc => exact .binary hc
  | array => exact .array
  | map => exact .map
  | call => exact .call
  | capture hi =>
    unfold Sig.Captures at hi
    split at hi
    · exact .capture (show _ < _ by omega)
    · exact .capture (show _ < _ by omega)
    · exact .capture trivial
    · cases hi
  | closure hk => exact .closure (h.closure hk)

/-- **A renumbered fragment is typed like the fragment itself.** -/
theorem Typed.renumber (h : Λ.Maps π Λ') (ht : Typed Λ f σ τ) : Typed Λ' (f.renumber π) σ τ := by
  induction ht with
  | nil => exact .nil
  | op he => exact .op (he.renumber h)
  | ret => exact .ret
  | retValue => exact .retValue
  | suspend => exact .suspend
  | seq _ _ iha ihb => exact .seq iha ihb
  | skip _ ih => exact .skip ih
  | decide hk _ ih => exact .decide hk ih
  | fork hj _ _ ihy ihn => exact .fork hj ihy ihn
  | loop _ _ _ iht ihb ihp => exact .loop iht ihb ihp
  | exit => exact .exit

end

/-! ## Layouts -/

namespace Fragment

variable (π : Nat → Nat)

theorem leaves_renumber (e : Exit) (f : Fragment) : (f.renumber π).leaves e = f.leaves e := by
  induction f with
  | nil | op | exit => rfl
  | seq a b iha ihb => simp only [renumber, leaves, iha, ihb]
  | skip kind body ih => simp only [renumber, leaves, ih]
  | fork yes join no ihy ihn => simp only [renumber, leaves, ihy, ihn]
  | loop tested test body back post iht ihb ihp => simp only [renumber, leaves, iht, ihp]

/-- **The layout of a renumbered fragment is the renumbered layout.** -/
theorem code_renumber (f : Fragment) : ∀ (s : Nat) (t : Exit → Nat),
    (f.renumber π).code s t = (f.code s t).map (Instruction.renumber π) := by
  have hjump (n : Nat) : Instruction.renumber π ⟨.jump, [n]⟩ = ⟨.jump, [n]⟩ := rfl
  have hfalsy (n : Nat) : Instruction.renumber π ⟨.jumpFalsy, [n]⟩ = ⟨.jumpFalsy, [n]⟩ := rfl
  induction f with
  | nil => intro s t; rfl
  | op i => intro s t; rfl
  | seq a b iha ihb => intro s t; simp only [renumber, code, iha, ihb, size_renumber, List.map_append]
  | skip kind body ih =>
    intro s t
    have hkind (n : Nat) : Instruction.renumber π ⟨kind.op, [n]⟩ = ⟨kind.op, [n]⟩ := by cases kind <;> rfl
    simp only [renumber, code, ih, size_renumber, List.map_cons, hkind]
  | fork yes join no ihy ihn =>
    intro s t
    simp only [renumber, code, ihy, ihn, noStart, List.map_append, List.map_cons, hfalsy]
    cases join <;> simp [hjump]
  | loop tested test body back post iht ihb ihp =>
    intro s t
    simp only [renumber, code, iht, ihb, ihp, loopEnd, bodyStart, size_renumber]
    cases tested <;> cases back <;> simp [hjump, hfalsy]
  | exit e => intro s t; rfl

end Fragment

/-! ## Bytes -/

/-- The place of a constant; numbers beyond the table stay. -/
def placeOf (places : Array Nat) (k : Nat) : Nat := places[k]?.getD k

/-- Instructions one after the other, each with its offset. -/
def located : Nat → List Instruction → List (Nat × Instruction)
  | _, [] => []
  | o, i :: is => (o, i) :: located (o + i.op.length) is

theorem located_append (is js : List Instruction) (h : ∀ i ∈ is, i.Fits) (o : Nat) :
    located o (is ++ js) = located o is ++ located (o + (assembleAll is).length) js := by
  induction is generalizing o with
  | nil => rfl
  | cons i is ih =>
    have hlen : i.assemble.length = i.op.length := length_assemble (h i (by simp)).1
    rw [List.cons_append, located, located, ih (fun j hj => h j (List.mem_cons_of_mem _ hj)),
      assembleAll_cons, List.length_append, hlen, Nat.add_assoc, List.cons_append]

theorem offset_of_mem_located (h : ∀ i ∈ is, i.Fits) (hp : p ∈ located o is) :
    o ≤ p.1 ∧ p.1 < o + (assembleAll is).length := by
  induction is generalizing o with
  | nil => cases hp
  | cons i is ih =>
    have hlen : i.assemble.length = i.op.length := length_assemble (h i (by simp)).1
    have hpos := i.op.length_pos
    rw [assembleAll_cons, List.length_append]
    rcases List.mem_cons.mp hp with rfl | hp
    · exact ⟨Nat.le_refl _, by omega⟩
    · obtain ⟨hle, hlt⟩ := ih (fun j hj => h j (List.mem_cons_of_mem _ hj)) hp
      exact ⟨by omega, by omega⟩

/-- **Decoding gives the instructions back.** -/
theorem decodeFrom_of {code : Bytes} : ∀ {is : List Instruction} {before : List UInt8} {o : Nat},
    code.toList = before ++ assembleAll is → before.length = o → (∀ i ∈ is, i.Fits) → decodeFrom code o = located o is
  | [], before, o, hc, hb, _ => by
    have hsize := congrArg List.length hc
    simp only [Array.length_toList, assembleAll_nil, List.append_nil] at hsize
    unfold decodeFrom
    rw [dif_neg (by omega)]
    rfl
  | i :: is, before, o, hc, hb, hfit => by
    have hstands : Stands code.toList o i := by
      refine ⟨⟨before, assembleAll is, ?_, hb⟩, fun j hj => ?_⟩
      · simpa using hc
      · exact hfit j (by simpa using .inl (by simpa using hj))
    have hlen := length_assemble (hfit i (by simp)).1
    have hc' : code.toList = (before ++ i.assemble) ++ assembleAll is := by simpa using hc
    have hrest : decodeFrom code (o + i.op.length) = located (o + i.op.length) is :=
      decodeFrom_of hc' (by simp [hb, hlen]) fun j hj => hfit j (List.mem_cons_of_mem _ hj)
    unfold decodeFrom
    rw [dif_pos hstands.lt_size, hstands.opcode hstands.lt_size]
    simp only [located, hrest, hstands.operands]

theorem patchU16_word {code : Bytes} (h : code.toList = before ++ b :: x :: y :: after) (v : Nat) :
    (patchU16 code (before.length + 1) v).toList =
      before ++ b :: UInt8.ofNat (v / 256) :: UInt8.ofNat v :: after := by
  have hsize := congrArg List.length h
  simp only [Array.length_toList, List.length_append, List.length_cons] at hsize
  have hlen : before.length + 1 + 1 - before.length = 2 := by omega
  rw [patchU16_toList, if_pos (by omega), h]
  simp [List.set_append, hlen]
  omega

/-- What renumbering does at one instruction. -/
def renumberAt (places : Array Nat) (code : Bytes) (p : Nat × Instruction) : Bytes :=
  match p.2.op with
  | .constant | .closure =>
    match places[readU16 code (p.1 + 1)]? with
    | some place => patchU16 code (p.1 + 1) place
    | none => code
  | _ => code

theorem renumber_eq (places : Array Nat) (code : Bytes) :
    Code.renumber places code = (decode code).foldl (renumberAt places) code := rfl

theorem renumberAt_word (places : Array Nat) {code : Bytes} (rest : List UInt8)
    (hop : i.op = .constant ∨ i.op = .closure) (hk : k ≤ maxOperand 2)
    (hi : i.assemble = i.op.byte :: (operandBytes 2 k ++ rest))
    (h : code.toList = before ++ (i.assemble ++ after)) :
    (renumberAt places code (before.length, i)).toList =
      before ++ (i.op.byte :: (operandBytes 2 (placeOf places k) ++ rest) ++ after) := by
  rw [hi] at h
  have hread : readU16 code (before.length + 1) = k := by
    have h' : code.toList = (before ++ [i.op.byte]) ++ (operandBytes 2 k ++ (rest ++ after)) := by
      simpa using h
    exact readOperand_of (.inr rfl) hk h' (by simp)
  have heq : renumberAt places code (before.length, i) = match places[k]? with
      | some place => patchU16 code (before.length + 1) place
      | none => code := by
    unfold renumberAt
    rcases hop with hop | hop <;> simp only [hop, hread]
  rw [heq]
  unfold placeOf
  cases places[k]? with
  | none => exact h
  | some place =>
    have h' : code.toList = before ++ i.op.byte :: UInt8.ofNat (k / 256) :: UInt8.ofNat k :: (rest ++ after) := by
      simpa [operandBytes] using h
    rw [patchU16_word h']
    simp [operandBytes]

theorem renumberAt_toList (places : Array Nat) {code : Bytes} (hfit : i.Fits)
    (h : code.toList = before ++ (i.assemble ++ after)) :
    (renumberAt places code (before.length, i)).toList =
      before ++ ((i.renumber (placeOf places)).assemble ++ after) := by
  obtain ⟨op, operands⟩ := i
  obtain ⟨hlen, hfit⟩ := hfit
  by_cases hop : op = .constant ∨ op = .closure
  · rcases hop with rfl | rfl
    · obtain ⟨k, rfl⟩ := List.length_eq_one_iff.mp hlen
      have hk := hfit (2, k) (by simp [Opcode.widths])
      rw [renumberAt_word places [] (.inl rfl) hk (by simp [Instruction.assemble, Opcode.widths]) h]
      simp [Instruction.assemble, Instruction.renumber, Opcode.widths]
    · obtain ⟨k, n, rfl⟩ := List.length_eq_two.mp hlen
      have hk := hfit (2, k) (by simp [Opcode.widths])
      rw [renumberAt_word places (operandBytes 1 n) (.inr rfl) hk (by simp [Instruction.assemble, Opcode.widths]) h]
      simp [Instruction.assemble, Instruction.renumber, Opcode.widths]
  · have hsame : Instruction.renumber (placeOf places) ⟨op, operands⟩ = ⟨op, operands⟩ := by
      unfold Instruction.renumber
      split
      · rename_i heq; cases heq; exact absurd (.inl rfl) hop
      · rename_i heq; cases heq; exact absurd (.inr rfl) hop
      · rfl
    have hskip : renumberAt places code (before.length, ⟨op, operands⟩) = code := by
      unfold renumberAt
      split
      · rename_i heq; exact absurd (.inl heq) hop
      · rename_i heq; exact absurd (.inr heq) hop
      · rfl
    rw [hsame, hskip]
    exact h

theorem foldl_renumberAt {places : Array Nat} : ∀ {is : List Instruction} {code : Bytes} {before : List UInt8},
    (∀ i ∈ is, i.Fits) → code.toList = before ++ assembleAll is →
      ((located before.length is).foldl (renumberAt places) code).toList =
        before ++ assembleAll (is.map (renumber (placeOf places)))
  | [], code, before, _, hc => hc
  | i :: is, code, before, hfit, hc => by
    have hstep := renumberAt_toList places (hfit i (by simp)) (by simpa using hc)
    have hlen : before.length + i.op.length = (before ++ (i.renumber (placeOf places)).assemble).length := by
      rw [List.length_append, size_op_renumber, length_assemble (hfit i (by simp)).1]
    have hstep' : (renumberAt places code (before.length, i)).toList =
        (before ++ (i.renumber (placeOf places)).assemble) ++ assembleAll is := by
      simpa using hstep
    simp only [located, List.foldl_cons, hlen]
    rw [foldl_renumberAt (fun j hj => hfit j (List.mem_cons_of_mem _ hj)) hstep']
    simp

/-- **Renumbering the layout of a fragment gives the layout of the renumbered fragment.** -/
theorem toList_renumber {f : Fragment} {code : Bytes} (hc : code.toList = f.bytes 0 t)
    (hfit : ∀ i ∈ f.code 0 t, i.Fits) :
    (Code.renumber places code).toList = (f.renumber (placeOf places)).bytes 0 t := by
  have hdecode : decode code = located 0 (f.code 0 t) := @decodeFrom_of code _ [] 0 hc rfl hfit
  rw [renumber_eq, hdecode, bytes, code_renumber]
  exact @foldl_renumberAt places _ code [] hfit hc

theorem fits_renumber (hle : ∀ k, π k ≤ k) {i : Instruction} (h : i.Fits) : (i.renumber π).Fits := by
  obtain ⟨op, operands⟩ := i
  obtain ⟨hlen, hfit⟩ := h
  have hhead {w k : Nat} {ws ks : List Nat} (h : ∀ p ∈ (w :: ws).zip (k :: ks), p.2 ≤ maxOperand p.1) :
      ∀ p ∈ (w :: ws).zip (π k :: ks), p.2 ≤ maxOperand p.1 := by
    intro p hp
    rcases List.mem_cons.mp hp with rfl | hp
    · exact Nat.le_trans (hle k) (h (w, k) (List.mem_cons_self ..))
    · exact h p (List.mem_cons_of_mem _ hp)
  unfold Instruction.renumber
  split
  · rename_i heq
    cases heq
    exact ⟨hlen, hhead hfit⟩
  · rename_i heq
    cases heq
    exact ⟨hlen, hhead hfit⟩
  · exact ⟨hlen, hfit⟩

end Scripting
