import Scripting.Proofs.Code.Renumber
import Scripting.Proofs.Compile.Nested
/-!
# `Proofs.Compile.Stream` — the instructions of compiled code

The code of a function is bytes. Decoding it gives back the layout of the fragment it was assembled from
(`Assembled.decode_eq`), so statements about the instruction stream of a function come down to statements
about fragments. Apart from jumps, the instructions of a layout are those that the fragment holds
(`Fragment.ops`), wherever it starts.
-/

namespace Scripting

open Code List

namespace Fragment

/-- The instructions that a fragment holds, without the jumps of its structure. -/
def ops : Fragment → List Instruction
  | nil | exit _ => []
  | op i => [i]
  | seq a b => a.ops ++ b.ops
  | skip _ body => body.ops
  | fork yes _ no => yes.ops ++ no.ops
  | loop tested test body back post =>
    (if tested then test.ops else []) ++ body.ops ++ (if back then post.ops else [])

theorem isJump_skip (kind : SkipKind) : kind.op.isJump = true := by
  cases kind <;> rfl

/-- **The instructions of a layout are jumps and what the fragment holds.** -/
theorem mem_code {f : Fragment} : ∀ i ∈ f.code s t, i.op.isJump = true ∨ i ∈ f.ops := by
  induction f generalizing s t with
  | nil => rintro _ ⟨⟩
  | op j => exact fun i hi => .inr hi
  | seq a b iha ihb =>
    rw [code, forall_mem_append]
    exact ⟨fun i hi => (iha i hi).imp_right (mem_append_left _),
      fun i hi => (ihb i hi).imp_right (mem_append_right _)⟩
  | skip kind body ih =>
    rw [code, forall_mem_cons]
    exact ⟨.inl (isJump_skip kind), ih⟩
  | fork yes join no ihy ihn =>
    simp only [code, forall_mem_append, forall_mem_cons]
    refine ⟨⟨⟨.inl rfl, fun i hi => (ihy i hi).imp_right (mem_append_left _)⟩, ?_⟩,
      fun i hi => (ihn i hi).imp_right (mem_append_right _)⟩
    cases join <;> simp [Opcode.isJump]
  | loop tested test body back post iht ihb ihp =>
    rw [code, forall_mem_append, forall_mem_append, ops]
    simp only [mem_append]
    refine ⟨⟨?_, fun i hi => (ihb i hi).imp_right fun h => .inl (.inr h)⟩, ?_⟩
    · cases tested with
      | true =>
        exact forall_mem_append.mpr
          ⟨fun i hi => (iht i hi).imp_right fun h => .inl (.inl h), by simp [Opcode.isJump]⟩
      | false => rintro _ ⟨⟩
    · cases back with
      | true => exact forall_mem_append.mpr ⟨fun i hi => (ihp i hi).imp_right .inr, by simp [Opcode.isJump]⟩
      | false => rintro _ ⟨⟩
  | exit e => simp [code, Opcode.isJump]

end Fragment

theorem map_snd_located (o : Nat) (is : List Instruction) : (located o is).map Prod.snd = is := by
  induction is generalizing o with
  | nil => rfl
  | cons i is ih => rw [located, map_cons, ih]

theorem snd_mem_of_mem_located (h : p ∈ located o is) : p.2 ∈ is := by
  rw [← map_snd_located o is]
  exact mem_map_of_mem h

namespace Generator

open Fragment

theorem Assembled.laid {code : Bytes} (h : Assembled f code) : Laid code.toList f 0 open₀ :=
  ⟨⟨[], [], by simpa [bytes] using h.code, rfl⟩, h.fits⟩

theorem Assembled.size {code : Bytes} (h : Assembled f code) : code.size = f.size := by
  have := congrArg length h.code
  rwa [length_bytes, Array.length_toList] at this

/-- **Decoding the code of a function gives the layout it was assembled from.** -/
theorem Assembled.decode_eq {code : Bytes} (h : Assembled f code) : decode code = located 0 (f.code 0 open₀) := by
  have hcode : code.toList = [] ++ assembleAll (f.code 0 open₀) := h.code
  exact decodeFrom_of hcode rfl h.fits

theorem Assembled.mem_ops {f : Fragment} {code : Bytes} (h : Assembled f code) (hp : p ∈ decode code) :
    p.2.op.isJump = true ∨ p.2 ∈ f.ops := by
  rw [h.decode_eq] at hp
  exact mem_code _ (snd_mem_of_mem_located hp)

/-- The instructions between two offsets are those of the fragment that stands there. -/
theorem Assembled.mem_part {a b d : Fragment} {code : Bytes} (h : Assembled (.seq a (.seq b d)) code)
    (hp : p ∈ decode code) (hle : a.size ≤ p.1) (hlt : p.1 < a.size + b.size) :
    p.2.op.isJump = true ∨ p.2 ∈ b.ops := by
  have hfits : ∀ i ∈ a.code 0 open₀ ++ (b.code (0 + a.size) open₀ ++ d.code (0 + a.size + b.size) open₀), i.Fits :=
    h.fits
  rw [forall_mem_append, forall_mem_append] at hfits
  obtain ⟨hfa, hfb, hfd⟩ := hfits
  have hla : (assembleAll (a.code 0 open₀)).length = a.size := length_bytes a 0 open₀
  have hlb : (assembleAll (b.code (0 + a.size) open₀)).length = b.size := length_bytes b (0 + a.size) open₀
  rw [h.decode_eq, Fragment.code, Fragment.code, located_append _ _ hfa, located_append _ _ hfb, hla, hlb, mem_append,
    mem_append] at hp
  rcases hp with hp | hp | hp
  · have hoff := (offset_of_mem_located hfa hp).2
    omega
  · exact mem_code _ (snd_mem_of_mem_located hp)
  · have hoff := (offset_of_mem_located hfd hp).1
    omega

end Generator

end Scripting
