import Scripting.Proofs.Code.Shape
/-!
# `Proofs.Code.Region` — one shape for every instruction

A typed fragment says how the shape changes along its structure. Once the fragment is laid out, its
structure is gone, and what is left is bytes. A `Region` is a part of the code in which every instruction
has one shape, and wherever control can go from an instruction, the shape found there is the one the
instruction leaves. `Typed.laysOut` lays out a typed fragment as a region.

The layout is done for two versions of the code at once that differ in the numbers of constants
(`Fragment.renumber`): instructions stand at the same offsets, with the same shapes.
-/

namespace Scripting

open Code List

/-! ## Renumbered constants -/

/-- The instruction with another number for the constant it refers to. -/
def Instruction.renumber (π : Nat → Nat) : Instruction → Instruction
  | ⟨.constant, k :: rest⟩ => ⟨.constant, π k :: rest⟩
  | ⟨.closure, k :: rest⟩ => ⟨.closure, π k :: rest⟩
  | i => i

namespace Instruction

variable (π : Nat → Nat)

@[simp] theorem op_renumber (i : Instruction) : (i.renumber π).op = i.op := by
  unfold renumber
  split <;> rfl

theorem renumber_id (i : Instruction) : i.renumber id = i := by
  unfold renumber
  split <;> rfl

theorem length_operandBytes (hw : w = 1 ∨ w = 2) (v : Nat) : (operandBytes w v).length = w := by
  rcases hw with rfl | rfl <;> rfl

theorem widths_small (op : Opcode) : ∀ w ∈ op.widths, w = 1 ∨ w = 2 := by
  cases op <;> decide

theorem length_assemble {i : Instruction} (h : i.operands.length = i.op.widths.length) :
    i.assemble.length = i.op.length := by
  obtain ⟨op, operands⟩ := i
  have hlen : ∀ (ws vs : List Nat), vs.length = ws.length → (∀ w ∈ ws, w = 1 ∨ w = 2) →
      ((ws.zip vs).flatMap fun p => operandBytes p.1 p.2).length = ws.foldr (· + ·) 0 := by
    intro ws
    induction ws with
    | nil => intro vs _ _; rfl
    | cons w ws ih =>
      intro vs hvs hw
      cases vs with
      | nil => cases hvs
      | cons v vs =>
        have hrest := ih vs (Nat.succ.inj hvs) fun w' h' => hw w' (mem_cons_of_mem _ h')
        simp only [zip_cons_cons, flatMap_cons, length_append, foldr_cons, hrest,
          length_operandBytes (hw w (mem_cons_self ..))]
  have := hlen op.widths operands h (widths_small op)
  simp only [assemble, length_cons, Opcode.length]
  omega

end Instruction

namespace Fragment

/-- The fragment with other numbers for the constants. -/
def renumber (π : Nat → Nat) : Fragment → Fragment
  | nil => nil
  | op i => op (i.renumber π)
  | seq a b => seq (a.renumber π) (b.renumber π)
  | skip kind body => skip kind (body.renumber π)
  | fork yes join no => fork (yes.renumber π) join (no.renumber π)
  | loop tested test body back post =>
    loop tested (test.renumber π) (body.renumber π) back (post.renumber π)
  | exit e => exit e

theorem renumber_id (f : Fragment) : f.renumber id = f := by
  induction f with
  | nil | exit => rfl
  | op i => rw [renumber, Instruction.renumber_id]
  | seq a b iha ihb => rw [renumber, iha, ihb]
  | skip kind body ih => rw [renumber, ih]
  | fork yes join no ihy ihn => rw [renumber, ihy, ihn]
  | loop tested test body back post iht ihb ihp => rw [renumber, iht, ihb, ihp]

theorem size_op_renumber (π : Nat → Nat) (i : Instruction) : (i.renumber π).assemble.length = i.assemble.length := by
  unfold Instruction.renumber
  split <;> simp [Instruction.assemble, Opcode.widths, operandBytes]

@[simp] theorem size_renumber (π : Nat → Nat) (f : Fragment) : (f.renumber π).size = f.size := by
  induction f with
  | nil | exit => rfl
  | op i => exact size_op_renumber π i
  | seq a b iha ihb => simp only [renumber, size, iha, ihb]
  | skip kind body ih => simp only [renumber, size, ih]
  | fork yes join no ihy ihn => simp only [renumber, size, ihy, ihn]
  | loop tested test body back post iht ihb ihp => simp only [renumber, size, iht, ihb, ihp]

end Fragment

/-! ## Where instructions stand -/

/-- The instructions stand one after the other at an offset of the code, and their operands fit. -/
structure Listed (code : List UInt8) (o : Nat) (is : List Instruction) : Prop where
  bytes : ∃ before after, code = before ++ (Fragment.assembleAll is ++ after) ∧ before.length = o
  fits : ∀ i ∈ is, i.Fits

/-- The instruction stands at an offset of the code. -/
abbrev Stands (code : List UInt8) (o : Nat) (i : Instruction) : Prop := Listed code o [i]

/-- The fragment is laid out at an offset of the code. -/
abbrev Laid (code : List UInt8) (f : Fragment) (s : Nat) (t : Exit → Nat) : Prop := Listed code s (f.code s t)

namespace Listed

open Fragment

variable {code : List UInt8} {o : Nat} {is js : List Instruction} {i : Instruction}

theorem left (h : Listed code o (is ++ js)) : Listed code o is := by
  obtain ⟨⟨before, after, hc, hb⟩, hf⟩ := h
  refine ⟨⟨before, assembleAll js ++ after, ?_, hb⟩, fun i hi => hf i (mem_append_left _ hi)⟩
  simpa using hc

theorem right (h : Listed code o (is ++ js)) : Listed code (o + (assembleAll is).length) js := by
  obtain ⟨⟨before, after, hc, hb⟩, hf⟩ := h
  refine ⟨⟨before ++ assembleAll is, after, ?_, ?_⟩, fun i hi => hf i (mem_append_right _ hi)⟩
  · simpa using hc
  · simp [hb]

theorem head (h : Listed code o (i :: is)) : Stands code o i := @left _ _ [i] _ h

theorem tail (h : Listed code o (i :: is)) : Listed code (o + i.assemble.length) is := by
  have := @right _ _ [i] _ h
  simpa using this

end Listed

namespace Laid

open Fragment

variable {code : List UInt8} {s : Nat} {t : Exit → Nat}

theorem left {a b : Fragment} (h : Laid code (.seq a b) s t) : Laid code a s t := Listed.left h

theorem right {a b : Fragment} (h : Laid code (.seq a b) s t) : Laid code b (s + a.size) t := by
  have := Listed.right h
  rwa [length_assembleAll_code] at this

theorem skip_jump (h : Laid code (.skip kind body) s t) :
    Stands code s ⟨kind.op, [s + 3 + body.size]⟩ := Listed.head h

theorem skip_body (h : Laid code (.skip kind body) s t) : Laid code body (s + 3) t := by
  have := Listed.tail h
  rwa [length_assemble_jump (widths_skip kind)] at this

section Fork

variable {yes no : Fragment} {join : Bool}

theorem fork_jump (h : Laid code (.fork yes join no) s t) :
    Stands code s ⟨.jumpFalsy, [noStart yes join s]⟩ := (Listed.left (Listed.left h)).head

theorem fork_yes (h : Laid code (.fork yes join no) s t) : Laid code yes (s + 3) t := by
  have := (Listed.left (Listed.left h)).tail
  rwa [length_assemble_jump rfl] at this

theorem fork_join (h : Laid code (.fork yes true no) s t) :
    Stands code (s + 3 + yes.size) ⟨.jump, [noStart yes true s + no.size]⟩ := by
  have := Listed.right (Listed.left h)
  rwa [assembleAll_cons, length_append, length_assembleAll_code, length_assemble_jump rfl, ← Nat.add_assoc] at this

theorem fork_no (h : Laid code (.fork yes join no) s t) : Laid code no (noStart yes join s) t := by
  have := Listed.right h
  rwa [assembleAll_append, length_append, assembleAll_cons, length_append, length_assembleAll_code,
    length_assemble_jump rfl, joinLength] at this

end Fork

section Loop

variable {tested back : Bool} {test body post : Fragment}

theorem loop_test (h : Laid code (.loop true test body back post) s t) : Laid code test s t :=
  Listed.left (Listed.left (Listed.left h))

theorem loop_jump (h : Laid code (.loop true test body back post) s t) :
    Stands code (s + test.size) ⟨.jumpFalsy, [loopEnd true test body back post s]⟩ := by
  have := Listed.right (Listed.left (Listed.left h))
  rwa [length_assembleAll_code] at this

theorem loop_body (h : Laid code (.loop tested test body back post) s t) :
    Laid code body (bodyStart tested test s) (targets (loopEnd tested test body back post s)
      (bodyStart tested test s + body.size)) := by
  have := Listed.right (Listed.left h)
  rwa [testLength] at this

theorem loop_rest (h : Laid code (.loop tested test body back post) s t) :
    Listed code (bodyStart tested test s + body.size)
      (if back then post.code (bodyStart tested test s + body.size) t ++ [⟨.jump, [s]⟩] else []) := by
  have := Listed.right h
  rwa [assembleAll_append, length_append, length_assembleAll_code, ← Nat.add_assoc, testLength] at this

theorem loop_post (h : Laid code (.loop tested test body true post) s t) :
    Laid code post (bodyStart tested test s + body.size) t := Listed.left (loop_rest h)

theorem loop_back (h : Laid code (.loop tested test body true post) s t) :
    Stands code (bodyStart tested test s + body.size + post.size) ⟨.jump, [s]⟩ := by
  have := Listed.right (loop_rest h)
  rwa [length_assembleAll_code] at this

end Loop

end Laid

/-! ## Regions -/

/-- Where control can go from an instruction at `o`: `A` holds of the offsets where it may arrive, with
the shape found there. -/
inductive Continues (Λ : Sig) (A : Nat → Shape → Prop) (o : Nat) : Instruction → Shape → Prop
  | effect {i : Instruction} {σ τ : Shape} (h : Effect Λ i σ τ) (next : A (o + i.op.length) τ) : Continues Λ A o i σ
  | ret {σ : List Kind} : Continues Λ A o ⟨.ret, [0]⟩ ⟨σ, 0⟩
  | retValue {κ : Kind} {σ : List Kind} : Continues Λ A o ⟨.ret, [1]⟩ ⟨κ :: σ, 0⟩
  | suspend : Continues Λ A o ⟨.suspend, []⟩ .empty
  | jump {t : Nat} {σ : List Kind} (h : A t ⟨σ, 0⟩) : Continues Λ A o ⟨.jump, [t]⟩ ⟨σ, 0⟩
  | jumpFalsy {t : Nat} {κ : Kind} {σ : List Kind} (next : A (o + 3) ⟨σ, 0⟩) (h : A t ⟨σ, 0⟩) :
    Continues Λ A o ⟨.jumpFalsy, [t]⟩ ⟨κ :: σ, 0⟩
  | decide {kind : SkipKind} {t : Nat} {κ : Kind} {σ : List Kind} (hk : kind ≠ .falsy)
    (next : A (o + 3) ⟨σ, 0⟩) (h : A t ⟨.any :: σ, 0⟩) : Continues Λ A o ⟨kind.op, [t]⟩ ⟨κ :: σ, 0⟩

theorem Continues.mono (hAB : ∀ o σ, A o σ → B o σ) (h : Continues Λ A o i σ) : Continues Λ B o i σ := by
  cases h with
  | effect h next => exact .effect h (hAB _ _ next)
  | ret => exact .ret
  | retValue => exact .retValue
  | suspend => exact .suspend
  | jump h => exact .jump (hAB _ _ h)
  | jumpFalsy next h => exact .jumpFalsy (hAB _ _ next) (hAB _ _ h)
  | decide hk next h => exact .decide hk (hAB _ _ next) (hAB _ _ h)

/-- The shapes of a region: `S` inside of it, and `A` for the ways out. -/
def Reaches (S : Nat → Option Shape) (A : Nat → Shape → Prop) (o : Nat) (σ : Shape) : Prop := S o = some σ ∨ A o σ

/-- **Code in which every instruction has one shape.** `S` gives the shapes from offset `s` up to `e`,
and control leaves the region only as `A` allows. -/
structure Region (Λ : Sig) (π : Nat → Nat) (code code' : List UInt8) (s e : Nat) (S : Nat → Option Shape)
    (A : Nat → Shape → Prop) : Prop where
  le : s ≤ e
  sound : ∀ o σ, S o = some σ → s ≤ o ∧ o < e ∧ ∃ i, Stands code o i ∧ Stands code' o (i.renumber π) ∧
    Continues Λ (Reaches S A) o i σ

namespace Region

variable {Λ : Sig} {π : Nat → Nat} {code code' : List UInt8} {s m e : Nat} {S T : Nat → Option Shape}
  {A B : Nat → Shape → Prop} {i : Instruction} {σ : Shape}

theorem nothing (s : Nat) (A : Nat → Shape → Prop) : Region Λ π code code' s s (fun _ => none) A where
  le := Nat.le_refl s
  sound _ _ h := by cases h

/-- The shape of a single instruction. -/
def only (s : Nat) (σ : Shape) : Nat → Option Shape := fun o => if o = s then some σ else none

theorem only_self : only s σ s = some σ := if_pos rfl

theorem single (h : Stands code s i) (h' : Stands code' s (i.renumber π)) (he : e = s + i.op.length)
    (hc : Continues Λ A s i σ) : Region Λ π code code' s e (only s σ) A where
  le := by omega
  sound o τ ho := by
    unfold only at ho
    split at ho
    · rename_i heq
      subst heq
      cases ho
      exact ⟨Nat.le_refl _, by have := i.op.length_pos; omega, i, h, h', hc.mono fun _ _ h => .inr h⟩
    · cases ho

/-- The shapes of two regions, one after the other. -/
def glue (m : Nat) (S T : Nat → Option Shape) : Nat → Option Shape := fun o => if o < m then S o else T o

/-- **Two regions in a row.** The ways out of the first lead into the second or out of both. -/
theorem append (ha : Region Λ π code code' s m S B) (hb : Region Λ π code code' m e T A)
    (hB : ∀ o σ, B o σ → Reaches T A o σ) : Region Λ π code code' s e (glue m S T) A := by
  have hS (o : Nat) (σ : Shape) (h : S o = some σ) : glue m S T o = some σ := by
    have := (ha.sound o σ h).2.1
    simp [glue, this, h]
  have hT (o : Nat) (σ : Shape) (h : T o = some σ) : glue m S T o = some σ := by
    have := (hb.sound o σ h).1
    simp [glue, Nat.not_lt.mpr this, h]
  refine ⟨Nat.le_trans ha.le hb.le, fun o σ ho => ?_⟩
  unfold glue at ho
  split at ho
  · obtain ⟨h1, h2, i, hi, hi', hc⟩ := ha.sound o σ ho
    refine ⟨h1, Nat.lt_of_lt_of_le h2 hb.le, i, hi, hi', hc.mono fun o σ h => ?_⟩
    rcases h with h | h
    · exact .inl (hS o σ h)
    · rcases hB o σ h with h | h
      · exact .inl (hT o σ h)
      · exact .inr h
  · obtain ⟨h1, h2, i, hi, hi', hc⟩ := hb.sound o σ ho
    refine ⟨Nat.le_trans ha.le h1, h2, i, hi, hi', hc.mono fun o σ h => ?_⟩
    rcases h with h | h
    · exact .inl (hT o σ h)
    · exact .inr h

/-- Fewer ways out, if those that are gone lead back into the region. -/
theorem restrict (h : Region Λ π code code' s e S B) (hB : ∀ o σ, B o σ → Reaches S A o σ) :
    Region Λ π code code' s e S A where
  le := h.le
  sound o σ ho := by
    obtain ⟨h1, h2, i, hi, hi', hc⟩ := h.sound o σ ho
    refine ⟨h1, h2, i, hi, hi', hc.mono fun o σ h => ?_⟩
    rcases h with h | h
    · exact .inl h
    · exact hB o σ h

end Region

/-- The region starts with shape `σ`, or it is empty and leaves the shape as it is. -/
def Starts (S : Nat → Option Shape) (s e : Nat) (σ τ : Shape) : Prop := S s = some σ ∨ (s = e ∧ σ = τ)

theorem Starts.reaches (h : Starts S s e σ τ) (he : A e τ) : Reaches S A s σ := by
  rcases h with h | ⟨rfl, rfl⟩
  · exact .inl h
  · exact .inr he

theorem Starts.glue (hle : s ≤ m) (ha : Starts S s m σ τ) (hS : ∀ o σ, S o = some σ → o < m)
    (hb : Starts T m e τ υ) : Starts (Region.glue m S T) s e σ υ := by
  rcases ha with h | ⟨rfl, rfl⟩
  · have := hS s σ h
    exact .inl (by simp [Region.glue, this, h])
  · rcases hb with h | ⟨rfl, rfl⟩
    · exact .inl (by simp [Region.glue, h])
    · exact .inr ⟨rfl, rfl⟩

/-! ## Typed fragments -/

/-- Wherever the fragment is laid out, it is a region that leads from `σ` to `τ`. The jumps out of the
loop around it arrive with the empty stack. -/
def LaysOut (Λ : Sig) (π : Nat → Nat) (code code' : List UInt8) (f : Fragment) (σ τ : Shape) : Prop :=
  ∀ ⦃s : Nat⦄ ⦃t : Exit → Nat⦄ ⦃A : Nat → Shape → Prop⦄, Laid code f s t → Laid code' (f.renumber π) s t →
    A (s + f.size) τ → (∀ x, f.leaves x = true → A (t x) .empty) →
    ∃ S, Region Λ π code code' s (s + f.size) S A ∧ Starts S s (s + f.size) σ τ

namespace LaysOut

open Fragment Region

variable {Λ : Sig} {π : Nat → Nat} {code code' : List UInt8} {σ τ υ : Shape} {ks ls : List Kind} {κ : Kind}

theorem nil : LaysOut Λ π code code' .nil σ σ := by
  intro s t A _ _ he _
  exact ⟨fun _ => none, nothing s A, .inr ⟨rfl, rfl⟩⟩

theorem op {i : Instruction} (hc : ∀ A s, A (s + i.op.length) τ → Continues Λ A s i σ) :
    LaysOut Λ π code code' (.op i) σ τ := by
  intro s t A hl hl' he _
  have hlen := Instruction.length_assemble (hl.fits i (by simp [Fragment.code])).1
  rw [size, hlen] at he ⊢
  exact ⟨only s σ, single hl hl' rfl (hc A s he), .inl only_self⟩

theorem exit : LaysOut Λ π code code' (.exit e) .empty .empty := by
  intro s t A hl hl' he hx
  have hc : Continues Λ A s ⟨.jump, [t e]⟩ .empty := .jump (hx e (by simp [leaves]))
  exact ⟨only s .empty, single hl hl' rfl hc, .inl only_self⟩

theorem seq (ha : LaysOut Λ π code code' a σ τ) (hb : LaysOut Λ π code code' b τ υ) :
    LaysOut Λ π code code' (.seq a b) σ υ := by
  intro s t A hl hl' he hx
  rw [size, ← Nat.add_assoc] at he ⊢
  have hlb := hl'.right
  rw [size_renumber] at hlb
  obtain ⟨T, hT, hst⟩ := hb hl.right hlb he fun x h => hx x (by simp [leaves, h])
  obtain ⟨S, hS, hss⟩ := ha (A := Reaches T A) hl.left hl'.left (hst.reaches he)
    fun x h => .inr (hx x (by simp [leaves, h]))
  exact ⟨glue (s + a.size) S T, hS.append hT fun _ _ h => h, hss.glue hS.le (fun o σ h => (hS.sound o σ h).2.1) hst⟩

theorem skip (hb : LaysOut Λ π code code' body ⟨ks, 0⟩ τ)
    (hc : ∀ A s t, A (s + 3) ⟨ks, 0⟩ → A t τ → Continues Λ A s ⟨kind.op, [t]⟩ ⟨κ :: ks, 0⟩) :
    LaysOut Λ π code code' (.skip kind body) ⟨κ :: ks, 0⟩ τ := by
  intro s t A hl hl' he hx
  rw [size, ← Nat.add_assoc] at he ⊢
  obtain ⟨T, hT, hst⟩ := hb hl.skip_body hl'.skip_body he hx
  have hj := hl'.skip_jump
  rw [size_renumber] at hj
  have hren (n : Nat) : Instruction.renumber π ⟨kind.op, [n]⟩ = ⟨kind.op, [n]⟩ := by cases kind <;> rfl
  have hlen : s + 3 = s + kind.op.length := by cases kind <;> rfl
  have hjump := single hl.skip_jump ((hren _).symm ▸ hj) hlen (hc (Reaches T A) s _ (hst.reaches he) (.inr he))
  exact ⟨glue (s + 3) (only s ⟨κ :: ks, 0⟩) T, hjump.append hT fun _ _ h => h, .inl (by simp [glue, only_self])⟩

theorem fork_rest (hj : join = false → ls = ks) (hn : LaysOut Λ π code code' no ⟨ks, 0⟩ ⟨ls, 0⟩)
    (hl : Laid code (.fork yes join no) s t) (hl' : Laid code' ((fork yes join no).renumber π) s t)
    (he : A (noStart yes join s + no.size) ⟨ls, 0⟩) (hx : ∀ x, no.leaves x = true → A (t x) .empty) :
    ∃ S, Region Λ π code code' (s + 3 + yes.size) (noStart yes join s + no.size) S A ∧
      Reaches S A (s + 3 + yes.size) ⟨ls, 0⟩ ∧ Reaches S A (noStart yes join s) ⟨ks, 0⟩ := by
  have hns : noStart (yes.renumber π) join s = noStart yes join s := by simp [noStart]
  have hln := hl'.fork_no
  rw [hns] at hln
  obtain ⟨T, hT, hst⟩ := hn hl.fork_no hln he hx
  cases join with
  | false =>
    refine ⟨T, hT, ?_, hst.reaches he⟩
    rw [hj rfl] at hst he ⊢
    exact hst.reaches he
  | true =>
    have hstart : noStart yes true s = s + 3 + yes.size + 3 := by simp [noStart]
    have hlj := hl'.fork_join
    rw [hns, size_renumber, size_renumber] at hlj
    have hjump : Region Λ π code code' _ _ (only (s + 3 + yes.size) ⟨ls, 0⟩) (Reaches T A) :=
      single hl.fork_join hlj hstart (.jump (.inr he))
    refine ⟨glue (noStart yes true s) (only (s + 3 + yes.size) ⟨ls, 0⟩) T,
      hjump.append hT fun _ _ h => h, .inl ?_, ?_⟩
    · simp [glue, only_self, hstart]
    · rcases hst with h | ⟨hend, heq⟩
      · exact .inl (by simp [glue, h])
      · exact .inr (by rw [hend, heq]; exact he)

theorem fork {yes no : Fragment} {join : Bool} (hj : join = false → ls = ks)
    (hy : LaysOut Λ π code code' yes ⟨ks, 0⟩ ⟨ls, 0⟩) (hn : LaysOut Λ π code code' no ⟨ks, 0⟩ ⟨ls, 0⟩) :
    LaysOut Λ π code code' (.fork yes join no) ⟨κ :: ks, 0⟩ ⟨ls, 0⟩ := by
  intro s t A hl hl' he hx
  have hend : s + size (.fork yes join no) = noStart yes join s + no.size := by
    simp only [size, noStart]; omega
  rw [hend] at he ⊢
  obtain ⟨T, hT, hjoin, hno⟩ := fork_rest hj hn hl hl' he fun x h => hx x (by simp [leaves, h])
  obtain ⟨S, hS, hss⟩ := hy (A := Reaches T A) hl.fork_yes hl'.fork_yes hjoin
    fun x h => .inr (hx x (by simp [leaves, h]))
  have hns : noStart (yes.renumber π) join s = noStart yes join s := by simp [noStart]
  have hlj := hl'.fork_jump
  rw [hns] at hlj
  have hc : Continues Λ (Reaches S (Reaches T A)) s ⟨.jumpFalsy, [noStart yes join s]⟩ ⟨κ :: ks, 0⟩ :=
    .jumpFalsy (hss.reaches hjoin) (.inr hno)
  have hjump : Region Λ π code code' _ _ (only s ⟨κ :: ks, 0⟩) (Reaches S (Reaches T A)) :=
    single hl.fork_jump hlj rfl hc
  exact ⟨glue (s + 3 + yes.size) (glue (s + 3) (only s ⟨κ :: ks, 0⟩) S) T,
    (hjump.append hS fun _ _ h => h).append hT fun _ _ h => h,
    .inl (by simp [glue, only_self]; omega)⟩

theorem loop_rest (hp : back = true → LaysOut Λ π code code' post .empty .empty)
    (hl : Laid code (.loop tested test body back post) s t)
    (hl' : Laid code' ((loop tested test body back post).renumber π) s t) (hs : A s .empty)
    (hx : ∀ x, back = true → post.leaves x = true → A (t x) .empty) :
    ∃ S, Region Λ π code code' (bodyStart tested test s + body.size) (loopEnd tested test body back post s) S A ∧
      Starts S (bodyStart tested test s + body.size) (loopEnd tested test body back post s) .empty .empty := by
  cases back with
  | false =>
    exact ⟨fun _ => none, nothing _ A, .inr ⟨rfl, rfl⟩⟩
  | true =>
    have hend : loopEnd tested test body true post s = bodyStart tested test s + body.size + post.size + 3 := by
      simp [loopEnd]; omega
    have hbs : bodyStart tested (test.renumber π) s = bodyStart tested test s := by
      cases tested <;> simp [bodyStart]
    have hlb := hl'.loop_back
    have hlp := hl'.loop_post
    rw [hbs, size_renumber, size_renumber] at hlb
    rw [hbs, size_renumber] at hlp
    have hjump : Region Λ π code code' _ _ (only _ .empty) A := single hl.loop_back hlb hend (.jump hs)
    obtain ⟨S, hS, hss⟩ := hp rfl (A := Reaches (only _ .empty) A) hl.loop_post hlp
      (.inl only_self) fun x h => .inr (hx x rfl h)
    exact ⟨_, hS.append hjump fun _ _ h => h, hss.glue hS.le (fun o σ h => (hS.sound o σ h).2.1) (.inl only_self)⟩

theorem loop_test (ht : tested = true → LaysOut Λ π code code' test .empty ⟨[κ], 0⟩)
    (hl : Laid code (.loop tested test body back post) s t)
    (hl' : Laid code' ((loop tested test body back post).renumber π) s t)
    (he : A (bodyStart tested test s) .empty) (hd : A (loopEnd tested test body back post s) .empty)
    (hx : ∀ x, tested = true → test.leaves x = true → A (t x) .empty) :
    ∃ S, Region Λ π code code' s (bodyStart tested test s) S A ∧
      Starts S s (bodyStart tested test s) .empty .empty := by
  cases tested with
  | false =>
    exact ⟨fun _ => none, nothing _ A, .inr ⟨rfl, rfl⟩⟩
  | true =>
    have hend : bodyStart true test s = s + test.size + 3 := by simp [bodyStart]; omega
    have hle : loopEnd true (test.renumber π) (body.renumber π) back (post.renumber π) s =
        loopEnd true test body back post s := by
      cases back <;> simp [loopEnd, bodyStart]
    have hlj := hl'.loop_jump
    rw [hle, size_renumber] at hlj
    have hc : Continues Λ A (s + test.size) ⟨.jumpFalsy, [loopEnd true test body back post s]⟩ ⟨[κ], 0⟩ :=
      .jumpFalsy (by rw [← hend]; exact he) hd
    have hjump : Region Λ π code code' _ _ (only _ ⟨[κ], 0⟩) A := single hl.loop_jump hlj hend hc
    obtain ⟨S, hS, hss⟩ := ht rfl (A := Reaches (only _ ⟨[κ], 0⟩) A) hl.loop_test hl'.loop_test
      (.inl only_self) fun x h => .inr (hx x rfl h)
    refine ⟨_, hS.append hjump fun _ _ h => h, .inl ?_⟩
    rcases hss with h | ⟨hzero, heq⟩
    · have := (hS.sound _ _ h).2.1
      simp [glue, this, h]
    · cases heq

theorem loop {tested back : Bool} {test body post : Fragment}
    (ht : tested = true → LaysOut Λ π code code' test .empty ⟨[κ], 0⟩)
    (hb : LaysOut Λ π code code' body .empty .empty)
    (hp : back = true → LaysOut Λ π code code' post .empty .empty) :
    LaysOut Λ π code code' (.loop tested test body back post) .empty .empty := by
  intro s t A hl hl' he hx
  have hend : s + size (.loop tested test body back post) = loopEnd tested test body back post s := by
    simp only [size, loopEnd, bodyStart]; omega
  rw [hend] at he ⊢
  -- while the parts are laid out, the start of the loop counts as a way out
  let B : Nat → Shape → Prop := fun o σ => A o σ ∨ (o = s ∧ σ = .empty)
  obtain ⟨T, hT, hst⟩ := loop_rest hp (A := B) hl hl' (.inr ⟨rfl, rfl⟩)
    fun x hb h => .inl (hx x (by simp [leaves, hb, h]))
  have hbs : bodyStart tested (test.renumber π) s = bodyStart tested test s := by
    cases tested <;> simp [bodyStart]
  have hle : loopEnd tested (test.renumber π) (body.renumber π) back (post.renumber π) s =
      loopEnd tested test body back post s := by
    cases back <;> simp [loopEnd, hbs]
  have hlb := hl'.loop_body
  rw [hbs, hle, size_renumber] at hlb
  have hdone : B (loopEnd tested test body back post s) .empty := .inl he
  have hnext := hst.reaches hdone
  obtain ⟨S, hS, hss⟩ := hb (A := Reaches T B) hl.loop_body hlb hnext fun x _ => by
    cases x with
    | done => exact .inr hdone
    | next => exact hnext
  obtain ⟨R, hR, hsr⟩ := loop_test ht (A := Reaches S (Reaches T B)) hl hl' (hss.reaches hnext)
    (.inr (.inr hdone)) fun x hb h => .inr (.inr (.inl (hx x (by simp [leaves, hb, h]))))
  have hRS := hR.append hS fun _ _ h => h
  have hall := hRS.append hT fun _ _ h => h
  have hstart : Starts (glue _ (glue _ R S) T) s (loopEnd tested test body back post s) .empty .empty :=
    (hsr.glue hR.le (fun o σ h => (hR.sound o σ h).2.1) hss).glue hRS.le (fun o σ h => (hRS.sound o σ h).2.1) hst
  refine ⟨_, hall.restrict fun o σ h => ?_, hstart⟩
  rcases h with h | ⟨rfl, rfl⟩
  · exact .inr h
  · exact hstart.reaches he

end LaysOut

/-- **A typed fragment is laid out as a region.** -/
theorem Typed.laysOut (h : Typed Λ f σ τ) : LaysOut Λ π code code' f σ τ := by
  induction h with
  | nil => exact .nil
  | op h => exact .op fun A s next => .effect h next
  | ret => exact .op fun A s _ => .ret
  | retValue => exact .op fun A s _ => .retValue
  | suspend => exact .op fun A s _ => .suspend
  | seq _ _ iha ihb => exact .seq iha ihb
  | skip _ ih => exact .skip ih fun A s t next h => .jumpFalsy next h
  | decide hk _ ih => exact .skip ih fun A s t next h => .decide hk next h
  | fork hj _ _ ihy ihn => exact .fork hj ihy ihn
  | loop _ _ _ iht ihb ihp => exact .loop iht ihb ihp
  | exit => exact .exit

end Scripting
