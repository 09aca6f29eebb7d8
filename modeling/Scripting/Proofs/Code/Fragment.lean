import Scripting.Code.Instruction
/-!
# `Proofs.Code.Fragment` — code with structured jumps

The compiler writes jumps before it knows where they lead and fills the targets in later. A
`Fragment` is the same code with the jumps still structured: a jump over a body, the two arms of a
branch, a loop, and the jumps that leave a loop. `Fragment.code` lays a fragment out from a start
offset, given the targets of the jumps that leave the loop around it, and `Fragment.bytes` is the
layout as bytes.

* **size** — the number of bytes depends neither on the start nor on the targets (`length_bytes`);
* **holes** — the offsets of the jumps that leave the loop around a fragment, latest first;
* **patching** — writing a target into all holes of one kind gives the layout for that target
  (`patchAll_holes`).
-/

namespace Scripting

open Code Instruction List

/-- How a jump leaves the innermost loop: for good, or to its next round. -/
inductive Exit
  | done
  | next
  deriving DecidableEq, Repr

/-- The conditional jumps over a body. The last two keep the value they test when they jump. -/
inductive SkipKind
  | falsy
  | andAlso
  | orElse
  deriving DecidableEq, Repr

def SkipKind.op : SkipKind → Opcode
  | falsy => .jumpFalsy
  | andAlso => .andJump
  | orElse => .orJump

/-- Code with structured jumps. -/
inductive Fragment
  | nil
  /-- An instruction that does not jump. -/
  | op (i : Instruction)
  | seq (a b : Fragment)
  /-- A conditional jump to the end of the body. -/
  | skip (kind : SkipKind) (body : Fragment)
  /-- `yes` or, if the value on the stack is falsy, `no`. Without `join`, there is no jump over `no`
  at the end of `yes`. -/
  | fork (yes : Fragment) (join : Bool) (no : Fragment)
  /-- A loop. If it is `tested`, `test` stands before the body with a jump to the end; if it goes
  `back`, `post` stands after the body with a jump to the start. -/
  | loop (tested : Bool) (test body : Fragment) (back : Bool) (post : Fragment)
  /-- A jump out of the innermost loop, or to its next round. -/
  | exit (e : Exit)

namespace Fragment

def size : Fragment → Nat
  | nil => 0
  | op i => i.assemble.length
  | seq a b => a.size + b.size
  | skip _ body => 3 + body.size
  | fork yes join no => 3 + yes.size + (if join then 3 else 0) + no.size
  | loop tested test body back post =>
    (if tested then test.size + 3 else 0) + body.size + (if back then post.size + 3 else 0)
  | exit _ => 3

/-- The targets inside a loop. -/
def targets (done next : Nat) : Exit → Nat
  | .done => done
  | .next => next

/-- Where the `no` arm of a branch at `s` starts. -/
def noStart (yes : Fragment) (join : Bool) (s : Nat) : Nat := s + 3 + yes.size + (if join then 3 else 0)

/-- Where the body of a loop at `s` starts. -/
def bodyStart (tested : Bool) (test : Fragment) (s : Nat) : Nat := s + (if tested then test.size + 3 else 0)

/-- Where a loop at `s` ends. -/
def loopEnd (tested : Bool) (test body : Fragment) (back : Bool) (post : Fragment) (s : Nat) : Nat :=
  bodyStart tested test s + body.size + (if back then post.size + 3 else 0)

/-- The instructions of a fragment that starts at offset `s`; `t` gives the targets of the jumps that
leave the loop around it. -/
def code : Fragment → Nat → (Exit → Nat) → List Instruction
  | nil, _, _ => []
  | op i, _, _ => [i]
  | seq a b, s, t => a.code s t ++ b.code (s + a.size) t
  | skip kind body, s, t => ⟨kind.op, [s + 3 + body.size]⟩ :: body.code (s + 3) t
  | fork yes join no, s, t =>
    ⟨.jumpFalsy, [noStart yes join s]⟩ :: yes.code (s + 3) t ++
      (if join then [⟨.jump, [noStart yes join s + no.size]⟩] else []) ++
      no.code (noStart yes join s) t
  | loop tested test body back post, s, t =>
    let inside := bodyStart tested test s
    let next := inside + body.size
    let done := loopEnd tested test body back post s
    (if tested then test.code s t ++ [⟨.jumpFalsy, [done]⟩] else []) ++ body.code inside (targets done next) ++
      (if back then post.code next t ++ [⟨.jump, [s]⟩] else [])
  | exit e, _, t => [⟨.jump, [t e]⟩]

def assembleAll (is : List Instruction) : List UInt8 := is.flatMap assemble

/-- The bytes of a fragment that starts at offset `s`. -/
def bytes (f : Fragment) (s : Nat) (t : Exit → Nat) : List UInt8 := assembleAll (f.code s t)

@[simp] theorem assembleAll_nil : assembleAll [] = [] := rfl

@[simp] theorem assembleAll_cons (i : Instruction) (is : List Instruction) :
    assembleAll (i :: is) = i.assemble ++ assembleAll is := rfl

@[simp] theorem assembleAll_append (is js : List Instruction) :
    assembleAll (is ++ js) = assembleAll is ++ assembleAll js := flatMap_append

theorem assemble_jump (hj : j.widths = [2]) :
    (assemble ⟨j, [t]⟩) = [j.byte, UInt8.ofNat (t / 256), UInt8.ofNat t] := by
  simp [assemble, hj, operandBytes]

@[simp] theorem widths_skip (kind : SkipKind) : kind.op.widths = [2] := by
  cases kind <;> rfl

theorem length_assemble_jump {j : Opcode} (hj : j.widths = [2]) (t : Nat) :
    (assemble ⟨j, [t]⟩).length = 3 := by
  rw [assemble_jump hj]; rfl

/-- **The layout has `size` bytes**, wherever it starts and whatever the targets are. -/
theorem length_assembleAll_code (f : Fragment) (s : Nat) (t : Exit → Nat) :
    (assembleAll (f.code s t)).length = f.size := by
  have jump (n : Nat) : (assemble ⟨.jump, [n]⟩).length = 3 := length_assemble_jump rfl n
  have jumpFalsy (n : Nat) : (assemble ⟨.jumpFalsy, [n]⟩).length = 3 := length_assemble_jump rfl n
  induction f generalizing s t with
  | nil => rfl
  | op i => simp [code, size]
  | seq a b iha ihb => simp only [code, size, assembleAll_append, length_append, iha, ihb]
  | skip kind body ih =>
    simp only [code, size, assembleAll_cons, length_append, ih, length_assemble_jump (widths_skip kind)]
  | fork yes join no ihy ihn =>
    simp only [code, size, assembleAll_cons, assembleAll_append, length_append, cons_append, ihy, ihn,
      jumpFalsy]
    cases join <;> simp [jump] <;> omega
  | loop tested test body back post iht ihb ihp =>
    simp only [code, size, assembleAll_append, length_append, ihb]
    cases tested <;> cases back <;> simp [iht, ihp, jump, jumpFalsy]
  | exit e => simp [code, size, jump]

theorem length_bytes (f : Fragment) (s : Nat) (t : Exit → Nat) : (f.bytes s t).length = f.size :=
  length_assembleAll_code f s t

theorem joinLength (yes : Fragment) (join : Bool) (s done : Nat) :
    s + (3 + yes.size + (assembleAll (if join then [⟨.jump, [done]⟩] else [])).length) = noStart yes join s := by
  cases join <;> simp [noStart, length_assemble_jump (j := .jump) rfl] <;> omega

theorem testLength (tested : Bool) (test : Fragment) (s done : Nat) (t : Exit → Nat) :
    s + (assembleAll (if tested then test.code s t ++ [⟨.jumpFalsy, [done]⟩] else [])).length =
      bodyStart tested test s := by
  cases tested <;> simp [bodyStart, length_assembleAll_code, length_assemble_jump (j := .jumpFalsy) rfl]

/-! ## Holes -/

/-- The offsets of the jumps of a fragment at `s` that leave the loop around it, latest first. The body
of a loop has none of them: its jumps leave that loop. -/
def holes (e : Exit) : Fragment → Nat → List Nat
  | nil, _ => []
  | op _, _ => []
  | seq a b, s => b.holes e (s + a.size) ++ a.holes e s
  | skip _ body, s => body.holes e (s + 3)
  | fork yes join no, s => no.holes e (noStart yes join s) ++ yes.holes e (s + 3)
  | loop tested test body back post, s =>
    (if back then post.holes e (bodyStart tested test s + body.size) else []) ++
      (if tested then test.holes e s else [])
  | exit e', s => if e' = e then [s] else []

/-- Does a fragment have a jump that leaves the loop around it? -/
def leaves (e : Exit) : Fragment → Bool
  | nil => false
  | op _ => false
  | seq a b => b.leaves e || a.leaves e
  | skip _ body => body.leaves e
  | fork yes _ no => no.leaves e || yes.leaves e
  | loop tested test _ back post => (back && post.leaves e) || (tested && test.leaves e)
  | exit e' => e' = e

theorem holes_eq_nil_iff {f : Fragment} : ∀ {s : Nat}, f.holes e s = [] ↔ f.leaves e = false := by
  induction f with
  | nil => intro s; simp [holes, leaves]
  | op i => intro s; simp [holes, leaves]
  | seq a b iha ihb => intro s; simp [holes, leaves, iha, ihb]
  | skip kind body ih => intro s; simp [holes, leaves, ih]
  | fork yes join no ihy ihn => intro s; simp [holes, leaves, ihy, ihn]
  | loop tested test body back post iht ihb ihp =>
    intro s
    cases tested <;> cases back <;> simp [holes, leaves, iht, ihp]
  | exit e' => intro s; by_cases h : e' = e <;> simp [holes, leaves, h]

/-- Write a target into the jumps at some offsets. -/
def patchAll (code : Bytes) (jumps : List Nat) (target : Nat) : Bytes :=
  jumps.foldl (fun code j => patchU16 code (j + 1) target) code

theorem patchAll_append (code : Bytes) (js js' : List Nat) (target : Nat) :
    patchAll code (js ++ js') target = patchAll (patchAll code js target) js' target := by
  simp [patchAll]

theorem patchU16_toList (code : Bytes) (i value : Nat) : (patchU16 code i value).toList =
      if i + 2 ≤ code.size then
        (code.toList.set i (UInt8.ofNat (value / 256))).set (i + 1) (UInt8.ofNat value)
      else code.toList := by
  unfold patchU16
  split
  · simp
  · rfl

@[simp] theorem size_patchU16 (code : Bytes) (i value : Nat) : (patchU16 code i value).size = code.size := by
  unfold patchU16
  split <;> simp

/-- The targets with one of them replaced. -/
def retarget (t : Exit → Nat) (e : Exit) (v : Nat) : Exit → Nat := fun e' => if e' = e then v else t e'

/-- Patching `jumps` turns the bytes `old`, wherever they start at `s`, into `new`. -/
def PatchedTo (v s : Nat) (old new : List UInt8) (jumps : List Nat) : Prop :=
  ∀ before after : List UInt8, s = before.length →
    patchAll (before ++ (old ++ after)).toArray jumps v = (before ++ (new ++ after)).toArray

theorem PatchedTo.same (old : List UInt8) : PatchedTo v s old old [] := fun _ _ _ => rfl

/-- The jumps of the second part come first, while the first one still has its old targets. -/
theorem PatchedTo.append (ha : PatchedTo v s a a' js) (hb : PatchedTo v s' b b' js') (hs : s + a.length = s') :
    PatchedTo v s (a ++ b) (a' ++ b') (js' ++ js) := by
  intro before after h
  have hb := hb (before ++ a) after (by rw [← hs, h, length_append])
  have ha := ha before (b' ++ after) h
  simp only [append_assoc] at hb ⊢
  rw [patchAll_append, hb, ha]

theorem PatchedTo.before (h : PatchedTo v s a a' js) : PatchedTo v s (a ++ b) (a' ++ b) js := h.append (.same b) rfl

theorem PatchedTo.after (h : PatchedTo v s' b b' js) (hs : s + a.length = s') :
    PatchedTo v s (a ++ b) (a ++ b') js := by
  have := (PatchedTo.same a).append h hs
  rwa [append_nil] at this

theorem PatchedTo.toList {all : Bytes} (h : PatchedTo v l.length old new js) (hall : all.toList = l ++ (old ++ r)) :
    (patchAll all js v).toList = l ++ (new ++ r) := by
  have hall' : all = (l ++ (old ++ r)).toArray := Array.toList_inj.mp hall
  rw [hall', h l r rfl]

/-- **Patching a jump replaces its target** and nothing else. -/
theorem patchedTo_jump (hj : o.widths = [2]) (n : Nat) :
    PatchedTo v s (assemble ⟨o, [n]⟩) (assemble ⟨o, [v]⟩) [s] := by
  rintro before after rfl
  apply Array.toList_inj.mp
  show (patchU16 _ _ _).toList = _
  rw [patchU16_toList, if_pos (by simp [assemble_jump hj]; omega)]
  have h : before.length + 1 + 1 - before.length = 2 := by omega
  simp [assemble_jump hj, set_append, h]
  omega

/-- Code with a jump after it, if both are there. -/
theorem PatchedTo.jump {there : Bool} {i : Instruction} (h : PatchedTo v s (assembleAll is) (assembleAll is') js) :
    PatchedTo v s (assembleAll (if there then is ++ [i] else [])) (assembleAll (if there then is' ++ [i] else []))
      (if there then js else []) := by
  cases there with
  | true =>
    simp only [if_true, assembleAll_append]
    exact h.before
  | false => exact .same []

/-- **Patching all holes of one kind** in the layout of a fragment, wherever it stands, gives the
layout for the new target. -/
theorem patchedTo_holes (e : Exit) (v : Nat) (f : Fragment) (s : Nat) (t : Exit → Nat) :
    PatchedTo v s (f.bytes s t) (f.bytes s (retarget t e v)) (f.holes e s) := by
  induction f generalizing s t with
  | nil | op => exact .same _
  | seq a b iha ihb =>
    simp only [bytes, code, assembleAll_append]
    exact (iha s t).append (ihb (s + a.size) t) (by rw [length_bytes])
  | skip kind body ih => exact (ih (s + 3) t).after (by rw [length_assemble_jump (widths_skip kind)])
  | fork yes join no ihy ihn =>
    have hy := (ihy (s + 3) t).after (a := assemble ⟨.jumpFalsy, [noStart yes join s]⟩)
      (by rw [length_assemble_jump rfl])
    simp only [bytes, code, assembleAll_append, assembleAll_cons]
    refine hy.before.append (ihn (noStart yes join s) t) ?_
    rw [length_append, length_append, length_assemble_jump rfl, length_bytes, joinLength]
  | loop tested test body back post iht ihb ihp =>
    simp only [bytes, code, assembleAll_append]
    refine (iht s t).jump.before.append (ihp (bodyStart tested test s + body.size) t).jump ?_
    rw [length_append, length_assembleAll_code, ← Nat.add_assoc, testLength]
  | exit e' =>
    by_cases h : e' = e
    · simpa [bytes, code, holes, retarget, h] using patchedTo_jump (o := .jump) rfl (t e)
    · simpa [bytes, code, holes, retarget, h] using PatchedTo.same _

theorem fits_append {is is' js js' : List Instruction} (ha : (∀ i ∈ is, i.Fits) → ∀ i ∈ is', i.Fits)
    (hb : (∀ i ∈ js, i.Fits) → ∀ i ∈ js', i.Fits) (h : ∀ i ∈ is ++ js, i.Fits) : ∀ i ∈ is' ++ js', i.Fits := by
  rw [forall_mem_append] at h ⊢
  exact h.imp ha hb

/-- **Instructions keep fitting their widths** when a target that fits is filled in. -/
theorem fits_retarget (f : Fragment) (hv : f.leaves e = true → v ≤ maxOperand 2) :
    (∀ i ∈ f.code s t, i.Fits) → ∀ i ∈ f.code s (retarget t e v), i.Fits := by
  induction f generalizing s t with
  | nil | op => exact id
  | seq a b iha ihb =>
    simp only [leaves, Bool.or_eq_true] at hv
    exact fits_append (iha fun ha => hv (.inr ha)) (ihb fun hb => hv (.inl hb))
  | skip kind body ih => exact @fits_append [_] [_] _ _ id (ih hv)
  | fork yes join no ihy ihn =>
    simp only [leaves, Bool.or_eq_true] at hv
    exact fits_append (fits_append (@fits_append [_] [_] _ _ id (ihy fun hy => hv (.inr hy))) id)
      (ihn fun hn => hv (.inl hn))
  | loop tested test body back post iht ihb ihp =>
    simp only [leaves, Bool.or_eq_true, Bool.and_eq_true] at hv
    refine fits_append (fits_append ?_ id) ?_
    · cases tested with
      | false => exact id
      | true => exact fits_append (iht fun ht => hv (.inr ⟨rfl, ht⟩)) id
    · cases back with
      | false => exact id
      | true => exact fits_append (ihp fun hp => hv (.inl ⟨rfl, hp⟩)) id
  | exit e' =>
    intro h i hi
    rw [code, mem_singleton] at hi
    subst hi
    by_cases he : e' = e
    · have hle := hv (by simp [leaves, he])
      exact ⟨rfl, by simpa [Opcode.widths, retarget, he] using hle⟩
    · simpa [retarget, he, code] using h

end Fragment

end Scripting
