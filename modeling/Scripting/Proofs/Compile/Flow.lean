import Mathlib.Logic.Relation
import Scripting.Proofs.Compile.Building
import Scripting.Proofs.Compile.Stream
/-!
# `Proofs.Compile.Flow` — the ways control can take through code

From an instruction control goes to the next one, to the target of its jump, or nowhere (`Flows`); a way
through code is a chain of such steps (`Way`). Nothing is said here about the values that decide which way
is taken, so a way that control takes in a run is one of these.

`Confined` says of a fragment with the compiler's verdict on it that control which starts inside stays inside
until it leaves through a jump out of the loop around the fragment or, unless the verdict is that the fragment
exits, past its end. That is what the compiler keeps track of when it decides to leave out the return at the end
of a function or the jump over an `else` part. `Builds.confined` proves it of all compiled code, one lemma for
each way of putting code together. So code that exits never leads past its end (`Confined.no_way`), and every
jump of a function leads to an instruction (`Builds.jumpsLand`).
-/

namespace Scripting

open Code List

/-- Does control go on to the next instruction if this one does not jump? -/
def Opcode.fallsThrough : Opcode → Bool
  | .jump | .ret | .suspend => Bool.false
  | _ => Bool.true

namespace Code

def opcodeAt? (code : Bytes) (o : Nat) : Option Opcode := code[o]?.bind Opcode.ofByte?

/-- **Where control can go from the instruction at an offset.** -/
inductive Flows (code : Bytes) (o : Nat) : Nat → Prop
  | next {op} (h : opcodeAt? code o = some op) (hop : op.fallsThrough = true) : Flows code o (o + op.length)
  | jump {op} (h : opcodeAt? code o = some op) (hop : op.isJump = true) : Flows code o (readU16 code (o + 1))

/-- Control can get from one offset to another without going on from an offset in `avoid`. -/
def Way (code : Bytes) (avoid : Nat → Prop) : Nat → Nat → Prop :=
  Relation.ReflTransGen fun o o' => ¬avoid o ∧ Flows code o o'

/-- Control never runs off the end of the code. -/
def Ends (code : Bytes) : Prop := ¬Way code (fun _ => False) 0 code.size

/-- Every jump of the code leads to an instruction. -/
def JumpsLand (code : Bytes) : Prop :=
  ∀ p ∈ decode code, p.2.op.isJump = true → ∃ q ∈ decode code, p.2.operands = [q.1]

theorem widths_of_isJump {op : Opcode} (h : op.isJump = true) : op.widths = [2] := by
  cases op <;> first | rfl | cases h

theorem Flows.of_stands (h : Flows code o o') (hi : Stands code.toList o i) :
    i.op.fallsThrough = true ∧ o' = o + i.op.length ∨ i.op.isJump = true ∧ i.operands = [o'] := by
  have hread : opcodeAt? code o = some i.op := by
    unfold opcodeAt?
    rw [Array.getElem?_eq_getElem hi.lt_size]
    exact hi.opcode hi.lt_size
  cases h with
  | next hop hnext =>
    cases hop.symm.trans hread
    exact .inl ⟨hnext, rfl⟩
  | jump hop hjump =>
    cases hop.symm.trans hread
    refine .inr ⟨hjump, ?_⟩
    rw [← hi.operands, widths_of_isJump hjump]
    rfl

theorem read_of_mem_decodeFrom {code : Bytes} (hp : p ∈ decodeFrom code o) (hj : p.2.op.isJump = true) :
    opcodeAt? code p.1 = some p.2.op ∧ p.2.operands = [readU16 code (p.1 + 1)] := by
  fun_induction decodeFrom code o with
  | case1 ip hlt hop => cases hp
  | case2 ip hlt op hop ih =>
    rcases mem_cons.mp hp with rfl | hp
    · refine ⟨?_, ?_⟩
      · unfold opcodeAt?
        rw [Array.getElem?_eq_getElem hlt]
        exact hop
      · simp only [widths_of_isJump hj]
        rfl
    · exact ih hp
  | case3 => cases hp

end Code

namespace Fragment

/-! ## Instructions of a fragment -/

/-- The offsets of the instructions of a fragment at `s`. -/
def starts : Fragment → Nat → List Nat
  | nil, _ => []
  | op _, s | exit _, s => [s]
  | seq a b, s => a.starts s ++ b.starts (s + a.size)
  | skip _ body, s => s :: body.starts (s + 3)
  | fork yes join no, s =>
    s :: yes.starts (s + 3) ++ (if join then [s + 3 + yes.size] else []) ++ no.starts (noStart yes join s)
  | loop tested test body back post, s =>
    (if tested then test.starts s ++ [s + test.size] else []) ++ body.starts (bodyStart tested test s) ++
      (if back then post.starts (bodyStart tested test s + body.size) ++
        [bodyStart tested test s + body.size + post.size] else [])

/-- Instructions at `s` that fit their widths start at the offsets `os`. -/
def HasStarts (s : Nat) (is : List Instruction) (os : List Nat) : Prop :=
  (∀ i ∈ is, i.Fits) → (located s is).map Prod.fst = os

theorem HasStarts.one (i : Instruction) : HasStarts s [i] [s] := fun _ => rfl

theorem HasStarts.append (ha : HasStarts s is os) (hb : HasStarts s' js os') (hs : s + (assembleAll is).length = s') :
    HasStarts s (is ++ js) (os ++ os') := by
  intro h
  rw [forall_mem_append] at h
  rw [located_append _ _ h.1, map_append, ha h.1, hs, hb h.2]

/-- The offsets in the layout of a fragment with a jump after it, if both are there. -/
theorem HasStarts.jump {f : Fragment} {there : Bool} {i : Instruction} (h : HasStarts s (f.code s t) os) :
    HasStarts s (if there then f.code s t ++ [i] else []) (if there then os ++ [s + f.size] else []) := by
  cases there with
  | true => exact h.append (.one i) (by rw [length_assembleAll_code])
  | false => exact fun _ => rfl

/-- **The offsets in the layout of a fragment.** -/
theorem map_fst_located {f : Fragment} : HasStarts s (f.code s t) (f.starts s) := by
  induction f generalizing s t with
  | nil | op | exit => exact fun _ => rfl
  | seq a b iha ihb => exact iha.append ihb (by rw [length_assembleAll_code])
  | skip kind body ih =>
    refine (HasStarts.one _).append ih ?_
    rw [assembleAll_cons, length_append, length_assemble_jump (widths_skip kind)]
    rfl
  | fork yes join no ihy ihn =>
    have hjoin : HasStarts (s + 3 + yes.size) (if join then [⟨.jump, [noStart yes join s + no.size]⟩] else [])
        (if join then [s + 3 + yes.size] else []) := by
      cases join <;> exact fun _ => rfl
    have hy := (HasStarts.one ⟨.jumpFalsy, [noStart yes join s]⟩).append (@ihy (s + 3) t) rfl
    have hlen : (assembleAll ([⟨.jumpFalsy, [noStart yes join s]⟩] ++ yes.code (s + 3) t)).length = 3 + yes.size := by
      rw [assembleAll_append, length_append, length_assembleAll_code]; rfl
    refine (hy.append hjoin (by rw [hlen, Nat.add_assoc])).append ihn ?_
    rw [assembleAll_append, length_append, hlen, joinLength]
  | loop tested test body back post iht ihb ihp =>
    refine (iht.jump.append ihb (testLength ..)).append ihp.jump ?_
    rw [assembleAll_append, length_append, length_assembleAll_code, ← Nat.add_assoc, testLength]

variable {f : Fragment} {bytes : List UInt8} {s o : Nat} {t : Exit → Nat}

theorem self_mem_starts (hl : Laid bytes f s t) (h : 0 < f.size) : s ∈ f.starts s := by
  rw [← map_fst_located hl.fits]
  cases hcode : f.code s t with
  | nil =>
    have hlen := length_assembleAll_code f s t
    rw [hcode] at hlen
    exact absurd h (hlen ▸ Nat.lt_irrefl 0)
  | cons i is => exact mem_cons_self ..

theorem lt_of_mem_starts (hl : Laid bytes f s t) (h : o ∈ f.starts s) : o < s + f.size := by
  rw [← map_fst_located hl.fits, mem_map] at h
  obtain ⟨p, hp, rfl⟩ := h
  have hlt := (offset_of_mem_located hl.fits hp).2
  rwa [length_assembleAll_code] at hlt

theorem mem_snoc_of (h : 0 < f.size → s ∈ f.starts s) : s ∈ f.starts s ++ [s + f.size] := by
  by_cases hf : 0 < f.size
  · exact mem_append_left _ (h hf)
  · rw [Nat.eq_zero_of_not_pos hf]
    exact mem_append_right _ (mem_singleton_self s)

theorem size_op_pos : 0 < (op i).size := Nat.succ_pos _

/-! ## Confinement -/

/-- **Where control goes from the instructions of a fragment**, wherever it is laid out: to an instruction of
the fragment, past its end unless the fragment exits, or out of the loop around it through an open jump. -/
structure Confined (f : Fragment) (exits : Bool) : Prop where
  size_pos : exits = true → 0 < f.size
  flows : ∀ (code : Bytes) (s : Nat) (t : Exit → Nat), Laid code.toList f s t → ∀ o ∈ f.starts s, ∀ o',
    Flows code o o' → o' ∈ f.starts s ∨ exits = false ∧ o' = s + f.size ∨ ∃ e, o ∈ f.holes e s ∧ o' = t e

/-- A fragment starts with an instruction, unless it is empty and does not exit. -/
theorem Confined.start (h : Confined f exits) (hl : Laid bytes f s t) :
    s ∈ f.starts s ∨ exits = false ∧ f.size = 0 := by
  by_cases hpos : 0 < f.size
  · exact .inl (self_mem_starts hl hpos)
  · refine .inr ⟨?_, Nat.eq_zero_of_not_pos hpos⟩
    cases exits with
    | true => exact absurd (h.size_pos rfl) hpos
    | false => rfl

theorem Confined.nil : Confined .nil false where
  size_pos h := by cases h
  flows _ _ _ _ _ h := by cases h

theorem Confined.op (hj : i.op.isJump = false) (hexits : exits = true → i.op.fallsThrough = false) :
    Confined (.op i) exits := by
  refine ⟨fun _ => size_op_pos, fun code s t hl o ho o' hflow => ?_⟩
  have ho : o = s := mem_singleton.mp ho
  subst ho
  have hlen : i.assemble.length = i.op.length := Instruction.length_assemble (hl.fits i (mem_singleton_self i)).1
  rcases hflow.of_stands hl with ⟨hnext, rfl⟩ | ⟨hjump, -⟩
  · refine .inr (.inl ⟨?_, by rw [size, hlen]⟩)
    cases exits with
    | true => rw [hexits rfl] at hnext; cases hnext
    | false => rfl
  · rw [hj] at hjump
    cases hjump

theorem Confined.exit (e : Exit) : Confined (.exit e) true := by
  refine ⟨fun _ => Nat.succ_pos _, fun code s t hl o ho o' hflow => ?_⟩
  have ho : o = s := mem_singleton.mp ho
  subst ho
  rcases hflow.of_stands hl with ⟨hnext, -⟩ | ⟨-, hto⟩
  · cases hnext
  · exact .inr (.inr ⟨e, by simp [holes], (singleton_inj.mp hto).symm⟩)

theorem Confined.forget (h : Confined f exits) : Confined f false where
  size_pos hf := by cases hf
  flows code s t hl o ho o' hflow := by
    rcases h.flows code s t hl o ho o' hflow with hin | ⟨-, hend⟩ | hout
    · exact .inl hin
    · exact .inr (.inl ⟨rfl, hend⟩)
    · exact .inr (.inr hout)

/-- Past the end of the first part, control goes on in the second. -/
theorem Confined.seq (ha : Confined a false) (hb : Confined b exits) : Confined (.seq a b) exits := by
  refine ⟨fun he => Nat.add_pos_right _ (hb.size_pos he), fun code s t hl o ho o' hflow => ?_⟩
  rcases mem_append.mp ho with ho | ho
  · rcases ha.flows code s t hl.left o ho o' hflow with hin | ⟨-, rfl⟩ | ⟨e, he, rfl⟩
    · exact .inl (mem_append_left _ hin)
    · rcases hb.start hl.right with hin | ⟨hexits, hzero⟩
      · exact .inl (mem_append_right _ hin)
      · exact .inr (.inl ⟨hexits, by rw [size, hzero, Nat.add_zero]⟩)
    · exact .inr (.inr ⟨e, mem_append_right _ he, rfl⟩)
  · rcases hb.flows code _ t hl.right o ho o' hflow with hin | ⟨hexits, rfl⟩ | ⟨e, he, rfl⟩
    · exact .inl (mem_append_right _ hin)
    · exact .inr (.inl ⟨hexits, by rw [size, Nat.add_assoc]⟩)
    · exact .inr (.inr ⟨e, mem_append_left _ he, rfl⟩)

theorem length_skip (kind : SkipKind) : kind.op.length = 3 := by
  cases kind <;> rfl

theorem Confined.skip (hb : Confined body exits) : Confined (.skip kind body) false := by
  refine ⟨Bool.false_ne_true.elim, fun code s t hl o ho o' hflow => ?_⟩
  have hend : s + (Fragment.skip kind body).size = s + 3 + body.size := by rw [size, Nat.add_assoc]
  rw [hend]
  rcases mem_cons.mp ho with rfl | ho
  · rcases hflow.of_stands hl.skip_jump with ⟨-, rfl⟩ | ⟨-, hto⟩
    · rw [length_skip]
      rcases hb.start hl.skip_body with hin | ⟨-, hzero⟩
      · exact .inl (mem_cons_of_mem _ hin)
      · exact .inr (.inl ⟨rfl, by rw [hzero, Nat.add_zero]⟩)
    · exact .inr (.inl ⟨rfl, (singleton_inj.mp hto).symm⟩)
  · rcases hb.flows code _ t hl.skip_body o ho o' hflow with hin | ⟨-, rfl⟩ | ⟨e, he, rfl⟩
    · exact .inl (mem_cons_of_mem _ hin)
    · exact .inr (.inl ⟨rfl, rfl⟩)
    · exact .inr (.inr ⟨e, he, rfl⟩)

/-- The end of the first arm is the jump over the second one, which is left out only if the first one exits. -/
theorem Confined.fork {yes no : Fragment} {exits exits' : Bool} (hy : Confined yes exits) (hn : Confined no exits') :
    Confined (.fork yes (!exits) no) (exits && exits') := by
  refine ⟨fun _ => ?_, fun code s t hl o ho o' hflow => ?_⟩
  · rw [size]
    omega
  have hend : s + (Fragment.fork yes (!exits) no).size = noStart yes (!exits) s + no.size := by
    rw [size, noStart]
    omega
  have hjoin (h : exits = false) : s + 3 + yes.size ∈ (Fragment.fork yes (!exits) no).starts s := by
    subst h
    simp [starts]
  rw [hend]
  simp only [starts, mem_append, mem_cons] at ho
  rcases ho with ((rfl | ho) | ho) | ho
  · rcases hflow.of_stands hl.fork_jump with ⟨-, rfl⟩ | ⟨-, hto⟩
    · rcases hy.start hl.fork_yes with hin | ⟨hexits, hzero⟩
      · exact .inl (mem_append_left _ (mem_append_left _ (mem_cons_of_mem _ hin)))
      · have := hjoin hexits
        rw [hzero] at this
        exact .inl this
    · cases singleton_inj.mp hto
      rcases hn.start hl.fork_no with hin | ⟨hexits, hzero⟩
      · exact .inl (mem_append_right _ hin)
      · exact .inr (.inl ⟨by rw [hexits, Bool.and_false], by rw [hzero, Nat.add_zero]⟩)
  · rcases hy.flows code _ t hl.fork_yes o ho o' hflow with hin | ⟨hexits, rfl⟩ | ⟨e, he, rfl⟩
    · exact .inl (mem_append_left _ (mem_append_left _ (mem_cons_of_mem _ hin)))
    · exact .inl (hjoin hexits)
    · exact .inr (.inr ⟨e, mem_append_right _ he, rfl⟩)
  · cases exits with
    | true => cases ho
    | false =>
      have ho : o = s + 3 + yes.size := mem_singleton.mp ho
      subst ho
      rcases hflow.of_stands hl.fork_join with ⟨hnext, -⟩ | ⟨-, hto⟩
      · cases hnext
      · exact .inr (.inl ⟨rfl, (singleton_inj.mp hto).symm⟩)
  · rcases hn.flows code _ t hl.fork_no o ho o' hflow with hin | ⟨hexits, rfl⟩ | ⟨e, he, rfl⟩
    · exact .inl (mem_append_right _ hin)
    · exact .inr (.inl ⟨by rw [hexits, Bool.and_false], rfl⟩)
    · exact .inr (.inr ⟨e, mem_append_left _ he, rfl⟩)

theorem leaves_of_mem_holes (h : o ∈ f.holes e s) : f.leaves e = true := by
  by_contra hleaves
  rw [holes_eq_nil_iff.mpr (Bool.eq_false_iff.mpr hleaves)] at h
  cases h

/-- The body of a loop leads to the way back, which is left out only if nothing leads there. -/
theorem Confined.loop {tested exits : Bool} {test body post : Fragment}
    (ht : tested = true → Confined test false) (hb : Confined body exits)
    (hp : (!exits || body.leaves .next) = true → Confined post false) :
    Confined (.loop tested test body (!exits || body.leaves .next) post) (!tested && !body.leaves .done) := by
  generalize hback : (!exits || body.leaves .next) = back at *
  -- without a way back the body exits, so it is not empty
  have hsize : 0 < (Fragment.loop tested test body back post).size := by
    rw [size]
    cases back with
    | true =>
      rw [if_pos rfl]
      omega
    | false =>
      rw [Bool.or_eq_false_iff, Bool.not_eq_false'] at hback
      have := hb.size_pos hback.1
      omega
  refine ⟨fun _ => hsize, fun code s t hl o ho o' hflow => ?_⟩
  have hend : s + (Fragment.loop tested test body back post).size = loopEnd tested test body back post s := by
    rw [size, loopEnd, bodyStart]
    omega
  -- the way back starts with an instruction, the jump to the start if nothing else
  have hnext (h : back = true) : bodyStart tested test s + body.size ∈
      (Fragment.loop tested test body back post).starts s := by
    subst h
    exact mem_append_right _ (mem_snoc_of (self_mem_starts hl.loop_post))
  have hbody : bodyStart tested test s ∈ (Fragment.loop tested test body back post).starts s := by
    rcases hb.start hl.loop_body with hin | ⟨hexits, hzero⟩
    · exact mem_append_left _ (mem_append_right _ hin)
    · have := hnext (by rw [← hback, hexits]; rfl)
      rwa [hzero, Nat.add_zero] at this
  rw [hend]
  simp only [starts, mem_append] at ho
  rcases ho with (ho | ho) | ho
  · cases tested with
    | false => cases ho
    | true =>
      rcases mem_append.mp ho with ho | ho
      · rcases (ht rfl).flows code s t hl.loop_test o ho o' hflow with hin | ⟨-, rfl⟩ | ⟨e, he, rfl⟩
        · exact .inl (mem_append_left _ (mem_append_left _ (mem_append_left _ hin)))
        · exact .inl (mem_append_left _ (mem_append_left _
            (mem_append_right _ (mem_singleton_self _))))
        · exact .inr (.inr ⟨e, mem_append_right _ he, rfl⟩)
      · have ho : o = s + test.size := mem_singleton.mp ho
        subst ho
        rcases hflow.of_stands hl.loop_jump with ⟨-, rfl⟩ | ⟨-, hto⟩
        · exact .inl hbody
        · exact .inr (.inl ⟨rfl, (singleton_inj.mp hto).symm⟩)
  · rcases hb.flows code _ _ hl.loop_body o ho o' hflow with hin | ⟨hexits, rfl⟩ | ⟨e, he, rfl⟩
    · exact .inl (mem_append_left _ (mem_append_right _ hin))
    · exact .inl (hnext (by rw [← hback, hexits]; rfl))
    · have hleaves := leaves_of_mem_holes he
      cases e with
      | done => exact .inr (.inl ⟨by rw [hleaves, Bool.not_true, Bool.and_false], rfl⟩)
      | next => exact .inl (hnext (by rw [← hback, hleaves, Bool.or_true]))
  · cases back with
    | false => cases ho
    | true =>
      rcases mem_append.mp ho with ho | ho
      · rcases (hp rfl).flows code _ t hl.loop_post o ho o' hflow with hin | ⟨-, rfl⟩ | ⟨e, he, rfl⟩
        · exact .inl (mem_append_right _ (mem_append_left _ hin))
        · exact .inl (mem_append_right _ (mem_append_right _ (mem_singleton_self _)))
        · exact .inr (.inr ⟨e, mem_append_left _ he, rfl⟩)
      · have ho : o = bodyStart tested test s + body.size + post.size := mem_singleton.mp ho
        subst ho
        rcases hflow.of_stands hl.loop_back with ⟨hnext, -⟩ | ⟨-, hto⟩
        · cases hnext
        · cases singleton_inj.mp hto
          exact .inl (self_mem_starts hl hsize)

/-! ## Ways through a fragment -/

variable {code : Bytes} {avoid : Nat → Prop}

/-- **Control that starts in a fragment which exits stays there** unless it takes an open jump. -/
theorem Confined.stays (h : Confined f true) (hl : Laid code.toList f s t)
    (hholes : ∀ e, ∀ j ∈ f.holes e s, avoid j) (hway : Way code avoid s o) : o ∈ f.starts s := by
  induction hway with
  | refl => exact self_mem_starts hl (h.size_pos rfl)
  | tail _ hstep ih =>
    obtain ⟨havoid, hflow⟩ := hstep
    rcases h.flows code s t hl _ ih _ hflow with hin | ⟨hf, -⟩ | ⟨e, he, -⟩
    · exact hin
    · cases hf
    · exact absurd (hholes e _ he) havoid

/-- Control never gets past the end of a fragment that exits. -/
theorem Confined.no_way (h : Confined f true) (hl : Laid code.toList f s t)
    (hholes : ∀ e, ∀ j ∈ f.holes e s, avoid j) : ¬Way code avoid s (s + f.size) := by
  intro hway
  exact Nat.lt_irrefl _ (lt_of_mem_starts hl (h.stays hl hholes hway))

end Fragment

/-! ## Compiled code -/

namespace Generator

open Fragment

variable {M : ModuleMap} {held : List Symbol} {c c' : Context} {f : Fragment} {exits : Bool} {code : Bytes}

theorem isJump_of_isPlain {op : Opcode} (h : op.isPlain = true) : op.isJump = false := by
  cases op <;> first | rfl | cases h

theorem isJump_loadOp (sym : Symbol) : sym.loadOp.op.isJump = false := by
  unfold Symbol.loadOp
  cases sym.kind <;> rfl

theorem isJump_of_storedBy {sym : Symbol} (h : sym.StoredBy i) : i.op.isJump = false := by
  unfold Symbol.StoredBy at h
  cases hk : sym.kind with
  | globalVar | captured =>
    rw [hk] at h
    rcases h with rfl | ⟨n, rfl⟩ <;> rfl
  | localVar =>
    rw [hk] at h
    rcases h with rfl | rfl | ⟨n, rfl⟩ <;> rfl
  | builtin | self =>
    rw [hk] at h
    cases h

theorem isJump_captureOp : (captureOp sym).op.isJump = false := by
  unfold captureOp
  cases sym.kind <;> rfl

theorem confined_captureCode : Confined (captureCode syms) false := by
  induction syms with
  | nil => exact .nil
  | cons sym rest ih => exact Confined.seq (.op isJump_captureOp Bool.false_ne_true.elim) ih

theorem confined_functionCode : Confined (functionCode k syms) false := by
  unfold functionCode
  split
  · exact .op rfl Bool.false_ne_true.elim
  · exact confined_captureCode.seq (.op rfl Bool.false_ne_true.elim)

theorem confined_moduleCall : Confined (moduleCall k) false :=
  Confined.seq (.op rfl Bool.false_ne_true.elim) (.op rfl Bool.false_ne_true.elim)

/-- **The compiler's verdict is right** about all control through code. -/
theorem Builds.confined (h : Builds M held σ c f exits τ c') : Confined f exits := by
  induction h with
  | nil => exact .nil
  | plain h => exact .op (isJump_of_isPlain h) Bool.false_ne_true.elim
  | ret => exact .op rfl fun _ => rfl
  | literal | attributes => exact .op rfl Bool.false_ne_true.elim
  | load => exact .op (isJump_loadOp _) Bool.false_ne_true.elim
  | store _ hs => exact .op (isJump_of_storedBy hs) Bool.false_ne_true.elim
  | resolve _ _ ih => exact ih
  | define _ ih => exact ih
  | seq _ _ ihf ihg => exact ihf.seq ihg
  | forget _ ih => exact ih.forget
  | block _ ih => exact ih
  | skip _ _ ih => exact ih.skip
  | fork _ _ _ ihy ihn => exact ihy.fork ihn
  | loop _ _ _ iht ihb ihp => exact Confined.loop (fun _ => iht) ihb fun _ => ihp
  | exit => exact .exit _
  | function => exact confined_functionCode
  | imported | module => exact confined_moduleCall

/-- A function ends in a return, whether or not the compiler left one out. -/
theorem Builds.confined_returning (h : Builds M held σ c f exits τ c') : Confined (returning exits f) true := by
  cases exits with
  | true => exact h.confined
  | false => exact h.confined.seq (.op rfl fun _ => rfl)

theorem Assembled.not_mem_holes (h : Assembled f code) : o ∉ f.holes e 0 := by
  rw [holes_eq_nil_iff.mpr (h.closed e)]
  exact not_mem_nil

/-- Assembled code that exits never runs off its end. -/
theorem Assembled.ends (h : Assembled f code) (hf : Confined f true) : Ends code := by
  have hno : ¬Way code (fun _ => False) 0 (0 + f.size) := hf.no_way h.laid fun e j hj => h.not_mem_holes hj
  rwa [Nat.zero_add, ← h.size] at hno

/-- Its jumps lead to instructions: there is nowhere else for control to go. -/
theorem Assembled.jumpsLand (h : Assembled f code) (hf : Confined f true) : JumpsLand code := by
  intro p hp hj
  obtain ⟨hop, hoperands⟩ := read_of_mem_decodeFrom hp hj
  have hoffsets : (decode code).map Prod.fst = f.starts 0 := by
    rw [h.decode_eq, map_fst_located h.fits]
  have hin : p.1 ∈ f.starts 0 := hoffsets ▸ mem_map_of_mem hp
  rcases hf.flows code 0 open₀ h.laid p.1 hin _ (.jump hop hj) with hto | ⟨he, -⟩ | ⟨e, he, -⟩
  · rw [← hoffsets, mem_map] at hto
    obtain ⟨q, hq, heq⟩ := hto
    exact ⟨q, hq, by rw [hoperands, heq]⟩
  · cases he
  · exact absurd he h.not_mem_holes

/-- **A function never runs off its end**, whether or not the return at the end was left out. -/
theorem Builds.ends (h : Builds M held σ c f exits τ c') (ha : Assembled (returning exits f) code) : Ends code :=
  ha.ends h.confined_returning

/-- **Every jump of a function leads to an instruction.** -/
theorem Builds.jumpsLand (h : Builds M held σ c f exits τ c') (ha : Assembled (returning exits f) code) :
    JumpsLand code :=
  ha.jumpsLand h.confined_returning

end Generator

end Scripting
