import Scripting.Proofs.Compile.Emission
/-!
# `Proofs.Compile.Layout` — the code of the constructs with jumps

Each construct writes its jumps before their targets are known and patches them once they are. The
lemmas here say that what it has written in the end is one fragment built from the fragments of its
parts: `skip` for short-circuit operators and branches without `else`, `fork` for conditionals and
branches with `else`, `loop` for both kinds of loop.

The lemmas on states (`skip_writes`, `fork_writes`, `loop_writes`) follow the bytes through the
patches; the lemmas on steps (`Emits.conditional`, `Emits.branch`, `Emits.rounds`, …) say what the
construct emits if its parts do.
-/

namespace Scripting

namespace Generator

open Code Fragment Instruction List

variable {g g1 g' : Generator} {pos : Pos} {u : Unit} {code : Bytes} {before after : List UInt8} {op : Opcode}
  {target start n : Nat} {tested back : Bool} {jump : Option Nat}

/-! ## States that differ in code alone -/

/-- `g'` differs from `g` in its code alone. -/
structure Recoded (g g' : Generator) : Prop where
  loops : g'.scope.loops = g.scope.loops
  outer : g'.outer = g.outer
  unitDepth : g'.unitDepth = g.unitDepth
  importing : g'.importing = g.importing
  context : g'.context = g.context
  errors : g'.errors = g.errors

theorem Recoded.keeps (h : Recoded g g') : Keeps g g' where
  importing := h.importing
  modules name _ := congrArg (fun c : Context => c.modules.get? name) h.context

theorem Recoded.trans (h : Recoded g g1) (h' : Recoded g1 g') : Recoded g g' :=
  ⟨h'.loops.trans h.loops, h'.outer.trans h.outer, h'.unitDepth.trans h.unitDepth, h'.importing.trans h.importing,
    h'.context.trans h.context, h'.errors.trans h.errors⟩

theorem patchJump_ok {jump : Nat} (h : patchJump pos jump target g = .ok u g') :
    target ≤ maxOperand 2 ∧ Recoded g g' ∧ g'.scope.code = patchU16 g.scope.code (jump + 1) target := by
  unfold patchJump at h
  by_cases hlt : maxOperand 2 < target
  · rw [if_pos hlt] at h; cases h
  · rw [if_neg hlt] at h
    cases h
    exact ⟨Nat.not_lt.mp hlt, ⟨rfl, rfl, rfl, rfl, rfl, rfl⟩, rfl⟩

theorem patchHere_ok {jump : Nat} (h : patchHere pos jump g = .ok u g') :
    g.scope.code.size ≤ maxOperand 2 ∧ Recoded g g' ∧
      g'.scope.code = patchU16 g.scope.code (jump + 1) g.scope.code.size := by
  obtain ⟨n, g1, hn, hp⟩ := bind_ok h
  cases hn
  exact patchJump_ok hp

theorem forM_patchJump_ok : ∀ {jumps : List Nat} {g g' : Generator} {u : Unit},
    jumps.forM (fun j => patchJump pos j target) g = .ok u g' → (jumps ≠ [] → target ≤ maxOperand 2) ∧ Recoded g g' ∧
        g'.scope.code = patchAll g.scope.code jumps target
  | [], g, g', u, h => by
    cases h
    exact ⟨fun h => absurd rfl h, ⟨rfl, rfl, rfl, rfl, rfl, rfl⟩, rfl⟩
  | j :: js, g, g', u, h => by
    obtain ⟨_, g1, h1, h2⟩ := bind_ok h
    obtain ⟨hle, r1, hc1⟩ := patchJump_ok h1
    obtain ⟨-, r2, hc2⟩ := forM_patchJump_ok h2
    refine ⟨fun _ => hle, r1.trans r2, ?_⟩
    rw [hc2, hc1]; rfl

theorem emit_jump_ok (hop : op.widths = [2]) (h : emit pos op [target] g = .ok n g') :
    n = g.scope.code.size ∧ target ≤ maxOperand 2 ∧ Recoded g g' ∧
      g'.scope.code.toList = g.scope.code.toList ++ assemble ⟨op, [target]⟩ := by
  obtain ⟨hn, hfit, positions, rfl⟩ := emit_ok h
  refine ⟨hn, hfit (2, target) (by simp [hop]), ⟨rfl, rfl, rfl, rfl, rfl, rfl⟩, by simp⟩

theorem fits_jump (hop : op.widths = [2]) (h : target ≤ maxOperand 2) : Fits ⟨op, [target]⟩ :=
  ⟨by rw [hop]; rfl, by simpa [hop] using h⟩

/-! ## Jumps over a body -/

variable {g2 g3 g4 g5 g6 : Generator} {a b f yes no : Fragment} {j j' s done next : Nat} {v : Unit} {α β : Type}
  {kind : SkipKind} {other : Gen Bool} {toEnd : Option Nat} {jumps : PendingJumps} {L : Law}

/-- **A jump in what has been written gets its target.** -/
theorem Writes.patch {o : Opcode} {k l : List Instruction} (h : Writes g a g1) (hj : o.widths = [2])
    (hp : patchHere pos j g1 = .ok u g2) (hjump : j = g.scope.code.size + (assembleAll k).length)
    (ha : a.code g.scope.code.size open₀ = k ++ ⟨o, [0]⟩ :: l)
    (hb : b.code g.scope.code.size open₀ = k ++ ⟨o, [g.scope.code.size + a.size]⟩ :: l)
    (hholes : ∀ e s, b.holes e s = a.holes e s) (hleaves : ∀ e, b.leaves e = a.leaves e) :
    Writes g b g2 ∧ Recoded g1 g2 := by
  obtain ⟨hle, r, hc⟩ := patchHere_ok hp
  have hcode : g1.scope.code.toList = (g.scope.code.toList ++ assembleAll k) ++
      (assemble ⟨o, [0]⟩ ++ assembleAll l) := by
    rw [h.code, bytes, ha]
    simp
  have hlen : j = (g.scope.code.toList ++ assembleAll k).length := by simp [hjump]
  refine ⟨⟨?_, ?_, ?_, ?_, r.outer.trans h.outer, r.unitDepth.trans h.unitDepth, h.keeps.trans r.keeps⟩, r⟩
  · rw [hc, hlen]
    refine ((patchedTo_jump hj 0).toList hcode).trans ?_
    rw [bytes, hb, h.size]
    simp
  · have hfits := h.fits
    rw [ha] at hfits
    rw [h.size] at hle
    rw [hb]
    simp only [forall_mem_append, forall_mem_cons] at hfits ⊢
    exact ⟨hfits.1, fits_jump hj hle, hfits.2.2⟩
  · rw [r.loops, h.loops]
    cases g.scope.loops <;> simp [addHoles, hholes]
  · intro hl e
    rw [hleaves]
    exact h.closed hl e

/-- **A conditional jump over a body.** -/
theorem skip_writes (he : emit pos kind.op [0] g = .ok j g1) (hw : Writes g1 f g2)
    (hp : patchHere pos j g2 = .ok u g3) :
    Writes g (.skip kind f) g3 ∧ g1.context = g.context ∧ g3.context = g2.context := by
  obtain ⟨hn, -⟩ := emit_ok he
  obtain ⟨hjump, hctx⟩ := emit_writes (by simp) he
  have hsize (n : Nat) : (assemble ⟨kind.op, [n]⟩).length = 3 := length_assemble_jump (widths_skip kind) n
  obtain ⟨hwrites, r⟩ := (hjump.trans hw).patch (b := .skip kind f) (k := []) (widths_skip kind) hp hn rfl
    (by simp [code, size, hsize, Nat.add_assoc]) (by simp [holes, size, hsize]) (by simp [leaves])
  exact ⟨hwrites, hctx, r.context⟩

/-- **Two arms, with a jump over the second** at the end of the first. -/
theorem fork_writes (he : emit pos .jumpFalsy [0] g = .ok j g1) (hy : Writes g1 yes g2)
    (he' : emit pos .jump [0] g2 = .ok j' g3) (hp : patchHere pos j g3 = .ok u g4)
    (hn : Writes g4 no g5) (hp' : patchHere pos j' g5 = .ok v g6) :
    Writes g (.fork yes true no) g6 ∧ g1.context = g.context ∧ g4.context = g2.context ∧ g6.context = g5.context := by
  have hf : emit pos SkipKind.falsy.op [0] g = .ok j g1 := he
  have hfalsy (n : Nat) : (assemble ⟨.jumpFalsy, [n]⟩).length = 3 := length_assemble_jump rfl n
  have hjump3 (n : Nat) : (assemble ⟨.jump, [n]⟩).length = 3 := length_assemble_jump rfl n
  obtain ⟨hj', -⟩ := emit_ok he'
  obtain ⟨hjump, hctx⟩ := emit_writes (by rfl) he'
  have hs1 := (emit_writes (by rfl) he).1.size
  obtain ⟨hskip, hctx1, hctx4⟩ := skip_writes hf (hy.trans hjump) hp
  have hlen := length_bytes yes (g.scope.code.size + 3) open₀
  unfold bytes at hlen
  -- the arms are in place, but for the jump between them
  refine And.imp_right (fun r => ⟨hctx1, hctx4.trans hctx, r.context⟩) ((hskip.trans hn).patch (o := .jump)
    (k := ⟨.jumpFalsy, [noStart yes true g.scope.code.size]⟩ :: yes.code (g.scope.code.size + 3) open₀)
    (l := no.code (noStart yes true g.scope.code.size) open₀) rfl hp' ?_ ?_ ?_ ?_ ?_)
  · rw [hj', hy.size, hs1]
    simp [size, hfalsy, hlen, Nat.add_assoc]
  · simp [code, size, hjump3, noStart, SkipKind.op, Nat.add_assoc]
  · simp [code, size, hjump3, noStart, Nat.add_assoc]
  · simp [holes, size, hjump3, noStart, Nat.add_assoc]
  · simp [leaves]

/-- **Two arms without a jump over the second**: the first never reaches its end. -/
theorem fork_fall_writes (he : emit pos .jumpFalsy [0] g = .ok j g1) (hy : Writes g1 yes g2)
    (hp : patchHere pos j g2 = .ok u g3) (hn : Writes g3 no g4) :
    Writes g (.fork yes false no) g4 ∧ g1.context = g.context ∧ g3.context = g2.context := by
  have hf : emit pos SkipKind.falsy.op [0] g = .ok j g1 := he
  obtain ⟨hw, hctx, hctx'⟩ := skip_writes hf hy hp
  have hs : g3.scope.code.size = noStart yes false g.scope.code.size := by
    rw [hw.size]; simp [size, noStart, Nat.add_assoc]
  have hseq := hw.trans hn
  have hsize : g.scope.code.size + size (.skip .falsy yes) = noStart yes false g.scope.code.size := by
    rw [← hw.size, hs]
  have hcode : code (.seq (.skip .falsy yes) no) g.scope.code.size open₀ =
      code (.fork yes false no) g.scope.code.size open₀ := by
    rw [code, hsize]; simp [code, SkipKind.op, noStart]
  refine ⟨⟨?_, ?_, ?_, ?_, hseq.outer, hseq.unitDepth, hseq.keeps⟩, hctx, hctx'⟩
  · rw [hseq.code, bytes, hcode]; rfl
  · rw [← hcode]; exact hseq.fits
  · rw [hseq.loops]
    cases g.scope.loops <;> simp [addHoles, holes, hsize]
  · intro hl e
    simpa [leaves] using hseq.closed hl e

/-! ## Loops -/

/-- The test of a loop and the jump to its end at `done`. -/
def testing (tested : Bool) (test : Fragment) (done : Nat) : Fragment :=
  if tested then .seq test (.op ⟨.jumpFalsy, [done]⟩) else .nil

/-- The code after the body of a loop and the jump to its start. -/
def closing (back : Bool) (post : Fragment) (start : Nat) : Fragment :=
  if back then .seq post (.op ⟨.jump, [start]⟩) else .nil

/-- The test of a loop was written, if the loop has one; its jump to the end is still open. -/
structure TestWritten (tested : Bool) (test : Fragment) (g : Generator) (jump : Option Nat) (g' : Generator) : Prop
    extends Writes g (testing tested test 0) g' where
  jump : jump.toList = if tested then [g.scope.code.size + test.size] else []

/-- The code after the body of a loop was written, if the loop goes back to its start. -/
abbrev BackWritten (back : Bool) (post : Fragment) (start : Nat) (g g' : Generator) : Prop :=
  Writes g (closing back post start) g'

theorem TestWritten.none (test : Fragment) (g : Generator) : TestWritten false test g none g := ⟨.idle rfl, rfl⟩

theorem TestWritten.some {test : Fragment} (hw : Writes g test g1)
    (he : emit pos .jumpFalsy [0] g1 = .ok j g2) : TestWritten true test g (some j) g2 :=
  ⟨hw.trans (emit_writes (by rfl) he).1, by rw [(emit_ok he).1, hw.size]; rfl⟩

theorem BackWritten.none (post : Fragment) (start : Nat) (g : Generator) : BackWritten false post start g g :=
  .idle rfl

theorem BackWritten.some {post : Fragment} (hw : Writes g post g1)
    (he : emit pos .jump [start] g1 = .ok n g2) : BackWritten true post start g g2 :=
  hw.trans (emit_writes (by rfl) he).1

theorem size_testing {test : Fragment} : s + (testing tested test done).size = bodyStart tested test s := by
  cases tested <;> simp [testing, bodyStart, size, @length_assemble_jump .jumpFalsy rfl]

theorem TestWritten.bodyAt {test : Fragment} (h : TestWritten tested test g jump g1) :
    g1.scope.code.size = bodyStart tested test g.scope.code.size := h.size.trans size_testing

theorem size_closing {post : Fragment} : (closing back post start).size = if back then post.size + 3 else 0 := by
  cases back <;> simp [closing, size, @length_assemble_jump .jump rfl]

theorem loop_code {test body post : Fragment} : Fragment.code (.loop tested test body back post) s open₀ =
      (testing tested test (loopEnd tested test body back post s)).code s open₀ ++
        (body.code (bodyStart tested test s) (targets (loopEnd tested test body back post s)
          (bodyStart tested test s + body.size)) ++
        (closing back post s).code (bodyStart tested test s + body.size) open₀) := by
  cases tested <;> cases back <;> simp [code, testing, closing]

theorem retarget_targets : retarget (retarget open₀ .done done) .next next = targets done next := by
  funext e
  cases e <;> rfl

theorem patchedTo_testing {test : Fragment} : PatchedTo done s ((testing tested test 0).bytes s open₀)
    ((testing tested test done).bytes s open₀) (if tested then [s + test.size] else []) := by
  cases tested with
  | false => exact .same _
  | true =>
    simp only [testing, if_true, bytes, Fragment.code, assembleAll_append, assembleAll_cons, assembleAll_nil,
      append_nil]
    exact (patchedTo_jump rfl 0).after (by rw [length_assembleAll_code])

/-- **A loop.** `g1` is the state before the body, `g2` and `g3` the ones before and after the code that
follows the body, and `g4` and `g5` come after the patches. -/
theorem loop_writes {test body post : Fragment} (ht : TestWritten tested test g jump g1)
    (hb : Writes { g1 with scope := { g1.scope with loops := {} :: g1.scope.loops } } body g2)
    (hp : BackWritten back post g.scope.code.size
      { g2 with scope := { g2.scope with loops := g2.scope.loops.tail } } g3)
    (htest : jump.forM (fun j => patchJump pos j g3.scope.code.size) g3 = .ok u g4)
    (hbody : patchLoop pos (g2.scope.loops.headD {}) g2.scope.code.size g3.scope.code.size g4 = .ok v g5) :
    Writes g (.loop tested test body back post) g5 ∧ g5.context = g3.context := by
  have hs1 := ht.bodyAt
  have hs2 : g2.scope.code.size = bodyStart tested test g.scope.code.size + body.size := by
    rw [hb.size, ← hs1]
  have hs3 : g3.scope.code.size = loopEnd tested test body back post g.scope.code.size := by
    rw [hp.size, size_closing]; simp only [hs2]; rfl
  have hloops2 : g2.scope.loops = ⟨body.holes .next g1.scope.code.size, body.holes .done g1.scope.code.size⟩ ::
        g1.scope.loops := by
    rw [hb.loops]; simp [addHoles]
  -- the code before the patches
  have hcode3 : g3.scope.code.toList = g.scope.code.toList ++ ((testing tested test 0).bytes g.scope.code.size open₀ ++
      (body.bytes (bodyStart tested test g.scope.code.size) open₀ ++
      (closing back post g.scope.code.size).bytes (bodyStart tested test g.scope.code.size + body.size) open₀)) := by
    rw [hp.code]
    simp only [hs2]
    rw [hb.code]
    simp only [ht.code, hs1, append_assoc]
  -- the jump from the test
  have htest' : jump.toList.forM (fun j => patchJump pos j g3.scope.code.size) g3 = .ok u g4 := by
    cases jump <;> simpa using htest
  obtain ⟨hle, r4, hc4⟩ := forM_patchJump_ok htest'
  rw [ht.jump] at hle hc4
  have hcode4 := patchedTo_testing.toList (v := g3.scope.code.size) hcode3
  rw [Array.length_toList, ← hc4] at hcode4
  -- the jumps out of the body
  obtain ⟨_, g', hbreaks, hcontinues⟩ := bind_ok hbody
  obtain ⟨hled, r', hc'⟩ := forM_patchJump_ok hbreaks
  obtain ⟨hlen, r5, hc5⟩ := forM_patchJump_ok hcontinues
  simp only [hloops2, headD_cons] at hc' hc5 hled hlen
  have hstart : g1.scope.code.size = (g.scope.code.toList ++
      (testing tested test g3.scope.code.size).bytes g.scope.code.size open₀).length := by
    rw [hs1, length_append, length_bytes]
    exact size_testing.symm
  rw [← append_assoc, ← hs1, hstart] at hcode4
  have hcode5 := (patchedTo_holes .next g2.scope.code.size body _ _).toList
    ((patchedTo_holes .done g3.scope.code.size body _ _).toList hcode4)
  rw [← hstart, ← hc', ← hc5, retarget_targets, append_assoc, hs1] at hcode5
  refine ⟨⟨?_, ?_, ?_, ?_, ?_, ?_, ?_⟩, ?_⟩
  · rw [hcode5, hs3, hs2]
    simp [bytes, loop_code]
  · have hfb : ∀ i ∈ body.code (bodyStart tested test g.scope.code.size)
        (targets (loopEnd tested test body back post g.scope.code.size)
          (bodyStart tested test g.scope.code.size + body.size)), i.Fits := by
      rw [← retarget_targets, ← hs3, ← hs2, ← hs1]
      refine fits_retarget body (fun hl => hlen ?_) (fits_retarget body (fun hl => hled ?_) hb.fits)
      · exact fun h => Bool.eq_false_iff.mp (holes_eq_nil_iff.mp h) hl
      · exact fun h => Bool.eq_false_iff.mp (holes_eq_nil_iff.mp h) hl
    have hfp := hp.fits
    simp only [hs2] at hfp
    simp only [loop_code, forall_mem_append]
    refine ⟨?_, hfb, hfp⟩
    have hft := ht.fits
    cases tested with
    | false => exact hft
    | true =>
      simp only [testing, code, if_true, forall_mem_append, forall_mem_singleton] at hft ⊢
      exact ⟨hft.1, fits_jump rfl (hs3 ▸ hle (cons_ne_nil _ _))⟩
  · rw [r5.loops, r'.loops, r4.loops, hp.loops]
    simp only [hloops2, hs2]
    rw [ht.loops]
    cases tested <;> cases back <;> cases g.scope.loops <;> simp [testing, closing, addHoles, holes]
  · intro hl e
    have hl1 : g1.scope.loops = [] := by rw [ht.loops, hl]; rfl
    have hl2 : g2.scope.loops.tail = [] := by rw [hloops2]; exact hl1
    have h1 := ht.closed hl e
    have h2 := hp.closed hl2 e
    cases tested <;> cases back <;> simp_all [testing, closing, leaves]
  · rw [r5.outer, r'.outer, r4.outer, hp.outer]; exact hb.outer.trans ht.outer
  · rw [r5.unitDepth, r'.unitDepth, r4.unitDepth, hp.unitDepth]; exact hb.unitDepth.trans ht.unitDepth
  · have hb' : Keeps g1 g2 := ⟨hb.keeps.importing, hb.keeps.modules⟩
    have hp' : Keeps g2 g3 := ⟨hp.keeps.importing, hp.keeps.modules⟩
    exact ((((ht.keeps.trans hb').trans hp').trans r4.keeps).trans r'.keeps).trans r5.keeps
  · rw [r5.context, r'.context, r4.context]

/-! ## What the constructs emit -/

theorem Emits.skip {x : Gen α} {P : Context → α → Context → Fragment → Prop} (hx : Emits x P) (z : β)
    {R : Context → β → Context → Fragment → Prop} (h : ∀ c a c1 f, P c a c1 f → R c z c1 (.skip kind f)) :
    Emits (emit pos kind.op [0] >>= fun j => x >>= fun _ => patchHere pos j >>= fun _ => Pure.pure z) R where
  growing := (Obeys.emit _ _ _).bind fun _ => hx.growing.bind fun _ =>
    (Obeys.patchHere _ _).bind fun _ => Obeys.pure _
  writes g a g' hr hc := by
    obtain ⟨j, g1, he, hr⟩ := bind_ok hr
    obtain ⟨a, g2, hx', hr⟩ := bind_ok hr
    obtain ⟨_, g3, hp, hr⟩ := bind_ok hr
    cases hr
    obtain ⟨f, hwf, hpf⟩ := hx.writes _ _ _ hx' ((Obeys.patchHere _ _).clean hp hc)
    obtain ⟨hw, e1, e'⟩ := skip_writes he hwf hp
    exact ⟨_, hw, e' ▸ h _ _ _ _ (e1 ▸ hpf)⟩

section

variable {Pi Pt : Context → Unit → Context → Fragment → Prop} {init test : Gen Unit}
  {Pb Po R : Context → Bool → Context → Fragment → Prop} {body : Gen Bool}

def arms (pos : Pos) (body : Gen Bool) (other : Option (Gen Bool)) : Gen Bool := do
  let toOther ← emit pos .jumpFalsy [0]
  let exits ← body
  match other with
  | none =>
    patchHere pos toOther
    return false
  | some other =>
    let toEnd ← if exits then pure none else some <$> emit pos .jump [0]
    patchHere pos toOther
    let otherExits ← other
    toEnd.forM (patchHere pos)
    return exits && otherExits

theorem Emits.arms_none (hb : Emits body Pb)
    (h : ∀ c exits c1 b, Pb c exits c1 b → R c false c1 (.skip .falsy b)) : Emits (arms pos body none) R :=
  hb.skip false h

theorem arms_some_eq (pos : Pos) (body other : Gen Bool) :
    arms pos body (some other) = emit pos .jumpFalsy [0] >>= fun toOther => body >>= fun exits =>
      (if exits then pure none else some <$> emit pos .jump [0]) >>= fun toEnd =>
      patchHere pos toOther >>= fun _ => other >>= fun otherExits =>
      toEnd.forM (patchHere pos) >>= fun _ => pure (exits && otherExits) := by
  unfold arms
  congr; funext toOther; congr; funext exits
  cases exits <;> rfl

theorem conditional_eq_arms (pos : Pos) (test yes no : Gen Unit) : conditional pos test yes no = test >>= fun _ =>
    discard (arms pos (yes >>= fun _ => pure false) (some (no >>= fun _ => pure false))) := by
  have hdiscard (x : Gen Bool) : discard x = x >>= fun _ => pure () := by
    rfl
  simp [conditional, arms_some_eq, hdiscard]

theorem Obeys.arms_some (hb : Obeys L body) (ho : Obeys L other) : Obeys L (arms pos body (some other)) := by
  rw [arms_some_eq]
  exact (emit _ _ _).bind fun _ => hb.bind fun _ =>
    (ite (pure _) (emit _ _ _).map).bind fun _ => (patchHere _ _).bind fun _ =>
    ho.bind fun _ => (option_forM (fun _ => patchHere _ _) _).bind fun _ => pure _

theorem arms_some_ok {x : Bool} (ho : Growing other) (h : arms pos body (some other) g = .ok x g') (hc : Clean g') :
    ∃ j g1 exits g2 toEnd g3 g4 exits' g5, emit pos .jumpFalsy [0] g = .ok j g1 ∧ body g1 = .ok exits g2 ∧ Clean g2 ∧
      (if exits then pure none else some <$> emit pos .jump [0] : Gen (Option Nat)) g2 = .ok toEnd g3 ∧
      patchHere pos j g3 = .ok () g4 ∧ other g4 = .ok exits' g5 ∧ Clean g5 ∧
      toEnd.forM (patchHere pos) g5 = .ok () g' ∧ x = (exits && exits') := by
  rw [arms_some_eq] at h
  obtain ⟨j, g1, he, h⟩ := bind_ok h
  obtain ⟨exits, g2, hb, h⟩ := bind_ok h
  obtain ⟨toEnd, g3, hend, h⟩ := bind_ok h
  obtain ⟨_, g4, hp, h⟩ := bind_ok h
  obtain ⟨exits', g5, ho', h⟩ := bind_ok h
  obtain ⟨_, g6, hp', h⟩ := bind_ok h
  cases h
  have hc5 : Clean g5 := (Obeys.option_forM (fun _ => Obeys.patchHere _ _) _).clean hp' hc
  have hc3 : Clean g3 := (Obeys.patchHere _ _).clean hp (ho.clean ho' hc5)
  exact ⟨j, g1, exits, g2, toEnd, g3, g4, exits', g5, he, hb,
    (Obeys.ite (Obeys.pure _) (Obeys.emit _ _ _).map).clean hend hc3, hend, hp, ho', hc5, hp', rfl⟩

/-- **Two arms.** There is no jump over the second if the first exits. -/
theorem arms_writes {exits : Bool} (he : emit pos .jumpFalsy [0] g = .ok j g1) (hy : Writes g1 yes g2)
    (hend : (if exits then pure none else some <$> emit pos .jump [0] : Gen (Option Nat)) g2 = .ok toEnd g3)
    (hp : patchHere pos j g3 = .ok u g4) (hn : Writes g4 no g5) (hp' : toEnd.forM (patchHere pos) g5 = .ok v g6) :
    Writes g (.fork yes (!exits) no) g6 ∧ g1.context = g.context ∧ g4.context = g2.context ∧
      g6.context = g5.context := by
  cases exits with
  | true =>
    cases hend
    cases hp'
    obtain ⟨hw, e1, e4⟩ := fork_fall_writes he hy hp hn
    exact ⟨hw, e1, e4, rfl⟩
  | false =>
    rw [← bind_pure_comp] at hend
    obtain ⟨j', g3', hend, hr⟩ := bind_ok hend
    cases hr
    exact fork_writes he hy hend hp hn hp'

theorem Emits.arms_some (hb : Emits body Pb) (ho : Emits other Po)
    (h : ∀ c exits c1 exits' c2 b o, Pb c exits c1 b → Po c1 exits' c2 o →
      R c (exits && exits') c2 (.fork b (!exits) o)) :
    Emits (arms pos body (some other)) R where
  growing := Obeys.arms_some hb.growing ho.growing
  writes g a g' hr hc := by
    obtain ⟨j, g1, exits, g2, toEnd, g3, g4, exits', g5, he, hb', hc2, hend, hp, ho', hc5, hp', rfl⟩ :=
      arms_some_ok ho.growing hr hc
    obtain ⟨b, hwb, hpb⟩ := hb.writes _ _ _ hb' hc2
    obtain ⟨o, hwo, hpo⟩ := ho.writes _ _ _ ho' hc5
    obtain ⟨hw, e1, e4, e6⟩ := arms_writes he hwb hend hp hwo hp'
    exact ⟨_, hw, e6 ▸ h _ _ _ _ _ _ _ (e1 ▸ hpb) (e4 ▸ hpo)⟩

section

variable {Py Pn R : Context → Unit → Context → Fragment → Prop} {yes no : Gen Unit}

theorem Emits.conditional (ht : Emits test Pt) (hy : Emits yes Py) (hn : Emits no Pn)
    (h : ∀ c c1 c2 c3 t y n, Pt c () c1 t → Py c1 () c2 y → Pn c2 () c3 n →
      R c () c3 (.seq t (.fork y true n))) : Emits (conditional pos test yes no) R := by
  have reaches {x : Gen Unit} {P : Context → Unit → Context → Fragment → Prop} (hx : Emits x P) :
      Emits (x >>= fun _ => Pure.pure false) fun c exits c1 f => exits = false ∧ P c () c1 f := by
    refine hx.silent_bind (Q := fun _ c exits c' => exits = false ∧ c' = c)
      (fun _ => .pure false fun _ => ⟨rfl, rfl, rfl⟩) ?_
    rintro c _ c1 _ _ f hp ⟨rfl, rfl⟩
    exact ⟨rfl, hp⟩
  rw [conditional_eq_arms]
  refine ht.bind (Q := fun _ c1 _ c3 f => ∀ c t, Pt c () c1 t → R c () c3 (.seq t f))
    (fun _ => .discard (.arms_some (reaches hy) (reaches hn) ?_) fun _ _ _ _ hr => hr)
    fun c _ c1 _ c3 t _ hpt hr => hr c t hpt
  rintro c1 _ c2 _ c3 y n ⟨rfl, hpy⟩ ⟨-, hpn⟩ c t hpt
  exact h _ _ _ _ _ _ _ hpt hpy hpn

theorem Emits.shortCircuit (ht : Emits test Pt) (hy : Emits yes Py)
    (h : ∀ c c1 c2 t y, Pt c () c1 t → Py c1 () c2 y → R c () c2 (.seq t (.skip kind y))) :
    Emits (shortCircuit pos kind.op test yes) R := by
  refine ht.bind (Q := fun _ c1 _ c2 f => ∀ c t, Pt c () c1 t → R c () c2 (.seq t f)) (fun _ => ?_)
    fun c _ c1 _ c2 t _ hpt hr => hr c t hpt
  simpa using hy.skip () fun c1 _ c2 y hpy c t hpt => h c c1 c2 t y hpt hpy

end

theorem branch_eq (pos : Pos) (init test : Gen Unit) (body : Gen Bool) (other : Option (Gen Bool)) :
    branch pos init test body other = inBlock (do init; test; arms pos (inBlock body) other) := rfl

end

/-! ## What loops emit -/

/-- The code that leads from the end of the body of a loop back to its start. -/
def wayBack (pos : Pos) (start : Nat) (post : Gen Unit) (back : Bool) : Gen Unit :=
  if back then do
    post
    emit_ pos .jump [start]
  else pure ()

def looping (g : Generator) : Generator := { g with scope := { g.scope with loops := {} :: g.scope.loops } }

def looped (g : Generator) : Generator := { g with scope := { g.scope with loops := g.scope.loops.tail } }

theorem inLoop_ok {step : Gen α} {r : α × PendingJumps} (h : inLoop step g = .ok r g') :
    ∃ g1, step g.looping = .ok r.1 g1 ∧ r.2 = g1.scope.loops.headD {} ∧ g' = g1.looped := by
  unfold inLoop at h
  unfold looping
  cases hx : step { g with scope := { g.scope with loops := {} :: g.scope.loops } } with
  | ok b g1 =>
    rw [hx] at h
    cases h
    exact ⟨g1, rfl, rfl, rfl⟩
  | error e g1 => rw [hx] at h; cases h

theorem loops_of_body (h : Writes g.looping f g') : g'.scope.loops =
    ⟨f.holes .next g.scope.code.size, f.holes .done g.scope.code.size⟩ :: g.scope.loops := by
  rw [h.loops]
  simp [looping, addHoles]

theorem isEmpty_holes (f : Fragment) (e : Exit) (s : Nat) : (f.holes e s).isEmpty = !f.leaves e := by
  rw [Bool.eq_iff_iff, List.isEmpty_iff, holes_eq_nil_iff]
  simp

/-- The jumps out of the test and the body of a loop get their targets. -/
def patchRounds (pos : Pos) (toEnd : Option Nat) (jumps : PendingJumps) (next : Nat) : Gen Unit := do
  let done ← here
  toEnd.forM fun jump => patchJump pos jump done
  patchLoop pos jumps next done

theorem Obeys.patchRounds : Obeys L (patchRounds pos toEnd jumps next) :=
  here.bind fun _ => (option_forM (fun _ => patchJump _ _ _) _).bind fun _ => patchLoop _ _ _ _

/-- The rounds of a loop: the part that both kinds of loop share. -/
def rounds (pos : Pos) (test : Option (Gen Unit)) (post : Gen Unit) (body : Gen Bool) : Gen PendingJumps := do
  let start ← here
  let toEnd ← test.mapM fun test => do
    test
    emit pos .jumpFalsy [0]
  let (exits, jumps) ← inLoop body
  let next ← here
  wayBack pos start post (!exits || !jumps.continues.isEmpty)
  patchRounds pos toEnd jumps next
  return jumps

theorem ite_bind {p : Prop} [Decidable p] (x y : Gen α) (k : α → Gen β) :
    ((if p then x else y) >>= k) = if p then x >>= k else y >>= k := by
  split <;> rfl

theorem map_ite {p : Prop} [Decidable p] (h : α → β) (x y : Gen α) :
    (h <$> if p then x else y) = if p then h <$> x else h <$> y := by
  split <;> rfl

theorem loop_eq (pos : Pos) (init : Gen Unit) (test : Option (Gen Unit)) (post : Gen Unit) (body : Gen Bool) :
    loop pos init test post body = inBlock (do
      init
      let jumps ← rounds pos test post (inBlock body)
      return test.isNone && jumps.breaks.isEmpty) := by
  simp [loop, rounds, wayBack, patchRounds, ite_bind, map_ite]

/-- The start of a loop over the elements of a value: its iterator is kept in a variable. -/
def startIteration (pos : Pos) : Gen Symbol := do
  emit_ pos .iterInit
  let iterator ← define iteratorName
  emitDefine pos iterator
  return iterator

/-- The test of a loop over the elements of a value. -/
def nextIteration (pos : Pos) (iterator : Symbol) : Gen Unit := do
  emitLoad pos iterator
  emit_ pos .iterNext

/-- The variables of a loop over the elements of a value get their values for this round. -/
def bindRound (pos : Pos) (iterator : Symbol) (key : String) (value : Option String) : Gen Unit := do
  bindIteration pos iterator .iterKey key
  value.forM (bindIteration pos iterator .iterValue)

theorem forIn_eq (pos : Pos) (key : String) (value : Option String) (iterable : Gen Unit) (body : Gen Bool) :
    Generator.forIn pos key value iterable body = inBlock (iterable >>= fun _ => startIteration pos >>= fun iterator =>
      rounds pos (some (nextIteration pos iterator)) (pure ())
        (bindRound pos iterator key value >>= fun _ => inBlock body) >>= fun _ => pure false) := by
  simp [Generator.forIn, rounds, wayBack, patchRounds, ite_bind, map_ite, startIteration, nextIteration, bindRound]

theorem startIteration_bind (k : Symbol → Gen α) : startIteration pos >>= k = emit_ pos .iterInit >>= fun _ =>
    define iteratorName >>= fun iterator => emitDefine pos iterator >>= fun _ => k iterator := by
  simp [startIteration]

section

variable {Pt Pp : Context → Unit → Context → Fragment → Prop} {test : Option (Gen Unit)}
  {post : Gen Unit} {Pb : Context → Bool → Context → Fragment → Prop} {body : Gen Bool}

theorem Obeys.wayBack (hp : Obeys L post) : Obeys L (wayBack pos start post back) :=
  ite (hp.bind fun _ => emit_ _ _ _) (pure _)

theorem wayBack_writes (hp : Emits post Pp) (h : wayBack pos start post back g = .ok u g1) (hc : Clean g1) :
    ∃ f, BackWritten back f start g g1 ∧
      (if back then Pp g.context () g1.context f else g1.context = g.context ∧ f = .nil) := by
  cases back with
  | false => cases h; exact ⟨.nil, BackWritten.none .., rfl, rfl⟩
  | true =>
    obtain ⟨_, g2, hpost, hjump⟩ := bind_ok h
    obtain ⟨n, he⟩ := discard_ok hjump
    obtain ⟨f, hw, hpp⟩ := hp.writes _ _ _ hpost ((Obeys.emit _ _ _).clean he hc)
    have hctx : g1.context = g2.context := (emit_jump_ok rfl he).2.2.1.context
    exact ⟨f, BackWritten.some hw he, hctx ▸ hpp⟩

/-- The test of a loop with its jump to the end, if the loop has one. -/
def testJump (pos : Pos) (test : Option (Gen Unit)) : Gen (Option Nat) := test.mapM fun test => do
    test
    emit pos .jumpFalsy [0]

theorem Obeys.testJump (ht : ∀ x, test = some x → Obeys L x) : Obeys L (testJump pos test) := by
  cases test with
  | none => exact pure none
  | some t => exact ((ht t rfl).bind fun _ => emit _ _ _).map

theorem testJump_writes (ht : ∀ x, test = some x → Emits x Pt) (h : testJump pos test g = .ok jump g1)
    (hc : Clean g1) :
    ∃ f, TestWritten test.isSome f g jump g1 ∧
      (if test.isSome then Pt g.context () g1.context f else g1.context = g.context ∧ f = .nil) := by
  cases test with
  | none => cases h; exact ⟨.nil, TestWritten.none .., rfl, rfl⟩
  | some t =>
    have h' : (some <$> (t >>= fun _ => emit pos .jumpFalsy [0])) g = .ok jump g1 := h
    obtain ⟨j, g2, h', hj⟩ := bind_ok h'
    cases hj
    obtain ⟨_, g3, htest, he⟩ := bind_ok h'
    obtain ⟨f, hw, hpt⟩ := (ht t rfl).writes _ _ _ htest ((Obeys.emit _ _ _).clean he hc)
    have hctx : g1.context = g3.context := (emit_jump_ok rfl he).2.2.1.context
    exact ⟨f, TestWritten.some hw he, hctx ▸ hpt⟩

theorem Obeys.rounds (ht : ∀ x, test = some x → Obeys L x) (hb : Obeys L (inLoop body)) (hp : Obeys L post) :
    Obeys L (rounds pos test post body) :=
  here.bind fun _ => (testJump ht).bind fun _ => hb.bind fun _ => here.bind fun _ =>
    hp.wayBack.bind fun _ => patchRounds.bind fun _ => pure _

theorem rounds_ok (hb : Growing body) (hp : Growing post) (h : rounds pos test post body g = .ok jumps g')
    (hc : Clean g') :
    ∃ jump g1 exits g2 g3 g4, testJump pos test g = .ok jump g1 ∧ Clean g1 ∧ body g1.looping = .ok exits g2 ∧ Clean g2 ∧
      jumps = g2.scope.loops.headD {} ∧
      wayBack pos g.scope.code.size post (!exits || !jumps.continues.isEmpty) g2.looped = .ok () g3 ∧ Clean g3 ∧
      jump.forM (fun j => patchJump pos j g3.scope.code.size) g3 = .ok () g4 ∧
      patchLoop pos jumps g2.scope.code.size g3.scope.code.size g4 = .ok () g' := by
  obtain ⟨_, _, hstart, h⟩ := bind_ok h
  cases hstart
  obtain ⟨jump, g1, htest, h⟩ := bind_ok h
  obtain ⟨⟨exits, jumps⟩, _, hbody, h⟩ := bind_ok h
  obtain ⟨g2, hx, rfl, rfl⟩ := inLoop_ok hbody
  obtain ⟨_, _, hnext, h⟩ := bind_ok h
  cases hnext
  obtain ⟨_, g3, hback, h⟩ := bind_ok h
  obtain ⟨_, _, hpatch, h⟩ := bind_ok h
  cases h
  have hc3 : Clean g3 := Obeys.patchRounds.clean hpatch hc
  obtain ⟨_, _, hdone, hpatch⟩ := bind_ok hpatch
  cases hdone
  obtain ⟨_, g4, hp4, hp5⟩ := bind_ok hpatch
  have hc2 := hp.wayBack.clean hback hc3
  exact ⟨jump, g1, exits, g2, g3, g4, htest, hb.inLoop.clean hbody hc2, hx, hc2, rfl, hback, hc3, hp4, hp5⟩

/-- **The rounds of a loop.** The jump back is left out if the body neither reaches its end nor goes on
to the next round. -/
theorem Emits.rounds {R : Context → PendingJumps → Context → Fragment → Prop}
    (ht : ∀ x, test = some x → Emits x Pt) (hb : Emits body Pb) (hp : Emits post Pp)
    (h : ∀ c c1 exits c2 c3 jumps t b p,
      (if test.isSome then Pt c () c1 t else c1 = c ∧ t = .nil) → Pb c1 exits c2 b →
      (if !exits || b.leaves .next then Pp c2 () c3 p else c3 = c2 ∧ p = .nil) →
      jumps.breaks.isEmpty = !b.leaves .done →
      R c jumps c3 (.loop test.isSome t b (!exits || b.leaves .next) p)) :
    Emits (rounds pos test post body) R where
  growing := Obeys.rounds (fun x hx => (ht x hx).growing) hb.growing.inLoop hp.growing
  writes g a g' hr hc := by
    obtain ⟨jump, g1, exits, g2, g3, g4, htest, hc1, hbody, hc2, rfl, hback, hc3, hp4, hp5⟩ :=
      rounds_ok hb.growing hp.growing hr hc
    obtain ⟨t, hwt, hpt⟩ := testJump_writes ht htest hc1
    obtain ⟨p, hwp, hpp⟩ := wayBack_writes hp hback hc3
    obtain ⟨b, hwb, hpb⟩ := hb.writes _ _ _ hbody hc2
    obtain ⟨hw, hctx⟩ := loop_writes hwt hwb hwp hp4 hp5
    have hloops := loops_of_body hwb
    simp only [hloops, headD_cons, isEmpty_holes, Bool.not_not] at hw hpp
    exact ⟨_, hw, hctx ▸ h _ _ _ _ _ _ _ _ _ hpt hpb hpp (by rw [hloops]; exact isEmpty_holes b .done _)⟩

end

end Generator

end Scripting
