import Scripting.Proofs.Compile.Separate
/-!
# `Proofs.Compile.Echo` — the constructs of a unit and of its draft

Each construct of the language is compiled by the same steps in a compilation and in the draft that goes with it
(`Echoes`). Instructions stand at the same offsets, and jumps lead to the same ones; constants have other numbers, and
the fragments are the same up to those numbers.

* **instructions** — `Echoes.emit_` for those that refer to no constant, `Tracks.emitNumbered` for those that do;
* **jumps** — a patch changes bytes alone, the same ones on both sides (`Patches`), so a construct with jumps goes with
  its draft if its parts do; what it has written follows from the layout of its fragment on both sides;
* **functions** — the code of a function literal is a fragment of its own (`enclosed_echo`).
-/

namespace Scripting

open Code Generator Fragment Echoes

variable {M : ModuleMap} {blank : SymbolTable} {Q : Series → Nat → Prop} {t t' : Trail} {g g' g1 : Generator}
variable {pos : Pos} {op : Opcode} {n : Nat} {u : Unit}

/-! ## Instructions -/

theorem emit_run (h : excess? op 0 op.widths operands = none) :
    emit pos op operands g = .ok g.scope.code.size { g with
      scope := { g.scope with
        code := g.scope.code ++ (Instruction.assemble { op, operands }).toArray
        positions := if pos.isKnown then g.scope.positions.insert g.scope.code.size pos else g.scope.positions } } := by
  unfold emit
  rw [h]
  rfl

theorem excess?_of_emit (h : emit pos op operands g = .ok n g') : excess? op 0 op.widths operands = none := by
  cases hx : excess? op 0 op.widths operands with
  | none => rfl
  | some p =>
    simp only [emit, hx] at h
    cases h

theorem excess?_of_le (h : excess? op i (w :: ws) (v :: vs) = none) (hle : v' ≤ v) :
    excess? op i (w :: ws) (v' :: vs) = none := by
  simp only [excess?] at h ⊢
  split at h
  · cases h
  · rename_i hmax
    rw [if_neg (by omega)]
    exact h

theorem Tracks.emit (ht : Tracks M blank Q t g) (h : emit pos op operands g = .ok n g')
    (hfit : excess? op 0 op.widths operands' = none)
    (hlen : (Instruction.assemble ⟨op, operands'⟩).length = (Instruction.assemble ⟨op, operands⟩).length) :
    ∃ t', Walks M blank Q (emit pos op operands') t g n t' g' := by
  rw [emit_run (excess?_of_emit h)] at h
  cases h
  have hrun : emit pos op operands' t.draft = _ := emit_run hfit
  rw [ht.size, ht.positions] at hrun
  refine ⟨{ t with draft := _ }, hrun, ⟨ht.follows, ?_, ht.depth, ht.constants, ht.clean⟩, .refl _, .refl _,
    fun _ => rfl⟩
  simp only [CodeScope.outline, Array.size_append, List.size_toArray, hlen, ht.size, ht.loops]

theorem Tracks.emitJump (ht : Tracks M blank Q t g) (h : Generator.emit pos op [0] g = .ok n g') :
    ∃ t', Walks M blank Q (Generator.emit pos op [0]) t g n t' g' := ht.emit h (excess?_of_emit h) rfl

theorem Walks.discard {y : Gen α} (h : Walks M blank Q y t g a t' g') :
    Walks M blank Q (Functor.discard y) t g () t' g' := by
  have hunit : Walks M blank Q (pure ()) t' g' () t' g' := h.tracks.stay rfl
  exact h.bind hunit

theorem Tracks.emit_ (ht : Tracks M blank Q t g) (h : emit_ pos op operands g = .ok u g')
    (hlen : operands.length = op.widths.length) (hlen' : operands'.length = op.widths.length)
    (hfit : excess? op 0 op.widths operands' = none)
    (hκ : ∀ κ, t.book.Numbers κ → Instruction.renumber κ ⟨op, operands'⟩ = ⟨op, operands⟩) :
    ∃ t', Repeats M blank Q (emit_ pos op operands') t g () t' g' := by
  obtain ⟨n, he⟩ := discard_ok h
  have hsize : (Instruction.assemble ⟨op, operands'⟩).length = (Instruction.assemble ⟨op, operands⟩).length := by
    rw [Instruction.length_assemble hlen', Instruction.length_assemble hlen]
  obtain ⟨t', hw⟩ := ht.emit he hfit hsize
  refine ⟨t', hw.discard, .op ⟨op, operands'⟩, (emit_writes hlen' hw.run).1, fun κ hnum => ?_⟩
  rw [Fragment.renumber, hκ κ (hnum.of_le hw.book)]
  exact (emit_writes hlen he).1

theorem Tracks.emitNumbered (ht : Tracks M blank Q t g) (h : Generator.emit_ pos op (k :: rest) g = .ok u g')
    (hop : op = .constant ∨ op = .closure) (hlen : (k :: rest).length = op.widths.length)
    (hj : (t.book .constants)[j]? = some k) (hle : j ≤ k) :
    ∃ t', Repeats M blank Q (Generator.emit_ pos op (j :: rest)) t g () t' g' := by
  obtain ⟨n, he⟩ := discard_ok h
  refine ht.emit_ h hlen hlen ?_ fun κ hκ => ?_
  · have hfit := excess?_of_emit he
    rcases hop with rfl | rfl
    · exact excess?_of_le hfit hle
    · exact excess?_of_le hfit hle
  · rcases hop with rfl | rfl
    · rw [Instruction.renumber, hκ hj]
    · rw [Instruction.renumber, hκ hj]

theorem Echoes.emit_ (hlen : operands.length = op.widths.length)
    (hκ : ∀ κ, Instruction.renumber κ ⟨op, operands⟩ = ⟨op, operands⟩) :
    Echoes M blank (emit_ pos op operands) (emit_ pos op operands) where
  growing := Obeys.emit_ pos op operands
  runs hr _ ht := by
    obtain ⟨n, he⟩ := discard_ok hr
    exact ht.emit_ hr hlen hlen (excess?_of_emit he) fun κ _ => hκ κ

/-! ## Constants -/

theorem Tracks.addConstant (ht : Tracks M blank Q t g) (hv : Counterpart M t.book g.modules v w) :
    ∃ t', Repeats M blank Q (addConstant v) t g t.draft.constants.size t'
      { g with constants := g.constants.push w } ∧
      (t'.book .constants)[t.draft.constants.size]? = some g.constants.size := by
  have hcount : t.draft.constants.size = (t.book .constants).size := by
    have hcount := ht.follows.realizes.count .constants
    simp only [Context.count, ModuleMap.offset, Nat.zero_add] at hcount
    exact hcount
  refine ⟨{ t with
    draft := { t.draft with constants := t.draft.constants.push v }
    book := t.book.note .constants g.constants.size }, ht.copies rfl (ht.follows.withConstant hv) (t.book.le_note _ _)
    ⟨g.context.le_withConstant w, id⟩ (fun _ => rfl) (.idle rfl) (.idle rfl) rfl rfl ?_ ht.clean, ?_⟩
  · have hsize := ht.constants
    simp only [Array.size_push]
    omega
  · rw [hcount]
    exact t.book.note_self _ _

theorem Tracks.emitConstant (ht : Tracks M blank Q t g) (hv : Counterpart M t.book g.modules v w)
    (h : emitConstant pos w g = .ok u g') : ∃ t', Repeats M blank Q (emitConstant pos v) t g () t' g' := by
  obtain ⟨k, g1, hadd, hemit⟩ := bind_ok h
  cases hadd
  obtain ⟨t1, radd, hnote⟩ := ht.addConstant hv
  obtain ⟨t2, remit⟩ := radd.tracks.emitNumbered hemit (.inl rfl) rfl hnote ht.constants
  exact ⟨t2, radd.bind remit⟩

theorem Obeys.emitConstant (v : Value) : Growing (emitConstant pos v) := (Emits.emitConstant pos v).growing

theorem Echoes.literal (h : v.isLiteral = true) : Echoes M blank (emitConstant pos v) (emitConstant pos v) where
  growing := Obeys.emitConstant v
  runs hr _ ht := ht.emitConstant (.literal h) hr

/-! ## Variables -/

theorem Echoes.emitLoad (sym : Symbol) : Echoes M blank (emitLoad pos sym) (emitLoad pos sym) := by
  unfold Generator.emitLoad
  cases sym.kind with
  | globalVar => exact emit_ rfl fun _ => rfl
  | localVar => exact emit_ rfl fun _ => rfl
  | captured => exact emit_ rfl fun _ => rfl
  | builtin => exact emit_ rfl fun _ => rfl
  | self => exact emit_ rfl fun _ => rfl

theorem Echoes.emitStore (operator : Operator) (sym : Symbol) (n : Nat) :
    Echoes M blank (emitStore pos operator sym n) (emitStore pos operator sym n) := by
  unfold Generator.emitStore
  split
  · exact emit_ rfl fun _ => rfl
  · exact emit_ rfl fun _ => rfl
  · by_cases hdefine : operator = .define
    · rw [if_pos hdefine]
      exact emit_ rfl fun _ => rfl
    · rw [if_neg hdefine]
      exact emit_ rfl fun _ => rfl
  · exact emit_ rfl fun _ => rfl
  · exact emit_ rfl fun _ => rfl
  · exact emit_ rfl fun _ => rfl
  · exact throw _ _

theorem Echoes.emitCaptures : ∀ syms : List Symbol, Echoes M blank (emitCaptures pos syms) (emitCaptures pos syms)
  | [] => pure ()
  | sym :: rest => by
    have hfirst : Echoes M blank (emitCapture pos sym) (emitCapture pos sym) := by
      unfold emitCapture
      cases sym.kind with
      | localVar => exact emit_ rfl fun _ => rfl
      | captured => exact emit_ rfl fun _ => rfl
      | self => exact emit_ rfl fun _ => rfl
      | globalVar => exact throw _ _
      | builtin => exact throw _ _
    rw [emitCaptures_cons]
    exact hfirst.bind fun _ => emitCaptures rest

/-! ## Patches -/

/-- `g'` differs from `g` in the bytes of its code alone. -/
structure Patched (g g' : Generator) : Prop extends Recoded g g' where
  size : g'.scope.code.size = g.scope.code.size
  positions : g'.scope.positions = g.scope.positions

theorem Patched.refl (g : Generator) : Patched g g := ⟨⟨rfl, rfl, rfl, rfl, rfl, rfl⟩, rfl, rfl⟩

theorem Patched.trans (h : Patched g g1) (h' : Patched g1 g') : Patched g g' :=
  ⟨h.toRecoded.trans h'.toRecoded, h'.size.trans h.size, h'.positions.trans h.positions⟩

theorem Patched.outline (h : Patched g g') : g'.scope.outline = g.scope.outline := by
  rw [CodeScope.outline, h.size, h.positions, h.loops, CodeScope.outline]

/-- **The step changes bytes of the code alone**, and if it succeeds in one state, it does in all. -/
structure Patches (x : Gen Unit) : Prop where
  patched : ∀ {g : Generator} {u : Unit} {g' : Generator}, x g = .ok u g' → Patched g g'
  again : ∀ {g : Generator} {u : Unit} {g' : Generator}, x g = .ok u g' → ∀ d, ∃ d', x d = .ok () d'

namespace Patches

theorem jump (j target : Nat) : Patches (patchJump pos j target) := by
  unfold patchJump
  split
  · constructor
    · intro g u g' h
      cases h
    · intro g u g' h
      cases h
  · refine ⟨fun h => ?_, fun _ _ => ⟨_, rfl⟩⟩
    cases h
    exact ⟨⟨rfl, rfl, rfl, rfl, rfl, rfl⟩, size_patchU16 _ _ _, rfl⟩

theorem none : Patches (pure ()) where
  patched h := by
    cases h
    exact .refl _
  again _ d := ⟨d, rfl⟩

theorem bind (hx : Patches x) (hy : Patches y) : Patches (x >>= fun _ => y) where
  patched h := by
    obtain ⟨_, _, h1, h2⟩ := bind_ok h
    exact (hx.patched h1).trans (hy.patched h2)
  again h d := by
    obtain ⟨_, _, h1, h2⟩ := bind_ok h
    obtain ⟨d1, hd1⟩ := hx.again h1 d
    obtain ⟨d2, hd2⟩ := hy.again h2 d1
    exact ⟨d2, (bind_run hd1).trans hd2⟩

theorem list (target : Nat) : ∀ jumps : List Nat, Patches (jumps.forM fun j => patchJump pos j target)
  | [] => none
  | j :: js => (jump j target).bind (list target js)

theorem option (target : Nat) : ∀ jump : Option Nat, Patches (jump.forM fun j => patchJump pos j target)
  | .none => none
  | .some j => jump j target

theorem loop (jumps : PendingJumps) (next done : Nat) : Patches (patchLoop pos jumps next done) :=
  (list done _).bind (list next _)

end Patches

theorem Tracks.patch {x : Gen Unit} (ht : Tracks M blank Q t g) (hx : Patches x) (h : x g = .ok u g') :
    ∃ t', Walks M blank Q x t g () t' g' := by
  have hg := hx.patched h
  obtain ⟨d', hrun⟩ := hx.again h t.draft
  have hd := hx.patched hrun
  refine ⟨{ t with draft := d' }, hrun, ⟨?_, hd.outline.trans (ht.outline.trans hg.outline.symm), ?_, ?_, ?_⟩, .refl _,
    ?_, fun _ => rfl⟩
  · show Follows M blank Q d'.context g'.context t.book t.library
    rw [hd.context, hg.context]
    exact ht.follows
  · show d'.outer.length + _ = _ + d'.unitDepth
    rw [hd.outer, hd.unitDepth, hg.outer, hg.unitDepth]
    exact ht.depth
  · show d'.context.constants.size ≤ g'.context.constants.size
    rw [hd.context, hg.context]
    exact ht.constants
  · show d'.errors.size = 0
    rw [hd.errors]
    exact ht.clean
  · rw [hg.context]
    exact .refl _

theorem Tracks.here (ht : Tracks M blank Q t g) : Walks M blank Q here t g g.scope.code.size t g :=
  ht.stay (by rw [← ht.size]; rfl)

theorem Tracks.patchHere (ht : Tracks M blank Q t g) (h : patchHere pos j g = .ok u g') :
    ∃ t', Walks M blank Q (patchHere pos j) t g () t' g' := by
  have h' : patchJump pos j g.scope.code.size g = .ok u g' := h
  obtain ⟨t', hw⟩ := ht.patch (.jump _ _) h'
  exact ⟨t', ht.here.bind hw⟩

/-! ## Jumps over a body -/

theorem Echoes.skip {α : Type} {kind : SkipKind} {body body' : Gen α} (hb : Echoes M blank body body') :
    Echoes M blank (Generator.emit pos kind.op [0] >>= fun j => body >>= fun _ => patchHere pos j)
      (Generator.emit pos kind.op [0] >>= fun j => body' >>= fun _ => patchHere pos j) where
  growing := (Obeys.emit _ _ _).bind fun _ => hb.growing.bind fun _ => Obeys.patchHere _ _
  runs hr hc htr := by
    obtain ⟨j, g1, he, hr⟩ := bind_ok hr
    obtain ⟨_, g2, hb', hp⟩ := bind_ok hr
    obtain ⟨t1, we⟩ := htr.emitJump he
    obtain ⟨t2, rb⟩ := hb.runs hb' ((Obeys.patchHere _ _).clean hp hc) we.tracks
    obtain ⟨t3, wp⟩ := rb.tracks.patchHere hp
    obtain ⟨f, wd, wg⟩ := rb.written
    exact ⟨t3, we.bind (rb.toWalks.bind wp), .skip kind f, (skip_writes we.run wd wp.run).1,
      fun κ hκ => (skip_writes he (wg κ (hκ.of_le wp.book)) hp).1⟩

theorem Echoes.shortCircuit {kind : SkipKind} (hl : Echoes M blank lhs lhs') (hr : Echoes M blank rhs rhs') :
    Echoes M blank (shortCircuit pos kind.op lhs rhs) (shortCircuit pos kind.op lhs' rhs') :=
  hl.bind fun _ => hr.skip

/-! ## Branches -/

section

variable {body body' : Gen Bool}

theorem Echoes.arms_none (hb : Echoes M blank body body') :
    Echoes M blank (arms pos body none) (arms pos body' none) := by
  have heq (body : Gen Bool) : arms pos body none =
      (emit pos SkipKind.falsy.op [0] >>= fun j => body >>= fun _ => patchHere pos j) >>= fun _ =>
        Pure.pure false := by
    simp only [bind_assoc]
    rfl
  rw [heq, heq]
  exact hb.skip.bind fun _ => pure false

theorem Tracks.jumpToEnd {exits : Bool} (ht : Tracks M blank Q t g)
    (h : (if exits then pure none else some <$> Generator.emit pos .jump [0] : Gen (Option Nat)) g = .ok toEnd g') :
    ∃ t', Walks M blank Q (if exits then pure none else some <$> Generator.emit pos .jump [0]) t g toEnd t' g' := by
  cases exits with
  | true =>
    cases h
    exact ⟨t, ht.stay rfl⟩
  | false =>
    have h' : (Generator.emit pos .jump [0] >>= fun j => pure (some j) : Gen (Option Nat)) g = .ok toEnd g' := h
    obtain ⟨j, _, he, hpure⟩ := bind_ok h'
    cases hpure
    obtain ⟨t1, we⟩ := ht.emitJump he
    have wsome : Walks M blank Q (pure (some j)) t1 g' (some j) t1 g' := we.tracks.stay rfl
    have wjump : Walks M blank Q (Generator.emit pos .jump [0] >>= fun j => pure (some j)) t g (some j) t1 g' :=
      we.bind wsome
    exact ⟨t1, wjump⟩

theorem Tracks.patchEnd {toEnd : Option Nat} (ht : Tracks M blank Q t g)
    (h : toEnd.forM (Generator.patchHere pos) g = .ok u g') :
    ∃ t', Walks M blank Q (toEnd.forM (Generator.patchHere pos)) t g () t' g' := by
  cases toEnd with
  | none =>
    cases h
    exact ⟨t, ht.stay rfl⟩
  | some j => exact ht.patchHere h

theorem Echoes.arms_some (hb : Echoes M blank body body') (ho : Echoes M blank other other') :
    Echoes M blank (arms pos body (some other)) (arms pos body' (some other')) where
  growing := Obeys.arms_some hb.growing ho.growing
  runs hr hc htr := by
    obtain ⟨j, g1, exits, g2, toEnd, g3, g4, exits', g5, he, hb', hc2, hend, hp, ho', hc5, hp', rfl⟩ :=
      arms_some_ok ho.growing hr hc
    obtain ⟨t1, we⟩ := htr.emitJump he
    obtain ⟨t2, rb⟩ := hb.runs hb' hc2 we.tracks
    obtain ⟨t3, wend⟩ := rb.tracks.jumpToEnd hend
    obtain ⟨t4, wp⟩ := wend.tracks.patchHere hp
    obtain ⟨t5, ro⟩ := ho.runs ho' hc5 wp.tracks
    obtain ⟨t6, wp'⟩ := ro.tracks.patchEnd hp'
    obtain ⟨fb, db, gb⟩ := rb.written
    obtain ⟨fo, dother, go⟩ := ro.written
    rw [arms_some_eq]
    refine ⟨t6, we.bind (rb.toWalks.bind (wend.bind (wp.bind (ro.toWalks.bind (wp'.bind (wp'.tracks.stay rfl)))))),
      .fork fb (!exits) fo, (arms_writes we.run db wend.run wp.run dother wp'.run).1, fun κ hκ => ?_⟩
    have hκ5 : t5.book.Numbers κ := hκ.of_le wp'.book
    have hκ2 : t2.book.Numbers κ := hκ5.of_le (wend.book.trans (wp.book.trans ro.book))
    exact (arms_writes he (gb κ hκ2) hend hp (go κ hκ5) hp').1

theorem Echoes.conditional (ht : Echoes M blank test test') (hy : Echoes M blank yes yes')
    (hn : Echoes M blank no no') :
    Echoes M blank (conditional pos test yes no) (conditional pos test' yes' no') := by
  rw [conditional_eq_arms, conditional_eq_arms]
  exact ht.bind fun _ =>
    ((hy.bind fun _ => pure false).arms_some (hn.bind fun _ => pure false)).discard

theorem Echoes.arms {other other' : Option (Gen Bool)} (hb : Echoes M blank body body')
    (ho : Option.Rel (Echoes M blank) other other') :
    Echoes M blank (arms pos body other) (arms pos body' other') := by
  cases ho with
  | none => exact hb.arms_none
  | some h => exact hb.arms_some h

end

/-! ## Loops -/

section

variable {test test' : Option (Gen Unit)} {post post' : Gen Unit} {body body' : Gen Bool}

theorem Tracks.withLoops (ht : Tracks M blank Q t g) (k : List PendingJumps → List PendingJumps) :
    Tracks M blank Q
      { t with draft := { t.draft with scope := { t.draft.scope with loops := k t.draft.scope.loops } } }
      { g with scope := { g.scope with loops := k g.scope.loops } } :=
  ⟨ht.follows, congrArg (fun o => (o.1, o.2.1, k o.2.2)) ht.outline, ht.depth, ht.constants, ht.clean⟩

theorem testJump_echo (hrel : Option.Rel (Echoes M blank) test test')
    (h : testJump pos test g = .ok jump g1) (hc : Clean g1) (htr : Tracks M blank Q t g) :
    ∃ t1, Walks M blank Q (testJump pos test') t g jump t1 g1 ∧
      ∃ f, TestWritten test.isSome f t.draft jump t1.draft ∧
        ∀ κ, t1.book.Numbers κ → TestWritten test.isSome (f.renumber κ) g jump g1 := by
  cases hrel with
  | none =>
    cases h
    exact ⟨t, htr.stay rfl, .nil, TestWritten.none _ _, fun _ _ => TestWritten.none _ _⟩
  | @some x y hx =>
    have heq (x : Gen Unit) : testJump pos (some x) =
        (x >>= fun _ => Generator.emit pos .jumpFalsy [0]) >>= fun j => pure (some j) := (bind_pure_comp ..).symm
    rw [heq] at h ⊢
    obtain ⟨j, g2, h', hj⟩ := bind_ok h
    cases hj
    obtain ⟨_, g3, hxr, he⟩ := bind_ok h'
    obtain ⟨t3, rx⟩ := hx.runs hxr ((Obeys.emit _ _ _).clean he hc) htr
    obtain ⟨t4, we⟩ := rx.tracks.emitJump he
    obtain ⟨f, wd, wg⟩ := rx.written
    exact ⟨t4, (rx.toWalks.bind we).bind (we.tracks.stay rfl), f, TestWritten.some wd we.run,
      fun κ hκ => TestWritten.some (wg κ (hκ.of_le we.book)) he⟩

theorem wayBack_echo (hp : Echoes M blank post post') (h : wayBack pos start post back g = .ok u g1)
    (hc : Clean g1) (htr : Tracks M blank Q t g) :
    ∃ t1, Walks M blank Q (wayBack pos start post' back) t g () t1 g1 ∧
      ∃ f, BackWritten back f start t.draft t1.draft ∧
        ∀ κ, t1.book.Numbers κ → BackWritten back (f.renumber κ) start g g1 := by
  unfold wayBack at h ⊢
  cases back with
  | false =>
    cases h
    exact ⟨t, htr.stay rfl, .nil, BackWritten.none _ _ _, fun _ _ => BackWritten.none _ _ _⟩
  | true =>
    obtain ⟨_, g2, hpost, hjump⟩ := bind_ok h
    obtain ⟨n, he⟩ := discard_ok hjump
    obtain ⟨t2, rp⟩ := hp.runs hpost ((Obeys.emit _ _ _).clean he hc) htr
    obtain ⟨t3, we⟩ := rp.tracks.emit he (excess?_of_emit he) rfl
    obtain ⟨f, wd, wg⟩ := rp.written
    exact ⟨t3, rp.toWalks.bind we.discard, f, BackWritten.some wd we.run,
      fun κ hκ => BackWritten.some (wg κ (hκ.of_le we.book)) he⟩

/-- **The rounds of a loop.** The same jumps leave the body on both sides, so the same patches are made. -/
theorem Echoes.rounds (ht : Option.Rel (Echoes M blank) test test') (hb : Echoes M blank body body')
    (hp : Echoes M blank post post') :
    Echoes M blank (rounds pos test post body) (rounds pos test' post' body') where
  growing := by
    have hgrow : ∀ x, test = some x → Growing x := by
      rintro x rfl
      cases ht with
      | some h => exact h.growing
    exact Obeys.rounds hgrow hb.growing.inLoop hp.growing
  runs {Q t g a g'} hr hc htr := by
    obtain ⟨jump, g1, exits, g2, g3, g4, htest, hc1, hx, hc2, rfl, hback, hc3, hp4, hp5⟩ :=
      rounds_ok hb.growing hp.growing hr hc
    obtain ⟨t1, wt, ft, dt, gt⟩ := testJump_echo ht htest hc1 htr
    have hin : Tracks M blank Q { t1 with draft := t1.draft.looping } g1.looping := wt.tracks.withLoops ({} :: ·)
    obtain ⟨t2, rb⟩ := hb.runs hx hc2 hin
    obtain ⟨fb, db, gb⟩ := rb.written
    have hsize2 := rb.tracks.size
    have hloops := rb.tracks.loops
    have wbody : Walks M blank Q (inLoop body') t1 g1 (exits, g2.scope.loops.headD {})
        { t2 with draft := t2.draft.looped } g2.looped := by
      refine ⟨?_, rb.tracks.withLoops List.tail, rb.book, rb.context, rb.library⟩
      have hrun : body' { t1.draft with scope := { t1.draft.scope with loops := {} :: t1.draft.scope.loops } } =
        .ok exits t2.draft := rb.run
      unfold inLoop
      rw [hrun, ← hloops]
      rfl
    obtain ⟨t3, wback, fp, dp, gp⟩ := wayBack_echo hp hback hc3 wbody.tracks
    obtain ⟨t4, w4⟩ := wback.tracks.patch (.option _ _) hp4
    obtain ⟨t5, w5⟩ := w4.tracks.patch (.loop _ _ _) hp5
    have hrun4 := w4.run
    have hrun5 := w5.run
    rw [← hloops, ← hsize2, ← wback.tracks.size] at hrun5
    rw [← wback.tracks.size] at hrun4
    rw [← htr.size] at dp
    refine ⟨t5, htr.here.bind (wt.bind (wbody.bind (wbody.tracks.here.bind (wback.bind
      ((wback.tracks.here.bind (w4.bind w5)).bind (w5.tracks.stay rfl)))))), .loop test.isSome ft fb _ fp,
      (loop_writes dt db dp hrun4 hrun5).1,
      fun κ hκ => ?_⟩
    have hκ3 : t3.book.Numbers κ := hκ.of_le (w4.book.trans w5.book)
    have hκ2 : t2.book.Numbers κ := hκ3.of_le wback.book
    exact (loop_writes (gt κ (hκ2.of_le rb.book)) (gb κ hκ2) (gp κ hκ3) hp4 hp5).1

end

theorem Echoes.emitLoopJump (cause : CompileCause) (e : Exit) :
    Echoes M blank (emitLoopJump pos cause (pend e)) (emitLoopJump pos cause (pend e)) where
  growing := (Emits.emitLoopJump pos cause e).growing
  runs {Q t g a g'} hr hc htr := by
    obtain ⟨_, hw, -, rfl⟩ := (Emits.emitLoopJump pos cause e).writes _ _ _ hr hc
    have heq := emitLoopJump_eq pos cause (pend e)
    rw [heq] at hr
    obtain ⟨_, _, hget, hr⟩ := bind_ok hr
    cases hget
    split at hr
    · cases hr
    · rename_i hl
      obtain ⟨j, g1, he, hm⟩ := bind_ok hr
      cases hm
      obtain ⟨t1, we⟩ := htr.emitJump he
      have hdl : ¬t.draft.scope.loops.isEmpty := by rwa [htr.loops]
      have dget : (get : Gen Generator) t.draft = .ok t.draft t.draft := rfl
      have drun : Generator.emitLoopJump pos cause (pend e) t.draft = modifyLoop (pend e j) t1.draft := by
        rw [heq, bind_run dget, if_neg hdl, bind_run we.run]
      obtain ⟨_, dw, -, rfl⟩ := (Emits.emitLoopJump pos cause e).writes _ _ _ drun we.tracks.clean
      refine ⟨{ t1 with draft := _ }, ⟨drun, ⟨we.tracks.follows, ?_, we.tracks.depth, we.tracks.constants,
        we.tracks.clean⟩, we.book, we.context, we.library⟩, .exit e, dw, fun _ _ => hw⟩
      simp only [CodeScope.outline, we.tracks.size, we.tracks.positions, we.tracks.loops]

/-! ## Functions -/

theorem Echoes.finalReturn (exits : Bool) : Echoes M blank (emitFinalReturn exits) (emitFinalReturn exits) := by
  unfold emitFinalReturn
  exact ite (pure ()) (emit_ rfl fun _ => rfl)

theorem Echoes.defineParams : ∀ params : List Name, Echoes M blank (defineParams params) (defineParams params)
  | [] => pure ()
  | p :: ps => by
    unfold Generator.defineParams
    refine (resolveTop? p.text).bind fun sym => ?_
    have hrest : Echoes M blank (do Functor.discard (Generator.define p.text); Generator.defineParams ps)
        (do Functor.discard (Generator.define p.text); Generator.defineParams ps) :=
      (define p.text).discard.bind fun _ => defineParams ps
    simp only [throw_bind]
    exact hrest.guarded

theorem Echoes.defineSelf (self : Option String) :
    Echoes M blank (self.forM defineSelf) (self.forM defineSelf) := by
  cases self with
  | none => exact pure ()
  | some name =>
    refine (resolveTop? name).bind fun sym => ite ?_ (pure ())
    exact ofTable (k := fun t => ((), (t.defineFunction name).2)) (fun t => t.builtins_defineFunction name)
      (fun _ => rfl) (Growing.modify fun _ => rfl)

theorem assembled_of_writes (hs : g.scope = {}) (hw : Writes g f g') : Assembled f g'.scope.code := by
  refine ⟨?_, ?_, hw.closed (by rw [hs])⟩
  · simpa [hs] using hw.code
  · have hfits := hw.fits
    rw [hs] at hfits
    exact hfits

/-- **The code of a nested function**, on both sides. It begins at offset zero. -/
theorem enclosed_echo (hx : Echoes M blank x y) (h : enclosed x g = .ok r g') (hc : Clean g')
    (htr : Tracks M blank Q t g) :
    ∃ s t', Repeats M blank Q (enclosed y) t g (s, r.2) t' g' ∧ s.outline = r.1.outline ∧
      ∃ f, Assembled f s.code ∧ ∀ κ, t'.book.Numbers κ → Assembled (f.renumber κ) r.1.code := by
  obtain ⟨_, _, hopen, h⟩ := bind_ok h
  cases hopen
  obtain ⟨_, g1, hxr, hclose⟩ := bind_ok h
  have hc1 : Clean g1 := Growing.closeFunction.clean hclose hc
  have htable : t.draft.table = g.table := htr.follows.table
  -- inside, the code of the function begins
  have hin : Tracks M blank Q { t with draft := { t.draft with
      scope := {}, outer := t.draft.scope :: t.draft.outer, table := t.draft.table.enter false } }
      { g with scope := {}, outer := g.scope :: g.outer, table := g.table.enter false } := by
    refine ⟨?_, rfl, ?_, htr.constants, htr.clean⟩
    · rw [htable]
      exact htr.follows.withTable rfl
    · have hdepth := htr.depth
      simp only [List.length_cons]
      omega
  obtain ⟨t1, rx⟩ := hx.runs hxr hc1 hin
  obtain ⟨f, wd, wg⟩ := rx.written
  have wg0 := wg _ t1.book.numbers_number
  have htable1 : t1.draft.table = g1.table := rx.tracks.follows.table
  have dopen : openFunction t.draft = .ok () { t.draft with
    scope := {}, outer := t.draft.scope :: t.draft.outer, table := t.draft.table.enter false } := rfl
  have drun : enclosed y t.draft = _ := (bind_run dopen).trans ((bind_run rx.run).trans (closeFunction_apply wd.outer))
  rw [htable1] at drun
  rw [closeFunction_apply wg0.outer] at hclose
  cases hclose
  exact ⟨_, ⟨_, t1.book, t1.library⟩, htr.copies drun (rx.tracks.follows.withTable (SymbolTable.builtins_leave _))
    rx.book ⟨rx.context.le.congr rfl rfl rfl rfl, rx.context.modules⟩ rx.library
    (.refl rfl rfl wd.unitDepth ⟨wd.importing, wd.keeps.modules⟩)
    (.refl rfl rfl wg0.unitDepth ⟨wg0.importing, wg0.keeps.modules⟩) rfl rfl rx.tracks.constants rx.tracks.clean,
    rx.tracks.outline, f, assembled_of_writes rfl wd, fun κ hκ => assembled_of_writes rfl (wg κ hκ)⟩

theorem Tracks.newRoutine (ht : Tracks M blank Q t g) (hr : SameUpTo t.book r' r) :
    Repeats M blank Q (newRoutine r') t g t.draft.heap.routines.size { t with
        draft := { t.draft with heap := (t.draft.heap.newFunction r').2 }
        book := t.book.note .routines g.heap.routines.size }
      { g with heap := (g.heap.newFunction r).2 } :=
  ht.copies rfl (ht.follows.withRoutine hr) (t.book.le_note _ _) ⟨g.context.le_withHeapRoutine r, id⟩ (fun _ => rfl)
    (.idle rfl) (.idle rfl) rfl rfl ht.constants ht.clean

theorem Tracks.routines_size (ht : Tracks M blank Q t g) :
    t.draft.heap.routines.size = M.size + (t.book .routines).size := ht.follows.realizes.count .routines

theorem makeFunction_echo (htr : Tracks M blank Q t g) (hr : SameUpTo t.book r' r)
    (h : makeFunction pos r captures g = .ok u g') (hc : Clean g') :
    ∃ t', Repeats M blank Q (makeFunction pos r' captures) t g () t' g' := by
  obtain ⟨ref, g1, hnew, h⟩ := bind_ok h
  cases hnew
  obtain ⟨k, g2, hadd, h⟩ := bind_ok h
  cases hadd
  have rnew := htr.newRoutine hr
  have hcounter : Counterpart M (t.book.note .routines g.heap.routines.size) g.modules
      (.function t.draft.heap.routines.size) (.function g.heap.routines.size) := by
    rw [htr.routines_size]
    exact .function (t.book.note_self _ _)
  obtain ⟨t2, radd, hnote⟩ := rnew.tracks.addConstant hcounter
  unfold makeFunction
  by_cases hempty : captures.isEmpty
  · rw [if_pos hempty] at h
    obtain ⟨t3, re⟩ := radd.tracks.emitNumbered h (.inl rfl) rfl hnote htr.constants
    refine ⟨t3, rnew.bind (radd.bind ?_)⟩
    rw [if_pos hempty]
    exact re
  · rw [if_neg hempty] at h
    obtain ⟨_, g3, hcaptures, hclosure⟩ := bind_ok h
    obtain ⟨t3, rc⟩ := (emitCaptures captures).runs hcaptures ((Obeys.emit_ _ _ _).clean hclosure hc)
      radd.tracks
    obtain ⟨t4, re⟩ := rc.tracks.emitNumbered hclosure (.inr rfl) rfl (rc.book hnote) htr.constants
    refine ⟨t4, rnew.bind (radd.bind ?_)⟩
    rw [if_neg hempty]
    exact rc.bind re

theorem Echoes.function {body body' : Gen Bool} {params : List Name} {variadic : Bool} {self : Option String}
    (hb : Echoes M blank body body') :
    Echoes M blank (function pos params variadic self body) (function pos params variadic self body') := by
  rw [function_eq, function_eq]
  refine guarded (guarded ?_)
  have hin := (defineParams params).bind fun _ => (defineSelf self).bind fun _ =>
    hb.inBlock.bind fun exits => finalReturn exits
  have hgrow (r : CodeScope × ScopeSummary) : Growing (if maxOperand 2 < r.1.code.size then
      MonadExcept.throw { cause := .limit .instructionBytes (maxOperand 2), pos }
      else makeFunction pos (literalRoutine params variadic r.1 r.2) r.2.captures) :=
    Obeys.ite (Obeys.throw _) (Emits.makeFunction pos _ _).growing
  refine ⟨(Growing.openFunction.bind fun _ => hin.growing.bind fun _ => Growing.closeFunction).bind hgrow, ?_⟩
  intro Q t g a g' hr hc htr
  obtain ⟨r, g1, henc, hmake⟩ := bind_ok hr
  obtain ⟨s, t1, renc, houtline, hcode⟩ := enclosed_echo hin henc ((hgrow r).clean hmake hc) htr
  by_cases hsize : maxOperand 2 < r.1.code.size
  · rw [if_pos hsize] at hmake
    cases hmake
  · rw [if_neg hsize] at hmake
    simp only [CodeScope.outline, Prod.mk.injEq] at houtline
    obtain ⟨hsize', hpositions, -⟩ := houtline
    have hsame : SameUpTo t1.book (literalRoutine params variadic s r.2) (literalRoutine params variadic r.1 r.2) :=
      ⟨hcode, by simp only [literalRoutine, hpositions]⟩
    obtain ⟨t2, rmake⟩ := makeFunction_echo renc.tracks hsame hmake hc
    refine ⟨t2, renc.bind ?_⟩
    rw [if_neg (by rw [hsize']; exact hsize)]
    exact rmake

end Scripting
