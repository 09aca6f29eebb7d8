import Scripting.Compile.Unit
import Scripting.Proofs.Code.Fragment
/-!
# `Proofs.Compile.Emission` — what a compilation step writes

A step that succeeds appends a fragment to the code of the function at hand, with the jumps out of the
innermost loop still open (`Writes`). `Emits x P` says so of every successful run of `x` that ends
without recorded errors, and that the fragment, the result and the contexts before and after are
related by `P`. The context is all of the state that is not code.

* **laws** — what a step leaves behind, whether it succeeds or not, is said by a `Law`; steps in a row keep a law that
  each of them keeps (`Obeys`);
* **no errors** — errors are only ever added (`Grows`), so a compilation that ends without errors had
  none at any point, and every step of it succeeded;
* **composition** — `Emits.bind` for sequences; the constructs with jumps have lemmas of their own in
  `Proofs.Compile.Layout`.
-/

namespace Scripting

/-- Is it a limit of the instruction format or of texts that is exceeded? -/
def CompileCause.isLimit : CompileCause → Bool
  | limit .. | textTooLong => true
  | _ => false

namespace Generator

/-- The part of the state of a compilation that is not code. -/
structure Context where
  table : SymbolTable
  constants : Array Value
  modules : Dict Ref
  heap : Heap

def context (g : Generator) : Context := ⟨g.table, g.constants, g.modules, g.heap⟩

/-- A context in which a block has been opened. -/
def Context.enter (c : Context) : Context := { c with table := c.table.enter true }

/-- A context in which the innermost scope has been closed. -/
def Context.leave (c : Context) : Context := { c with table := c.table.leave.2 }

/-! ## Steps in a row -/

theorem bind_apply (x : Gen α) (k : α → Gen β) (g : Generator) : (x >>= k) g = match x g with
      | .ok a g => k a g
      | .error e g => .error e g := by
  show EStateM.bind x k g = _
  unfold EStateM.bind
  cases x g <;> rfl

/-- **Peel a step off a successful run.** -/
theorem bind_ok {k : α → Gen β} (h : (x >>= k) g = .ok b g') : ∃ a g1, x g = .ok a g1 ∧ k a g1 = .ok b g' := by
  rw [bind_apply] at h
  cases hx : x g with
  | ok a g1 => exact ⟨a, g1, rfl, by simpa [hx] using h⟩
  | error e g1 => simp [hx] at h

theorem discard_ok {x : Gen α} (h : discard x g = .ok u g') : ∃ a, x g = .ok a g' := by
  have h' : EStateM.map _ x g = .ok u g' := h
  unfold EStateM.map at h'
  cases hx : x g with
  | ok a g1 =>
    rw [hx] at h'
    cases h'
    exact ⟨a, rfl⟩
  | error e g1 => rw [hx] at h'; cases h'

theorem inBlock_ok (h : inBlock x g = .ok a g') :
    ∃ g1, x { g with table := g.table.enter true } = .ok a g1 ∧ g' = { g1 with table := g1.table.leave.2 } := by
  unfold inBlock at h
  cases hx : x { g with table := g.table.enter true } with
  | ok b g1 =>
    rw [hx] at h
    cases h
    exact ⟨g1, rfl, rfl⟩
  | error e g1 => rw [hx] at h; cases h

/-! ## Laws -/

/-- All of the state but the code at hand, the constants and the heap. -/
def frame (g : Generator) :=
  (g.table, g.scope.loops, g.outer, g.unitDepth, g.importing, g.modules, g.errors, g.aborted)

/-- **What steps may leave behind**, those that succeed and those that fail. A law is kept by steps in a row if each
keeps it, and by those that touch nothing but code, constants and heap or stop at a limit. -/
structure Law where
  ok : Generator → Generator → Prop
  error : Generator → CompileError → Generator → Prop
  idle {g g' : Generator} : g'.frame = g.frame → ok g g'
  limit {g : Generator} {e : CompileError} : e.cause.isLimit = true → error g e g
  trans {g g1 g2 : Generator} : ok g g1 → ok g1 g2 → ok g g2
  fails {g g1 g2 : Generator} {e : CompileError} : ok g g1 → error g1 e g2 → error g e g2

/-- A law that says nothing of errors. -/
class Law.Lenient (L : Law) : Prop where
  throw : ∀ g e, L.error g e g

variable {L : Law}

def Law.Allows {α : Type} (L : Law) (g : Generator) : EStateM.Result CompileError Generator α → Prop
  | .ok _ g' => L.ok g g'
  | .error e g' => L.error g e g'

/-- **Every run of the step keeps the law.** -/
def Obeys {α : Type} (L : Law) (x : Gen α) : Prop := ∀ g, L.Allows g (x g)

theorem Law.Allows.after (h : L.ok g g1) : ∀ {r : EStateM.Result CompileError Generator α}, L.Allows g1 r → L.Allows g r
  | .ok .., h' => L.trans h h'
  | .error .., h' => L.fails h h'

namespace Obeys

variable {α β γ : Type}

theorem pure (a : α) : Obeys L (pure a : Gen α) := fun _ => L.idle rfl

theorem get : Obeys L (get : Gen Generator) := fun _ => L.idle rfl

theorem throw [L.Lenient] (e : CompileError) : Obeys L (throw e : Gen α) := fun g => Law.Lenient.throw g e

theorem exceeded {e : CompileError} (h : e.cause.isLimit = true) : Obeys L (MonadExcept.throw e : Gen α) :=
  fun _ => L.limit h

theorem bind (hx : Obeys L x) (hk : ∀ a, Obeys L (k a)) : Obeys L (x >>= k) := by
  intro g
  have h := hx g
  rw [bind_apply]
  cases hr : x g with
  | ok a g1 => rw [hr] at h; exact (hk a g1).after h
  | error e g1 => rw [hr] at h; exact h

theorem map {x : Gen α} {k : α → β} (hx : Obeys L x) : Obeys L (k <$> x) := by
  exact hx.bind fun _ => pure _

theorem discard (hx : Obeys L x) : Obeys L (discard x) := hx.map

theorem ite [Decidable p] (hx : Obeys L x) (hy : Obeys L y) : Obeys L (if p then x else y) := by
  split
  · exact hx
  · exact hy

theorem modify (h : ∀ g, L.ok g (f g)) : Obeys L (modify f : Gen Unit) := h

theorem silent (h : ∀ g, (f g).2.frame = g.frame) : Obeys L (modifyGet f : Gen α) := fun g => L.idle (h g)

theorem forM {f : γ → Gen Unit} (hf : ∀ a, Obeys L (f a)) : ∀ l : List γ, Obeys L (l.forM f)
  | [] => pure _
  | a :: l => (hf a).bind fun _ => forM hf l

theorem option_forM {f : γ → Gen Unit} (hf : ∀ a, Obeys L (f a)) : ∀ o : Option γ, Obeys L (o.forM f)
  | none => pure _
  | some a => hf a

/-- A step that is made in another state, from which the way back is always the same. -/
theorem within {into : Generator → Generator} {out : Generator → Generator → Generator} {x : Gen α} {y : Gen β}
    {r : α → Generator → β} (hx : Obeys L x)
    (hy : ∀ g, y g = match x (into g) with
      | .ok a g1 => .ok (r a g1) (out g g1)
      | .error e g1 => .error e (out g g1))
    (hok : ∀ {g g1}, L.ok (into g) g1 → L.ok g (out g g1))
    (herror : ∀ {g e g1}, L.error (into g) e g1 → L.error g e (out g g1)) : Obeys L y := by
  intro g
  have h := hx (into g)
  rw [hy]
  cases hr : x (into g) with
  | ok a g1 => rw [hr] at h; exact hok h
  | error e g1 => rw [hr] at h; exact herror h

/-! ### Instructions and constants -/

theorem emit (pos : Pos) (op : Opcode) (operands : List Nat) : Obeys L (emit pos op operands) := by
  unfold Generator.emit
  split
  · exact exceeded rfl
  · exact silent fun _ => rfl

theorem emit_ (pos : Pos) (op : Opcode) (operands : List Nat) : Obeys L (emit_ pos op operands) :=
  (emit pos op operands).discard

theorem here : Obeys L here := fun _ => L.idle rfl

theorem patchJump (pos : Pos) (jump target : Nat) : Obeys L (patchJump pos jump target) := by
  unfold Generator.patchJump
  exact ite (exceeded rfl) (silent fun _ => rfl)

theorem patchHere (pos : Pos) (jump : Nat) : Obeys L (patchHere pos jump) := here.bind fun _ => patchJump _ _ _

theorem patchLoop (pos : Pos) (jumps : PendingJumps) (next done : Nat) : Obeys L (patchLoop pos jumps next done) :=
  (forM (fun _ => patchJump _ _ _) _).bind fun _ => forM (fun _ => patchJump _ _ _) _

theorem addConstant (v : Value) : Obeys L (addConstant v) := silent fun _ => rfl

theorem emitConstant (pos : Pos) (v : Value) : Obeys L (emitConstant pos v) :=
  (addConstant v).bind fun _ => emit_ _ _ _

theorem newRoutine (r : Routine) : Obeys L (newRoutine r) := silent fun _ => rfl

theorem newFrozenMap (d : Dict Value) : Obeys L (newFrozenMap d) := silent fun _ => rfl

theorem emitLoad (pos : Pos) (sym : Symbol) : Obeys L (emitLoad pos sym) := by
  unfold Generator.emitLoad
  split <;> exact emit_ _ _ _

theorem emitFinalReturn (exits : Bool) : Obeys L (emitFinalReturn exits) := ite (pure _) (emit_ _ _ _)

end Obeys

/-! ## Errors only grow -/

/-- The state in which a step ended. -/
def after {α : Type} : EStateM.Result CompileError Generator α → Generator
  | .ok _ g => g
  | .error _ g => g

/-- No error is ever forgotten, and a compilation gives up only after an error. -/
structure Grows (g g' : Generator) : Prop where
  errors : g.errors.toList <+: g'.errors.toList
  aborted : g'.aborted = true → g.aborted = true ∨ 0 < g'.errors.size

theorem Grows.size_le (h : Grows g g') : g.errors.size ≤ g'.errors.size := h.errors.length_le

theorem Grows.refl (g : Generator) : Grows g g := ⟨List.prefix_rfl, Or.inl⟩

theorem Grows.trans (h : Grows g1 g2) (h' : Grows g2 g3) : Grows g1 g3 := by
  refine ⟨h.errors.trans h'.errors, fun ha => ?_⟩
  rcases h'.aborted ha with ha | hpos
  · rcases h.aborted ha with ha | hpos
    · exact .inl ha
    · exact .inr (Nat.lt_of_lt_of_le hpos h'.size_le)
  · exact .inr hpos

def faults (g : Generator) : Array CompileError × Bool := (g.errors, g.aborted)

theorem Grows.of_eq (he : g'.errors = g.errors) (ha : g'.aborted = g.aborted) :
    Grows g g' := ⟨he ▸ List.prefix_rfl, fun h => .inl (ha ▸ h)⟩

/-- No step forgets an error. -/
def growth : Law where
  ok := Grows
  error g _ := Grows g
  idle h := .of_eq (congrArg (·.2.2.2.2.2.2.1) h) (congrArg (·.2.2.2.2.2.2.2) h)
  limit _ := .refl _
  trans := .trans
  fails := .trans

instance : growth.Lenient := ⟨fun g _ => .refl g⟩

/-- Every run of the step only adds errors. -/
abbrev Growing {α : Type} (x : Gen α) : Prop := Obeys growth x

theorem Obeys.grows (hx : Growing x) (g : Generator) : Grows g (after (x g)) := by
  have h := hx g
  generalize x g = r at h
  cases r <;> exact h

namespace Growing

variable {α : Type}

theorem modifyGet (h : ∀ g, (f g).2.faults = g.faults) : Growing (modifyGet f : Gen α) :=
  fun g => Grows.of_eq (congrArg Prod.fst (h g)) (congrArg Prod.snd (h g))

theorem modify (h : ∀ g, (f g).faults = g.faults) : Growing (modify f : Gen Unit) := modifyGet h

theorem inBlock (hx : Growing x) : Growing (inBlock x) :=
  hx.within (fun _ => rfl) (fun h => ⟨h.errors, h.aborted⟩) fun h => ⟨h.errors, h.aborted⟩

theorem inLoop (hx : Growing x) : Growing (inLoop x) :=
  hx.within (fun _ => rfl) (fun h => ⟨h.errors, h.aborted⟩) fun h => ⟨h.errors, h.aborted⟩

end Growing

/-! ## Writing -/

/-- Both targets open. -/
def open₀ : Exit → Nat := fun _ => 0

/-- Add the open jumps of a fragment at `s` to the innermost loop. -/
def addHoles (f : Fragment) (s : Nat) : List PendingJumps → List PendingJumps
  | [] => []
  | l :: ls =>
    { continues := f.holes .next s ++ l.continues, breaks := f.holes .done s ++ l.breaks } :: ls

/-- Modules that are there, or are being compiled, stay what they are. -/
structure Keeps (g g' : Generator) : Prop where
  importing : g'.importing = g.importing
  modules : ∀ name, name ∈ g.importing ∨ g.modules.get? name ≠ none → g'.modules.get? name = g.modules.get? name

theorem Keeps.trans (h : Keeps g1 g2) (h' : Keeps g2 g3) : Keeps g1 g3 where
  importing := h'.importing.trans h.importing
  modules name hname := by
    rw [← h.modules name hname]
    refine h'.modules name (hname.imp (fun hmem => h.importing ▸ hmem) fun hsome => ?_)
    rwa [h.modules name hname]

/-- From `g` to `g'`, the fragment `f` was appended to the code of the function at hand. -/
structure Writes (g : Generator) (f : Fragment) (g' : Generator) : Prop where
  code : g'.scope.code.toList = g.scope.code.toList ++ f.bytes g.scope.code.size open₀
  fits : ∀ i ∈ f.code g.scope.code.size open₀, i.Fits
  loops : g'.scope.loops = addHoles f g.scope.code.size g.scope.loops
  /-- Outside every loop, no jump leaves one. -/
  closed : g.scope.loops = [] → ∀ e, f.leaves e = false
  outer : g'.outer = g.outer
  unitDepth : g'.unitDepth = g.unitDepth
  keeps : Keeps g g'

theorem addHoles_nil : addHoles .nil s ls = ls := by
  cases ls <;> rfl

theorem addHoles_op : addHoles (.op i) s ls = ls := by
  cases ls <;> rfl

theorem addHoles_seq : addHoles (.seq a b) s ls = addHoles b (s + a.size) (addHoles a s ls) := by
  cases ls <;> simp [addHoles, Fragment.holes]

namespace Writes

variable {g g1 g2 : Generator} {a b f : Fragment}

theorem importing (h : Writes g f g1) : g1.importing = g.importing := h.keeps.importing

theorem size (h : Writes g f g1) : g1.scope.code.size = g.scope.code.size + f.size := by
  have := congrArg List.length h.code
  simpa [Fragment.length_bytes] using this

theorem refl (hs : g1.scope = g.scope) (ho : g1.outer = g.outer) (hu : g1.unitDepth = g.unitDepth)
    (hk : Keeps g g1) : Writes g .nil g1 where
  code := by simp [hs, Fragment.bytes, Fragment.code]
  fits := by simp [Fragment.code]
  loops := by rw [hs, addHoles_nil]
  closed _ _ := rfl
  outer := ho
  unitDepth := hu
  keeps := hk

theorem idle (h : (g1.scope, g1.outer, g1.unitDepth, g1.importing, g1.modules) =
    (g.scope, g.outer, g.unitDepth, g.importing, g.modules)) : Writes g .nil g1 := by
  simp only [Prod.mk.injEq] at h
  obtain ⟨hs, ho, hu, hi, hm⟩ := h
  exact refl hs ho hu ⟨hi, fun _ _ => by rw [hm]⟩

/-- **Two fragments in a row.** -/
theorem trans (ha : Writes g a g1) (hb : Writes g1 b g2) : Writes g (.seq a b) g2 where
  code := by
    rw [hb.code, ha.code, ha.size]
    simp [Fragment.bytes, Fragment.code]
  fits := by
    intro i hi
    rw [Fragment.code, List.mem_append, ← ha.size] at hi
    rcases hi with hi | hi
    · exact ha.fits i hi
    · exact hb.fits i hi
  loops := by rw [hb.loops, ha.loops, ha.size, addHoles_seq]
  closed h e := by
    have hl : g1.scope.loops = [] := by rw [ha.loops, h]; rfl
    rw [Fragment.leaves, ha.closed h e, hb.closed hl e]; rfl
  outer := hb.outer.trans ha.outer
  unitDepth := hb.unitDepth.trans ha.unitDepth
  keeps := ha.keeps.trans hb.keeps

theorem after_nil (ha : Writes g .nil g1) (hb : Writes g1 b g2) : Writes g b g2 := by
  have h := ha.trans hb
  have hc : Fragment.code (.seq .nil b) g.scope.code.size open₀ = b.code g.scope.code.size open₀ := rfl
  refine ⟨?_, ?_, ?_, ?_, h.outer, h.unitDepth, h.keeps⟩
  · rw [h.code, Fragment.bytes]; rfl
  · exact h.fits
  · rw [h.loops, addHoles_seq, addHoles_nil]; rfl
  · intro hl e
    simpa [Fragment.leaves] using h.closed hl e

theorem before_nil (ha : Writes g a g1) (hb : Writes g1 .nil g2) : Writes g a g2 := by
  have h := ha.trans hb
  have hc : Fragment.code (.seq a .nil) g.scope.code.size open₀ = a.code g.scope.code.size open₀ := by
    simp [Fragment.code]
  refine ⟨?_, ?_, ?_, ?_, h.outer, h.unitDepth, h.keeps⟩
  · rw [h.code, Fragment.bytes, hc]; rfl
  · rw [← hc]; exact h.fits
  · rw [h.loops, addHoles_seq, addHoles_nil]
  · intro hl e
    simpa [Fragment.leaves] using h.closed hl e

theorem congr (h : Writes g f g1) (hs : g'.scope = g.scope) (hs1 : g1'.scope = g1.scope)
    (ho : g1'.outer = g'.outer) (hu : g1'.unitDepth = g'.unitDepth) (hk : Keeps g' g1') : Writes g' f g1' where
  code := by rw [hs, hs1]; exact h.code
  fits := by rw [hs]; exact h.fits
  loops := by rw [hs, hs1]; exact h.loops
  closed := by rw [hs]; exact h.closed
  outer := ho
  unitDepth := hu
  keeps := hk

end Writes

/-! ## Steps that write -/

/-- No error has been recorded. -/
def Clean (g : Generator) : Prop := g.errors.size = 0

/-- **What a step writes.** Every run only adds errors, and one that succeeds without any appends a
fragment that is related to its result and to the contexts before and after. -/
structure Emits {α : Type} (x : Gen α) (P : Context → α → Context → Fragment → Prop) : Prop where
  growing : Growing x
  writes : ∀ g a g', x g = .ok a g' → Clean g' → ∃ f, Writes g f g' ∧ P g.context a g'.context f

theorem Obeys.clean (hx : Growing x) (h : x g = .ok a g') (hc : Clean g') : Clean g := by
  have := (hx.grows g).size_le
  rw [h] at this
  exact Nat.eq_zero_of_le_zero (hc ▸ this)

namespace Emits

variable {α β : Type} {P Q : Context → α → Context → Fragment → Prop} {R : Context → β → Context → Fragment → Prop}

theorem weaken (hx : Emits x P) (h : ∀ c a c' f, P c a c' f → Q c a c' f) : Emits x Q where
  growing := hx.growing
  writes g a g' hr hc := by
    obtain ⟨f, hw, hp⟩ := hx.writes g a g' hr hc
    exact ⟨f, hw, h _ _ _ _ hp⟩

/-- **A sequence of two steps.** -/
theorem bind {Q : α → Context → β → Context → Fragment → Prop} (hx : Emits x P) (hk : ∀ a, Emits (k a) (Q a))
    (h : ∀ c a c1 b c2 f1 f2, P c a c1 f1 → Q a c1 b c2 f2 → R c b c2 (.seq f1 f2)) : Emits (x >>= k) R where
  growing := hx.growing.bind fun a => (hk a).growing
  writes g b g' hr hc := by
    obtain ⟨a, g1, hxr, hkr⟩ := bind_ok hr
    obtain ⟨f2, hw2, hq⟩ := (hk a).writes g1 b g' hkr hc
    obtain ⟨f1, hw1, hp⟩ := hx.writes g a g1 hxr ((hk a).growing.clean hkr hc)
    exact ⟨.seq f1 f2, hw1.trans hw2, h _ _ _ _ _ _ _ hp hq⟩

theorem bind_silent {P : Context → α → Context → Prop} {Q : α → Context → β → Context → Fragment → Prop}
    (hx : Emits x fun c a c' f => f = .nil ∧ P c a c') (hk : ∀ a, Emits (k a) (Q a))
    (h : ∀ c a c1 b c2 f, P c a c1 → Q a c1 b c2 f → R c b c2 f) : Emits (x >>= k) R where
  growing := hx.growing.bind fun a => (hk a).growing
  writes g b g' hr hc := by
    obtain ⟨a, g1, hxr, hkr⟩ := bind_ok hr
    obtain ⟨f, hw, hq⟩ := (hk a).writes g1 b g' hkr hc
    obtain ⟨_, hw1, rfl, hp⟩ := hx.writes g a g1 hxr ((hk a).growing.clean hkr hc)
    exact ⟨f, hw1.after_nil hw, h _ _ _ _ _ _ hp hq⟩

theorem silent_bind {Q : α → Context → β → Context → Prop} (hx : Emits x P)
    (hk : ∀ a, Emits (k a) fun c b c' f => f = .nil ∧ Q a c b c')
    (h : ∀ c a c1 b c2 f, P c a c1 f → Q a c1 b c2 → R c b c2 f) : Emits (x >>= k) R where
  growing := hx.growing.bind fun a => (hk a).growing
  writes g b g' hr hc := by
    obtain ⟨a, g1, hxr, hkr⟩ := bind_ok hr
    obtain ⟨_, hw, rfl, hq⟩ := (hk a).writes g1 b g' hkr hc
    obtain ⟨f, hw1, hp⟩ := hx.writes g a g1 hxr ((hk a).growing.clean hkr hc)
    exact ⟨f, hw1.before_nil hw, h _ _ _ _ _ _ hp hq⟩

theorem throw (e : CompileError) : Emits (throw e : Gen α) P where
  growing := Obeys.throw e
  writes _ _ _ hr _ := by cases hr

theorem pure (a : α) (h : ∀ c, P c a c .nil) : Emits (pure a : Gen α) P where
  growing := Obeys.pure a
  writes g _ _ hr _ := by
    cases hr
    exact ⟨.nil, Writes.idle rfl, h _⟩

theorem modifyGet (h : ∀ g, P g.context (f g).1 (f g).2.context .nil)
    (hf : ∀ g, (f g).2.faults = g.faults) (hw : ∀ g, Writes g .nil (f g).2) : Emits (modifyGet f : Gen α) P where
  growing := Growing.modifyGet hf
  writes g a g' hr _ := by
    have hr' : EStateM.Result.ok (f g).1 (f g).2 = .ok a g' := hr
    cases hr'
    exact ⟨.nil, hw g, h g⟩

theorem discard {R : Context → Unit → Context → Fragment → Prop} (hx : Emits x P)
    (h : ∀ c a c' f, P c a c' f → R c () c' f) : Emits (discard x) R where
  growing := hx.growing.discard
  writes g a g' hr hc := by
    obtain ⟨b, hr⟩ := discard_ok hr
    obtain ⟨f, hw, hp⟩ := hx.writes g b g' hr hc
    exact ⟨f, hw, h _ _ _ _ hp⟩

theorem inBlock (hx : Emits x P) (h : ∀ c a c' f, P c.enter a c' f → Q c a c'.leave f) : Emits (inBlock x) Q where
  growing := hx.growing.inBlock
  writes g a g' hr hc := by
    obtain ⟨g1, hrun, rfl⟩ := inBlock_ok hr
    obtain ⟨f, hw, hp⟩ := hx.writes _ _ g1 hrun hc
    exact ⟨f, hw.congr rfl rfl hw.outer hw.unitDepth ⟨hw.importing, hw.keeps.modules⟩, h g.context _ _ _ hp⟩

end Emits

/-! ## Instructions -/

theorem excess?_none : ∀ {n : Nat} {ws vs : List Nat},
    excess? op n ws vs = none → ∀ p ∈ ws.zip vs, p.2 ≤ Code.maxOperand p.1
  | _, [], _, _, p, hp => by simp at hp
  | _, _ :: _, [], _, p, hp => by simp at hp
  | n, w :: ws, v :: vs, h, p, hp => by
    simp only [excess?] at h
    split at h
    · cases h
    · rename_i hle
      rw [List.zip_cons_cons, List.mem_cons] at hp
      rcases hp with rfl | hp
      · exact Nat.not_lt.mp hle
      · exact excess?_none h p hp

theorem emit_ok (h : emit pos op operands g = .ok n g') :
    n = g.scope.code.size ∧ (∀ p ∈ op.widths.zip operands, p.2 ≤ Code.maxOperand p.1) ∧ ∃ positions, g' = { g with
        scope := { g.scope with
          code := g.scope.code ++ (Instruction.assemble ⟨op, operands⟩).toArray, positions } } := by
  cases hx : excess? op 0 op.widths operands with
  | some p => simp only [emit, hx] at h; cases h
  | none =>
    simp only [emit, hx] at h
    cases h
    exact ⟨rfl, excess?_none hx, _, rfl⟩

/-- **An instruction is a fragment of its own.** -/
theorem emit_writes (hlen : operands.length = op.widths.length) (h : emit pos op operands g = .ok n g') :
    Writes g (.op ⟨op, operands⟩) g' ∧ g'.context = g.context := by
  obtain ⟨-, hfit, positions, rfl⟩ := emit_ok h
  refine ⟨⟨?_, ?_, ?_, fun _ _ => rfl, rfl, rfl, ⟨rfl, fun _ _ => rfl⟩⟩, rfl⟩
  · simp [Fragment.bytes, Fragment.code]
  · intro i hi
    rw [Fragment.code, List.mem_singleton] at hi
    subst hi
    exact ⟨hlen, hfit⟩
  · rw [addHoles_op]

/-- The step writes one instruction and leaves the context alone. -/
def Just (i : Instruction) (c : Context) (_ : Unit) (c' : Context) (f : Fragment) : Prop := c' = c ∧ f = .op i

theorem Emits.emit_ (pos : Pos) (op : Opcode) (operands : List Nat) (hlen : operands.length = op.widths.length) :
    Emits (emit_ pos op operands) (Just ⟨op, operands⟩) where
  growing := Obeys.emit_ pos op operands
  writes g a g' hr _ := by
    obtain ⟨n, hr⟩ := discard_ok hr
    obtain ⟨hw, hctx⟩ := emit_writes hlen hr
    exact ⟨_, hw, hctx, rfl⟩

theorem Emits.addConstant (v : Value) : Emits (addConstant v) fun c n c' f =>
    f = .nil ∧ n = c.constants.size ∧ c' = { c with constants := c.constants.push v } :=
  Emits.modifyGet (fun _ => ⟨rfl, rfl, rfl⟩) (fun _ => rfl) fun _ => .idle rfl

theorem Emits.emitConstant (pos : Pos) (v : Value) : Emits (emitConstant pos v) fun c _ c' f =>
      c' = { c with constants := c.constants.push v } ∧ f = .op ⟨.constant, [c.constants.size]⟩ := by
  refine (Emits.addConstant v).bind_silent (fun n => Emits.emit_ pos .constant [n] rfl) ?_
  rintro c n c1 b c2 f ⟨rfl, rfl⟩ ⟨rfl, rfl⟩
  exact ⟨rfl, rfl⟩

end Generator

end Scripting
