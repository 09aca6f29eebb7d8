import Scripting.Proofs.Machine.Reflection
import Scripting.Proofs.Value.Transfer
/-!
# `Proofs.Machine.Lockstep` — two programs in lock step

Two programs are *linked* if their functions correspond, with the same instructions at the same offsets up
to the numbers of constants, and every offset that control reaches has a shape (`Linked`).

* **two runs** — machines that correspond in a world are `Twins`, and they stay twins from one instruction to the
  next (`step_twins`);
* **one run** — the next instruction has the shape of the operand stack (`Running`), which each step preserves
  (`step_safely`), so that a run never ends with a fault of broken code.

Together they make two runs end alike (`runFor_lockstep`). The callers of the running frame form a chain
(`Chain`): each one waits, with the operands it had below the callee, for the result. That is why a return finds
the stack as the call left it.
-/

namespace Scripting

open Code Machine Array

variable {W W0 W' : World} {π : Nat → Nat} {env env' : Env} {shape : Ref → Nat → Option Shape} {μ : Mirror}

/-! ## Linked programs -/

/-- What the code of a function may refer to, in two programs with these constants. -/
def World.sig (W : World) (π : Nat → Nat) (left right : Array Value) (locals free : Nat) : Sig where
  locals := locals
  free := free
  constant k κ := ∃ v w, left[k]? = some v ∧ right[π k]? = some w ∧ Related W v w ∧ κ.Has v
  closure k n := ∃ r s, left[k]? = some (.function r) ∧ right[π k]? = some (.function s) ∧ W.body n r s

/-- What stands at an offset with a shape: an instruction, in both versions, or the end of the code. -/
inductive Placed (Λ : Sig) (π : Nat → Nat) (f g : Routine) (shape : Nat → Option Shape) (o : Nat) : Shape → Prop
  | code {i : Instruction} {σ : Shape} (left : Stands f.code.toList o i)
    (right : Stands g.code.toList o (i.renumber π))
    (next : Continues Λ (fun o σ => shape o = some σ) o i σ) : Placed Λ π f g shape o σ
  | done {ks : List Kind} (left : f.code.size = o) (right : g.code.size = o) : Placed Λ π f g shape o ⟨ks, 0⟩

/-- Routines that take arguments alike and report the same places. -/
structure Routine.Alike (f g : Routine) : Prop where
  locals : g.locals = f.locals
  params : g.params = f.params
  variadic : g.variadic = f.variadic
  positions : g.positions = f.positions

/-- The routines of a world that correspond are alike. -/
def World.Uniform (W : World) : Prop := ∀ {n r s}, W.body n r s → Routine.Alike (W.left.getD r {}) (W.right.getD s {})

/-- **Two programs whose functions correspond**, with a shape for every offset that control reaches. -/
structure Linked (W : World) (π : Nat → Nat) (env env' : Env) (shape : Ref → Nat → Option Shape) : Prop where
  uniform : W.Uniform
  limits : env'.limits = env.limits
  host : env'.host = env.host
  uniformHost : UniformHost env.host
  start : ∀ {n r s}, W.body n r s → shape r 0 = some .empty
  placed : ∀ {n r s o σ}, W.body n r s → shape r o = some σ →
    Placed (W.sig π env.constants env'.constants (W.left.getD r {}).locals n) π (W.left.getD r {})
      (W.right.getD s {}) (shape r) o σ

/-! ## Twins -/

/-- The same offsets of functions that correspond, as long as they have shapes. -/
def World.mirror (W : World) (shape : Ref → Nat → Option Shape) : Mirror where
  place r o s o' := o' = o ∧ ∃ n, W.body n r s
  stop r o := shape r o = none

/-- **Two machines whose parts all correspond**, in a world. -/
structure Twins (W : World) (μ : Mirror) (m n : Machine) : Prop where
  heap : Heap.Related W m.heap n.heap
  parts : ∃ r s, Mirrored (W.renaming m.heap n.heap) μ r s m n

/-- Twins, perhaps in a world with a new closure. -/
def StillTwins (W : World) (μ : Mirror) (m n : Machine) : Prop := ∃ W', W.Le W' ∧ Twins W' μ m n

namespace Twins

variable {m n : Machine}

theorem steps (h : Twins W μ m n) : n.steps = m.steps := by
  obtain ⟨r, s, hm⟩ := h.parts
  exact hm.steps

theorem globals (h : Twins W μ m n) : RelatedAll W m.globals.toList n.globals.toList := by
  obtain ⟨r, s, hm⟩ := h.parts
  have hglobals := hm.globals
  rwa [RenamedAll, renamed_eq_related] at hglobals

theorem stack (h : Twins W μ m n) (hv : v ∈ m.stack.toList) : ∃ w, Related W v w := by
  obtain ⟨r, s, hm⟩ := h.parts
  have hstack := hm.stack
  rw [RenamedAll, renamed_eq_related] at hstack
  obtain ⟨i, hi⟩ := List.getElem?_of_mem hv
  have hget := getElem?_rel hstack i
  rw [hi] at hget
  generalize n.stack.toList[i]? = o at hget
  cases hget with
  | some hr => exact ⟨_, hr⟩

end Twins

theorem Mirrored.rebase (hh : Heap.Related W H K) (hm : Mirrored (W.renaming h k) μ r s m n) :
    Mirrored (W.renaming H K) μ r s { m with heap := H } { n with heap := K } := by
  have hle : (W.renaming h k).Le (W.renaming H K) := ⟨id, id, id, rfl⟩
  exact hm.grow hle hh.joins

/-- The world with the closures that a renaming knows, as they are in a heap. -/
def World.knowing (W : World) (ρ : Renaming) (h : Heap) : World :=
  { W with closures := fun r n => ρ.refs .closures r r ∧ (h.closureAt r).cells.size = n }

/-- What grows from the renaming of a world is the renaming of a world. -/
theorem World.renaming_grown (hs : k.closures.size = h.closures.size) (hg : (W.renaming h k).Growth ρ) (h' : Heap) :
    ρ = (W.knowing ρ h').renaming h k := by
  obtain ⟨refs, rfl, hold, hnew⟩ := hg
  simp only [World.renaming, World.knowing, Renaming.mk.injEq, and_true]
  funext t r s
  refine propext ⟨fun href => ?_, ?_⟩
  · have hrs : r = s ∧ (t ≠ .closures → W.Holds t r) := by
      rcases hnew href with ⟨rfl, hl⟩ | ⟨rfl, heq⟩
      · exact ⟨rfl, fun _ => hl⟩
      · simp only [World.renaming, hs] at heq
        exact ⟨Nat.add_right_cancel heq, fun hne => absurd rfl hne⟩
    obtain ⟨rfl, hl⟩ := hrs
    refine ⟨rfl, ?_⟩
    cases t with
    | closures => exact ⟨_, href, rfl⟩
    | _ => exact hl (by rintro ⟨⟩)
  · rintro ⟨rfl, hl⟩
    cases t with
    | closures =>
      obtain ⟨n, href, -⟩ := hl
      exact href
    | _ => exact hold ⟨rfl, hl⟩

theorem Onward.twins (hh : Heap.Related W h k) (hm : Onward (W.renaming h k) μ m n) : StillTwins W μ m n := by
  obtain ⟨ρ, r, s, hg, hm⟩ := hm
  have hρ := World.renaming_grown hh.closures_size hg m.heap
  have hle : W.Le (W.knowing ρ m.heap) := by
    refine ⟨_, rfl, fun r n hn => ⟨hg.le.refs ⟨rfl, n, hn⟩, ?_⟩⟩
    obtain ⟨hlt, hc⟩ := hh.closures r n hn
    have hlater := hm.heap.left.closures r
    rw [hg.left] at hlater
    rw [hlater hlt]
    exact hc.size
  rw [hρ] at hm
  have hrel : Heap.Related (W.knowing ρ m.heap) m.heap n.heap :=
    hm.heap.related hh.closures_size hh.left hh.right fun r n hn => hn.2
  exact ⟨W.knowing ρ m.heap, hle, hrel, r, s, hm.rebase hrel⟩

/-- A call of a uniform host leads from twins to twins. -/
theorem Mirrored.host_twins (hu : UniformHost host) (hh : Heap.Related W h k)
    (hm : Mirrored (W.renaming h k) μ r s m n) :
    Reflects (StillTwins W μ) Eq (callNative (host name) args m) (callNative (host name) args n) := by
  refine (InStep.popMany args).reflects_bind (Onward.twins hh) hm fun us ws m n hus hm => ?_
  refine InStep.pop.discard.reflects_bind (Onward.twins hh) hm fun _ _ m n _ hm => ?_
  have hpush {v w : Value} {H K : Heap} (hv : Related W v w) (hh : Heap.Related W H K) :
      Reflects (StillTwins W μ) Eq (pushNew v { m with heap := H }) (pushNew w { n with heap := K }) := by
    rw [← renamed_eq_related W H K] at hv
    exact (InStep.pushNew hv (hm.rebase hh)).reflects_grow (Onward.twins hh) (.refl _)
  rw [RenamedAll, renamed_eq_related] at hus
  have hres := hu W name us ws hus (hh.later hm.heap)
  show Reflects _ Eq (EStateM.bind (act _) pushNew m) (EStateM.bind (act _) pushNew n)
  unfold EStateM.bind act onHeap
  dsimp only
  generalize host name us m.heap = x, host name ws n.heap = y at hres ⊢
  cases hres with
  | ok hab hh' => exact hpush hab hh'
  | error hh' =>
    obtain ⟨hv, hj⟩ := hh'.joins.newError (.str _)
    rw [renamed_eq_related] at hv
    exact hpush hv (hh'.later hj)

/-! ## Steps of twins -/

theorem operandsAlike_of_same {ρ : Renaming} {code code' : Bytes} {op : Opcode} (hp : op.isPatched = false)
    (h : readOperands code' op.widths (o' + 1) = readOperands code op.widths (o + 1)) :
    OperandsAlike ρ μ env env' r s op code o code' o' := by
  cases op <;> first | exact h | cases hp

theorem Effect.constants {Λ : Sig} (h : Effect Λ i σ τ) : i.op.isPatched = false ∨
    (∃ k κ, i = ⟨.constant, [k]⟩ ∧ Λ.constant k κ) ∨ ∃ k n, i = ⟨.closure, [k, n]⟩ ∧ Λ.closure k n := by
  cases h with
  | @operation op _ _ h =>
    left
    cases op <;> first | rfl | cases h
  | constant h => exact .inr (.inl ⟨_, _, rfl, h⟩)
  | closure h => exact .inr (.inr ⟨_, _, rfl, h⟩)
  | load h => unfold Sig.Loads at h; split at h <;> first | exact .inl rfl | cases h
  | store h => unfold Sig.Stores at h; split at h <;> first | exact .inl rfl | cases h
  | storePart h => unfold Sig.StoresPart at h; split at h <;> first | exact .inl rfl | cases h
  | capture h => unfold Sig.Captures at h; split at h <;> first | exact .inl rfl | cases h
  | _ => exact .inl rfl

theorem Instruction.renumber_of_not_patched {i : Instruction} (h : i.op.isPatched = false) : i.renumber π = i := by
  unfold renumber
  split
  · cases h
  · cases h
  · rfl

theorem Continues.operandsAlike {code code' : Bytes} {locals free : Nat} (hle : W.Le W')
    (hgo : Continues (W.sig π env.constants env'.constants locals free) A o i σ) (hi : Stands code.toList o i)
    (hi' : Stands code'.toList o (i.renumber π)) (hb : ∃ n, W.body n r s) :
    OperandsAlike (W'.renaming h k) (W.mirror shape) env env' r s i.op code o code' o := by
  have hread := hi.operands
  have hread' := hi'.operands
  rw [Instruction.op_renumber] at hread'
  have hjump {t : Nat} {op : Opcode} (hw : op.widths = [2]) (hl : readOperands code op.widths (o + 1) = [t])
      (hr : readOperands code' op.widths (o + 1) = [t]) :
      (W.mirror shape).place r (readU16 code (o + 1)) s (readU16 code' (o + 1)) := by
    rw [hw] at hl hr
    exact ⟨(List.cons.inj hr).1.trans (List.cons.inj hl).1.symm, hb⟩
  cases hgo with
  | effect he =>
    rcases he.constants with hp | ⟨c, κ, rfl, v, w, hv, hw, hr, -⟩ | ⟨c, n, rfl, q, q', hq, hq', hbody⟩
    · refine operandsAlike_of_same hp ?_
      rw [hread', hread, Instruction.renumber_of_not_patched hp]
    · rw [← (List.cons.inj hread).1] at hv
      rw [← (List.cons.inj hread').1] at hw
      have hrenamed := hle.related hr
      rw [← renamed_eq_related W' h k] at hrenamed
      exact .found hv hw hrenamed
    · have hn : readU8 code (o + 3) = n := (List.cons.inj (List.cons.inj hread).2).1
      have hn' : readU8 code' (o + 3) = n := (List.cons.inj (List.cons.inj hread').2).1
      rw [← (List.cons.inj hread).1] at hq
      rw [← (List.cons.inj hread').1] at hq'
      refine ⟨hn'.trans hn.symm, .found hq hq' ?_⟩
      show W'.body _ q q'
      rw [hn, hle.body_eq]
      exact hbody
  | ret | retValue | suspend => exact operandsAlike_of_same rfl (hread'.trans hread.symm)
  | jump | jumpFalsy => exact hjump rfl hread hread'
  | @decide kind => cases kind <;> exact hjump rfl hread hread'

theorem Linked.sound (hL : Linked W π env env' shape) (hle : W.Le W') (hh : Heap.Related W' h k) :
    (W.mirror shape).Sound (W'.renaming h k) env env' := by
  have hleft (r : Ref) : h.routineAt r = W.left.getD r {} := by rw [← hle.left_eq, ← hh.left]; rfl
  have hright (s : Ref) : k.routineAt s = W.right.getD s {} := by rw [← hle.right_eq, ← hh.right]; rfl
  refine ⟨hL.limits, hL.host, fun {n r s} hb => ?_, ?_⟩
  · have hb : W.body n r s := hle.body_eq ▸ hb
    have halike := hL.uniform hb
    rw [← hleft, ← hright] at halike
    exact ⟨⟨rfl, n, hb⟩, halike.locals, halike.params, halike.variadic⟩
  · rintro r _ s o ⟨rfl, n, hb⟩ hstop
    obtain ⟨σ, hσ⟩ := Option.ne_none_iff_exists'.mp hstop
    let m : Machine := { heap := h, frame := { routine := r, next := o } }
    let m' : Machine := { heap := k, frame := { routine := s, next := o } }
    show FetchedAlike _ _ env env' r s o o m.fetch m'.fetch
    cases hL.placed hb hσ with
    | done left right =>
      rw [← hleft] at left
      rw [← hright] at right
      rw [fetch_of_end (m := m) left, fetch_of_end (m := m') right]
      exact .nothing
    | @code i _ left right next =>
      rw [← hleft] at left
      rw [← hright] at right
      rw [fetch_of_stands (m := m) left, fetch_of_stands (m := m') right, Instruction.op_renumber]
      exact .instruction i.op ⟨rfl, n, hb⟩ (next.operandsAlike hle left right ⟨n, hb⟩)

/-- **Twins stay twins** as long as the next instruction has a shape. -/
theorem step_twins (hL : Linked W0 π env env' shape) (hle : W0.Le W) (ht : Twins W (W0.mirror shape) m n)
    (hshape : shape m.frame.routine m.frame.next ≠ none) :
    Reflects (StillTwins W (W0.mirror shape)) Eq (step env m) (step env' n) := by
  obtain ⟨r, s, hm⟩ := ht.parts
  have hadmits : Admits (W.renaming m.heap n.heap) (W0.mirror shape) env (StillTwins W (W0.mirror shape)) :=
    ⟨Onward.twins ht.heap, fun name args hm => hm.host_twins hL.uniformHost ht.heap⟩
  rw [hm.left] at hshape
  exact step_reflects (hL.sound hle ht.heap) hadmits hm hshape

/-! ## Instructions -/

section Effects

variable {H : Heap → Prop} {c : Site} {σ τ : Shape} {Λ : Sig} {i : Instruction} {κ : Kind} {ks xs : List Kind}

theorem operation_safely (h : op.takes? = some xs.length) : Computes H c (xs ++ ks) ks (carryOut env ⟨op, []⟩) := by
  match xs with
  | [] =>
    cases op <;> simp [Opcode.takes?] at h
    · exact push_any
    · exact push_any
    · exact push_any
    · exact currentFunction_safely.bind fun _ => push_any
  | [_] =>
    cases op <;> simp [Opcode.takes?] at h
    · exact complement_safely
    · exact negate_safely
    · exact logicalNot_safely
    · exact makeError_safely
    · exact freeze_safely
    · exact startIteration_safely
    · exact iterationNext_safely
    · exact iterationPart_safely _
    · exact iterationPart_safely _
  | [_, _] =>
    cases op <;> simp [Opcode.takes?] at h
    · exact compareEqual_safely true
    · exact compareEqual_safely false
    · exact index_safely
  | [_, _, _] =>
    cases op <;> simp [Opcode.takes?] at h
    exact slice_safely
  | _ :: _ :: _ :: _ :: _ => cases op <;> simp [Opcode.takes?] at h

theorem load_safely (hl : c.frame.localsBase + Λ.locals ≤ c.locals)
    (hf : ∀ h, H h → h.Captured Λ.free c.frame.closure?) (h : Λ.Loads i) :
    Computes H c ks ks (carryOut env i) := by
  unfold Sig.Loads at h
  split at h
  · exact (getGlobal_safely _).bind fun _ => push_any
  · exact (getLocal_safely (by omega)).bind fun _ => push_any
  · exact (getFree_safely hf h).bind fun _ => push_any
  · exact pushBuiltin_safely h
  · cases h

theorem store_safely (hl : c.frame.localsBase + Λ.locals ≤ c.locals)
    (hf : ∀ h, H h → h.Captured Λ.free c.frame.closure?) (h : Λ.Stores i) :
    Safely (At H c ⟨κ :: ks, 0⟩) (carryOut env i) fun _ => At AnyHeap c ⟨ks, 0⟩ := by
  unfold Sig.Stores at h
  split at h
  · exact pop_bind fun _ => setGlobal_safely _
  · exact pop_bind fun _ => setLocal_safely (by omega)
  · exact pop_bind fun _ => defineLocal_safely (by omega)
  · exact pop_bind fun _ => setFree_safely hf h
  · cases h

theorem storePart_safely (hl : c.frame.localsBase + Λ.locals ≤ c.locals)
    (hf : ∀ h, H h → h.Captured Λ.free c.frame.closure?) (h : Λ.StoresPart i xs.length) :
    Safely (At H c ⟨xs ++ κ :: ks, 0⟩) (carryOut env i) fun _ => At AnyHeap c ⟨ks, 0⟩ := by
  have hne (hpos : 0 < xs.length) : xs ≠ [] := List.ne_nil_of_length_pos hpos
  unfold Sig.StoresPart at h
  split at h
  · obtain ⟨rfl, hpos⟩ := h
    exact assignSelected_safely (hne hpos) fun σ => getGlobal_safely _
  · obtain ⟨hlt, rfl, hpos⟩ := h
    exact assignSelected_safely (hne hpos) fun σ => getLocal_safely (by omega)
  · obtain ⟨hlt, rfl, hpos⟩ := h
    exact assignSelected_safely (hne hpos) fun σ => getFree_safely hf hlt
  · cases h

theorem captures_safely (hl : c.frame.localsBase + Λ.locals ≤ c.locals)
    (hf : ∀ h, H h → h.Captured Λ.free c.frame.closure?) (h : Λ.Captures i) :
    Safely (At H c ⟨ks, p⟩) (carryOut env i) fun _ => At AnyHeap c ⟨ks, p + 1⟩ := by
  unfold Sig.Captures at h
  split at h
  · exact (shareLocal_safely (by omega)).bind fun _ => capture_safely
  · exact (freeCell_safely hf h).bind fun _ => capture_safely
  · exact currentFunction_safely.bind fun _ => (make_safely _).bind fun _ => capture_safely
  · cases h

/-- **What an instruction does, it does safely.** Calls are treated on their own. -/
theorem effect_safely {locals free : Nat} (hl : c.frame.localsBase + locals ≤ c.locals)
    (hf : ∀ h, H h → h.Captured free c.frame.closure?) (hne : i.op ≠ .call)
    (h : Effect (W.sig π env.constants env'.constants locals free) i σ τ) :
    Safely (At H c σ) (carryOut env i) fun _ => At AnyHeap c τ := by
  cases h with
  | operation h => exact operation_safely h
  | pop => exact pop_safely.discard fun _ _ h => h.2.anyHeap
  | @constant k κ ks h =>
    obtain ⟨v, w, hv, -, -, hk⟩ := h
    show Safely _ (do push (← constant env k)) _
    rw [constant_of_some hv]
    exact push_safely hk
  | load h => exact load_safely hl hf h
  | store h => exact store_safely hl hf h
  | storePart h => exact storePart_safely hl hf h
  | binary h => exact applyBinary_safely h
  | array => exact makeArray_safely
  | map => exact makeMap_safely _
  | call => exact absurd rfl hne
  | capture h => exact captures_safely hl hf h
  | closure h =>
    obtain ⟨r, s, hr, -, -⟩ := h
    exact makeClosure_safely hr

end Effects

/-! ## Frames -/

/-- **The callers of a frame**, innermost first, with the stack and the number of local variables below
it. Each one waits at an offset whose shape has the result on top of the operands it had below the
callee. -/
inductive Chain (routines : Array Routine) (shape : Ref → Nat → Option Shape) : List Frame → List Value → Nat → Prop
  | nil : Chain routines shape [] [] 0
  | cons {f fs low vs} {ks : List Kind} {locals}
    (waits : shape f.routine f.next = some ⟨.any :: ks, 0⟩) (kinds : List.Forall₂ Kind.Has ks vs)
    (base : f.stackBase = low.length) (room : f.localsBase + (routines.getD f.routine {}).locals ≤ locals)
    (rest : Chain routines shape fs low f.localsBase) :
    Chain routines shape (f :: fs) (low ++ vs.reverse) locals

/-- A frame with `n` captured variables, called through a closure that a world knows or not. -/
def World.Captured (W : World) (n : Nat) : Option Ref → Prop
  | none => n = 0
  | some r => W.closures r n

/-- A frame that runs a function of the program. -/
def Frame.Known (W : World) (f : Frame) : Prop := ∃ n s, W.body n f.routine s ∧ W.Captured n f.closure?

/-- The site is one of a program that runs: its frame has room and lies on top of its callers. -/
structure Site.Sound (W : World) (shape : Ref → Nat → Option Shape) (c : Site) : Prop where
  base : c.frame.stackBase = c.low.length
  room : c.frame.localsBase + (W.left.getD c.frame.routine {}).locals ≤ c.locals
  callers : Chain W.left shape c.callers.toList.reverse c.low c.frame.localsBase
  known : ∀ f ∈ c.callers.push c.frame, f.Known W

/-- **The invariant of a run**: the next instruction has the shape of the operand stack. -/
structure Running (W : World) (shape : Ref → Nat → Option Shape) (c : Site) (σ : Shape) (m : Machine) : Prop where
  place : At AnyHeap c σ m
  shaped : shape c.frame.routine c.frame.next = some σ
  sound : c.Sound W shape

theorem Running.mono (hle : W.Le W') (h : Running W shape c σ m) : Running W' shape c σ m := by
  have hknown (f : Frame) (hf : f.Known W) : f.Known W' := by
    obtain ⟨C, rfl, hC⟩ := hle
    obtain ⟨n, s, hb, hc⟩ := hf
    refine ⟨n, s, hb, ?_⟩
    generalize f.closure? = closure? at hc ⊢
    cases closure? with
    | none => exact hc
    | some r => exact hC r n hc
  have hs := h.sound
  refine { h with sound := ⟨hs.base, ?_, ?_, fun f hf => hknown f (hs.known f hf)⟩ }
  · rw [hle.left_eq]
    exact hs.room
  · rw [hle.left_eq]
    exact hs.callers

/-- The number of arguments on the stack for the call that comes next. -/
def Machine.argumentCount? (m : Machine) : Option Nat :=
  match m.fetch with
  | .instruction .call code offset => some (readU8 code (offset + 1))
  | _ => none

/-- **How a step moves between frames**: it stays in the frame, opens one on top of what lies below callee
and arguments, or goes back to the caller and leaves the result there. -/
inductive Move (m m' : Machine) (c c' : Site) : Prop
  | stay (callers : c'.callers = c.callers) (base : c'.frame.stackBase = c.frame.stackBase) (low : c'.low = c.low)
  | enter {f vs top args} (callers : c'.callers = c.callers.push f)
    (base : f.stackBase = c.frame.stackBase) (low : c'.low = c.low ++ vs)
    (stack : m.stack.toList = c'.low ++ top) (count : m.argumentCount? = some args)
    (length : top.length = args + 1)
  | leave {vs} {v : Value} (callers : c.callers = c'.callers.push c'.frame)
    (low : c.low = c'.low ++ vs) (stack : m'.stack.toList = c.low ++ [v])

/-- After a step that began at the site `c`: the run has ended, or it goes on. -/
inductive Stepped (W : World) (shape : Ref → Nat → Option Shape) (c : Site) (m : Machine) : Bool → Machine → Prop
  | ended {m'} : Stepped W shape c m true m'
  | moved {c' : Site} {σ : Shape} {m'} (move : Move m m' c c') (running : Running W shape c' σ m') :
    Stepped W shape c m false m'

section Steps

variable {H : Heap → Prop} {c c' : Site} {σ : Shape} {ks xs : List Kind} {κ : Kind} {m n m0 : Machine} {v w : Value}

theorem finish_stepped (hs : c.Sound W shape) (h : At H c ⟨ks, 0⟩ m) : Safe (Stepped W shape c m0) (finish v m) := by
  obtain ⟨hbase, hroom, hchain, hknown⟩ := hs
  generalize hfs : c.callers.toList.reverse = fs at hchain
  generalize hlow : c.low = low at hchain
  generalize hlocals : c.frame.localsBase = locals at hchain
  cases hchain with
  | nil =>
    have hc : c.callers = #[] := by simpa using hfs
    refine (finish_last hc h).imp fun b m' hb => ?_
    subst hb
    exact .ended
  | @cons f fs low vs ls locals waits kinds base room rest =>
    have hc : c.callers = fs.reverse.toArray.push f := by
      apply toList_inj.mp
      rw [← List.reverse_reverse c.callers.toList, hfs]
      simp
    refine (finish_safely hc hlow kinds hbase (by omega) h).imp fun b m' hb => ?_
    obtain ⟨rfl, hstack, hat⟩ := hb
    refine .moved (.leave hc hlow hstack) ⟨hat, waits, base, hlocals ▸ room, by simpa using rest, fun g hg => ?_⟩
    exact hknown g (mem_push.mpr (.inl (hc ▸ hg)))

def Site.fetched (c : Site) (o length : Nat) : Site :=
  { c with frame := { c.frame with current := o, next := o + length } }

/-- Nothing that is known of a frame depends on where it is. -/
theorem Site.Sound.fetched (h : c.Sound W shape) (o length : Nat) : (c.fetched o length).Sound W shape := by
  refine ⟨h.base, h.room, h.callers, fun f hf => ?_⟩
  rcases mem_push.mp hf with hf | rfl
  · exact h.known f (mem_push.mpr (.inl hf))
  · exact h.known c.frame (mem_push.mpr (.inr rfl))

theorem At.fetched (h : At H c σ m) (o length : Nat) : At H (c.fetched o length) σ
    { m with frame := { m.frame with current := o, next := o + length } } :=
  { h with frame := by rw [h.frame]; rfl }

theorem At.lower (h : At H c ⟨xs ++ κ :: ks, 0⟩ m) : ∃ v vs us, List.Forall₂ Kind.Has ks vs ∧
    us.length = xs.length + 1 ∧ v ∈ m.stack.toList ∧ m.stack.toList = c.low ++ vs.reverse ++ us ∧
    At H (Site.over { c with low := c.low ++ vs.reverse } v) ⟨xs, 0⟩ m := by
  obtain ⟨ws, hs, hk⟩ := h.stack
  obtain ⟨us, vs, rfl, hxu, hkv⟩ := forall₂_append_left hk
  cases hkv with
  | @cons _ v _ vs _ hkv =>
    refine ⟨v, vs, v :: us.reverse, hkv, by simp [hxu.length_eq], by simp [hs], by simp [hs],
      { h with captures := h.captures, stack := ⟨us, ?_, hxu⟩ }⟩
    simp [hs, Site.over]

theorem At.raise (hk : List.Forall₂ Kind.Has ks vs)
    (h : At H { c with low := c.low ++ vs.reverse } ⟨xs, 0⟩ m) : At H c ⟨xs ++ ks, 0⟩ m := by
  obtain ⟨us, hs, hxu⟩ := h.stack
  refine { h with captures := h.captures, stack := ⟨us ++ vs, ?_, List.rel_append hxu hk⟩ }
  rw [hs, List.reverse_append, List.append_assoc]

theorem Runs.known (hh : Heap.Related W h k) (hv : Related W v w) (hrun : Runs h v r closure?) :
    ∃ n s, W.body n r s ∧ W.Captured n closure? := by
  cases hrun with
  | function r =>
    cases hv with
    | same hl => exact hl.elim
    | function hb => exact ⟨0, _, hb, rfl⟩
  | closure r =>
    cases hv with
    | same hl =>
      obtain ⟨n, hn⟩ := hl
      exact ⟨n, _, (hh.closures r n hn).2.body, hn⟩

theorem call_stepped (hL : Linked W0 π env env' shape) (hle : W0.Le W) (hh : Heap.Related W m.heap k)
    (hstack : ∀ v ∈ m.stack.toList, ∃ w, Related W v w) (hs : c.Sound W shape)
    (hnext : shape c.frame.routine c.frame.next = some ⟨.any :: ks, 0⟩)
    (hcount : m0.argumentCount? = some xs.length) (hm0 : m0.stack = m.stack)
    (h : At (· = m.heap) c ⟨xs ++ κ :: ks, 0⟩ m) :
    Safe (fun _ => Stepped W shape c m0 false) (call env xs.length spread m) := by
  obtain ⟨v, vs, us, hk, hlen, hv, hst, hlow⟩ := h.lower
  refine (call_safely env spread hlow).imp fun _ m' hcalled => ?_
  rcases hcalled with hat | ⟨frame, locals, hrun, hzero, hlb, hsb, hroom, hat⟩
  · exact .moved (.stay rfl rfl rfl) ⟨hat.raise hk, hnext, hs⟩
  · obtain ⟨w, hw⟩ := hstack v hv
    obtain ⟨n, s, hb, hcap⟩ := hrun.known hh hw
    refine .moved (.enter rfl rfl rfl (hm0 ▸ hst) hcount hlen) ⟨hat, ?_, hsb, ?_, ?_, fun f hf => ?_⟩
    · rw [hzero]
      exact hL.start (hle.body_eq ▸ hb)
    · rw [← hh.left]
      exact hlb ▸ hroom
    · simp only [toList_push, List.reverse_append, List.reverse_cons, List.reverse_nil,
        List.nil_append, List.cons_append]
      exact .cons hnext hk hs.base (hlb ▸ hs.room) hs.callers
    · rcases mem_push.mp hf with hf | rfl
      · exact hs.known f hf
      · exact ⟨n, s, hb, hcap⟩

theorem At.stepped (hs : c.Sound W shape) (hnext : shape c.frame.routine c.frame.next = some σ)
    (h : At AnyHeap c σ m) : Stepped W shape c m0 false m :=
  .moved (.stay rfl rfl rfl) ⟨h, hnext, hs⟩

theorem At.jumped (hs : c.Sound W shape) (hnext : shape c.frame.routine target = some σ)
    (h : At AnyHeap (c.goto target) σ m) : Stepped W shape c m0 false m := by
  have hmove : Move m0 m c (c.goto target) := .stay rfl rfl rfl
  refine .moved hmove ⟨h, hnext, hs.base, hs.room, hs.callers, fun f hf => ?_⟩
  rcases mem_push.mp hf with hf | rfl
  · exact hs.known f (mem_push.mpr (.inl hf))
  · exact hs.known c.frame (mem_push.mpr (.inr rfl))

/-! ## Steps -/

theorem obey_of_carryOut (hr : i.op ≠ .ret) (hs : i.op ≠ .suspend) :
    obey env i = (do carryOut env i; return false) := by
  unfold obey
  split
  · exact absurd rfl hs
  · exact absurd rfl hr
  · rfl

theorem Safe.andFalse (h : Safe (fun _ => Stepped W shape c m0 false) (x m)) :
    Safe (Stepped W shape c m0) ((do x; return false : Exec Bool) m) := by
  show Safe _ (EStateM.bind x _ m)
  unfold EStateM.bind
  generalize x m = r at h ⊢
  cases h with
  | ok h => exact .ok h
  | error he => exact .error he

/-- An instruction that acts on the stack ends no function, and a call finds the callee below its arguments. -/
theorem Effect.inv (h : Effect Λ i σ τ) : (i.op ≠ .ret ∧ i.op ≠ .suspend) ∧
    (i.op = .call → ∃ (spread : Nat) (κ : Kind) (xs ks : List Kind),
      i = ⟨.call, [xs.length, spread]⟩ ∧ σ = ⟨xs ++ κ :: ks, 0⟩ ∧ τ = ⟨.any :: ks, 0⟩) := by
  cases h with
  | call => exact ⟨by simp, fun _ => ⟨_, _, _, _, rfl, rfl, rfl⟩⟩
  | operation h => refine ⟨⟨?_, ?_⟩, ?_⟩ <;> (rintro rfl; cases h)
  | load h => unfold Sig.Loads at h; split at h <;> simp_all
  | store h => unfold Sig.Stores at h; split at h <;> simp_all
  | storePart h => unfold Sig.StoresPart at h; split at h <;> simp_all
  | capture h => unfold Sig.Captures at h; split at h <;> simp_all
  | _ => simp

/-- **An instruction with its ways to go on.** The machine is the one that has fetched it. -/
theorem obey_stepped (hL : Linked W0 π env env' shape) (hle : W0.Le W) (hh : Heap.Related W m.heap k)
    (hvalues : ∀ v ∈ m.stack.toList, ∃ w, Related W v w) (hs : c.Sound W shape)
    (ho : c.frame.next = o + i.op.length) (hf : m.heap.Captured free c.frame.closure?)
    (hnext : Continues (W0.sig π env.constants env'.constants (W.left.getD c.frame.routine {}).locals free)
      (fun o σ => shape c.frame.routine o = some σ) o i σ)
    (h : At (· = m.heap) c σ m)
    (hcount : ∀ args spread, i = ⟨.call, [args, spread]⟩ → m0.argumentCount? = some args)
    (hstack : m0.stack = m.stack) : Safe (Stepped W shape c m0) (obey env i m) := by
  cases hnext with
  | @effect i σ τ he hafter =>
    rw [obey_of_carryOut he.inv.1.1 he.inv.1.2]
    refine Safe.andFalse ?_
    rw [← ho] at hafter
    by_cases hcall : i.op = .call
    · obtain ⟨spread, κ, xs, ks, rfl, rfl, rfl⟩ := he.inv.2 hcall
      exact call_stepped hL hle hh hvalues hs hafter (hcount _ _ rfl) hstack h
    · exact (effect_safely hs.room (fun _ heq => heq ▸ hf) hcall he h).imp fun _ _ hat => hat.stepped hs hafter
  | ret => exact finish_stepped hs h
  | retValue =>
    refine (pop_bind (Q := Stepped W shape c m0) fun v => ?_) h
    exact fun m h => finish_stepped hs h
  | suspend => exact .ok .ended
  | jump ht =>
    refine Safe.andFalse ?_
    exact (jump_safely _ h).imp fun _ _ hat => hat.jumped hs ht
  | jumpFalsy hfall ht =>
    refine Safe.andFalse ((jumpFalsy_safely _ h).imp fun _ _ hat => ?_)
    exact hat.elim (·.jumped hs ht) (·.stepped hs (ho ▸ hfall))
  | @decide kind t κ ks hk hfall ht =>
    have hdecide (decisive : Bool) : Safe (fun _ => Stepped W shape c m0 false) (jumpDecided decisive t m) := by
      refine (jumpDecided_safely decisive t h).imp fun _ _ hat => hat.elim (·.jumped hs ht) (·.stepped hs ?_)
      rw [ho]
      cases kind <;> exact hfall
    cases kind with
    | falsy => exact absurd rfl hk
    | andAlso => exact Safe.andFalse (hdecide false)
    | orElse => exact Safe.andFalse (hdecide true)

/-- To have counted and fetched an instruction makes no difference to where a step leads. -/
theorem Stepped.of_fetched (h : Stepped W shape (c.fetched o length) m.counted b m') : Stepped W shape c m b m' := by
  cases h with
  | ended => exact .ended
  | moved hmove hrun =>
    refine .moved ?_ hrun
    cases hmove with
    | stay callers base low => exact .stay callers base low
    | enter callers base low stack count length => exact .enter callers base low stack count length
    | leave callers low stack => exact .leave callers low stack

theorem exceeded?_sound {steps height : Nat} (h : exceeded? limits steps height = some fault) :
    fault.isBrokenCode = false := by
  unfold exceeded? at h
  split at h
  · cases h; rfl
  · split at h <;> cases h
    rfl

/-- **One step of a run.** -/
theorem step_safely (hL : Linked W0 π env env' shape) (hle : W0.Le W) (ht : Twins W μ m n)
    (h : Running W shape c σ m) : Safe (Stepped W shape c m) (step env m) := by
  have hat := h.place
  obtain ⟨free, s, hb, hcap⟩ := h.sound.known c.frame (mem_push.mpr (.inr rfl))
  rw [hle.body_eq] at hb
  have hleft : m.heap.routineAt m.frame.routine = W0.left.getD c.frame.routine {} := by
    rw [hat.frame, ← hle.left_eq, ← ht.heap.left]
    rfl
  have hf : m.heap.Captured free c.frame.closure? := by
    generalize c.frame.closure? = closure? at hcap
    cases closure? with
    | none => exact hcap
    | some r => exact (ht.heap.closures r free hcap).2.size
  have hnext : m.frame.next = c.frame.next := by rw [hat.frame]
  cases hex : exceeded? env.limits (m.steps + 1) m.stack.size with
  | some fault =>
    rw [step_eq]
    show Safe _ (EStateM.bind _ _ m)
    unfold EStateM.bind
    rw [countStep_eq, hex]
    exact .error (exceeded?_sound hex)
  | none =>
    cases hL.placed hb h.shaped with
    | done hend =>
      rw [← hleft, ← hnext] at hend
      have hm : m.counted.fetch = .nothing := fetch_of_end hend
      rw [step_eq]
      show Safe _ (EStateM.bind _ _ m)
      unfold EStateM.bind
      rw [countStep_eq, hex]
      simp only [dispatch, hm]
      exact finish_stepped h.sound { hat with }
    | @code i _ hi _ hgo =>
      rw [← hleft, ← hnext] at hi
      rw [step_eq_obey hex hi]
      have hcount args spread (hcall : i = ⟨.call, [args, spread]⟩) : m.counted.argumentCount? = some args := by
        subst hcall
        have hm : m.counted.fetch = _ := fetch_of_stands hi
        simp only [argumentCount?, hm]
        exact congrArg some (List.cons.inj hi.operands).1
      have hcounted : At (· = m.heap) c σ m.counted := { hat with heap := rfl }
      have hfetched := hcounted.fetched m.counted.frame.next i.op.length
      rw [← hle.left_eq, ← hnext] at hgo
      have hstep := obey_stepped (m := m.counted.past i.op.length) hL hle ht.heap (fun _ => ht.stack)
        (h.sound.fetched ..) rfl hf hgo hfetched hcount rfl
      exact hstep.imp fun _ _ hstepped => hstepped.of_fetched

/-! ## Runs -/

theorem trace_eq (hL : Linked W0 π env env' shape) (hle : W0.Le W) (ht : Twins W (W0.mirror shape) m n)
    (files : FileSet) : n.trace files = m.trace files := by
  obtain ⟨r, s, hm⟩ := ht.parts
  have hplace {f g : Frame} (hfg : Frame.Renamed (W.renaming m.heap n.heap) (W0.mirror shape) f g) :
      (n.heap.routineAt g.routine).positions.find g.current =
        (m.heap.routineAt f.routine).positions.find f.current := by
    obtain ⟨hcurrent, k, hb⟩ := hfg.current
    have halike := (hL.uniform hb).positions
    rw [← hle.left_eq, ← hle.right_eq, ← ht.heap.left, ← ht.heap.right] at halike
    rw [hcurrent]
    exact congrArg (·.find f.current) halike
  have hframes := List.Forall₂.cons hm.frame (List.rel_reverse hm.callers)
  have hpositions : n.positions = m.positions := map_eq_of_rel (fun _ _ => hplace) hframes
  rw [Machine.trace, Machine.trace, hpositions]

/-- The run does not end because the code is broken. -/
def Outcome.Sound (o : Outcome) : Prop := ∀ e, o = .failed e → e.fault.isBrokenCode = false

/-- **Twin runs end alike**, in related states. -/
theorem runFor_lockstep (hL : Linked W0 π env env' shape) (files : FileSet) : ∀ (fuel : Nat) {W : World} {c : Site}
    {σ : Shape} {m n : Machine}, W0.Le W → Twins W (W0.mirror shape) m n → Running W shape c σ m →
      (runFor env' files fuel n).1 = (runFor env files fuel m).1 ∧ (runFor env files fuel m).1.Sound ∧
        ∃ W', W0.Le W' ∧ Twins W' (W0.mirror shape) (runFor env files fuel m).2 (runFor env' files fuel n).2
  | 0, W, _, _, _, _, hle, ht, _ => ⟨rfl, (by rintro _ ⟨⟩), W, hle, ht⟩
  | fuel + 1, W, c, σ, m, n, hle, ht, h => by
    have hsafe := step_safely hL hle ht h
    have hshape : shape m.frame.routine m.frame.next ≠ none := by
      rw [h.place.frame, h.shaped]
      exact Option.some_ne_none _
    have hstep := step_twins hL hle ht hshape
    unfold runFor
    generalize step env m = p, step env' n = q at hsafe hstep ⊢
    cases hstep with
    | error htwins =>
      obtain ⟨W', hle', ht'⟩ := htwins
      cases hsafe with
      | error he =>
        refine ⟨?_, ?_, W', hle.trans hle', ht'⟩
        · simp only [trace_eq hL (hle.trans hle') ht' files]
        · rintro e' ⟨⟩
          exact he
    | ok hb htwins =>
      subst hb
      obtain ⟨W', hle', ht'⟩ := htwins
      cases hsafe with
      | ok hstepped =>
        cases hstepped with
        | ended => exact ⟨rfl, (by rintro _ ⟨⟩), W', hle.trans hle', ht'⟩
        | moved _ hrun => exact runFor_lockstep hL files fuel (hle.trans hle') ht' (hrun.mono hle')

end Steps

end Scripting
