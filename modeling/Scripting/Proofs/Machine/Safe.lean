import Mathlib.Data.List.Forall2
import Scripting.Machine.Step
import Scripting.Proofs.Code.Shape
/-!
# `Proofs.Machine.Safe` — computations that never break the machine

What holds between instructions is `At H c σ`: the machine is at the site `c` (its frame, its callers and the
stack below the frame), the operand stack of the frame has shape `σ`, and the heap is in `H`. `Safely P x Q` says
that from states in `P`, a computation ends in `Q` or with a fault, which is never one of broken code.

Each operation of the machine takes its operands off the stack and leaves its result, given operands of the right
number; the keys of a map literal must be known to be texts. What the values are does not matter otherwise.
-/

namespace Scripting

open Machine

/-! ## Sites -/

/-- The place of a machine apart from its operands: the running frame, its callers, the number of all
local variables, and the stack below the frame. -/
structure Site where
  frame : Frame
  callers : Array Frame
  locals : Nat
  low : List Value

/-- Nothing is said of the heap. -/
abbrev AnyHeap (_ : Heap) : Prop := True

/-- **Between instructions**: a machine at a site, with operands of a shape. -/
structure At (H : Heap → Prop) (c : Site) (σ : Shape) (m : Machine) : Prop where
  heap : H m.heap
  frame : m.frame = c.frame
  callers : m.callers = c.callers
  locals : m.locals.size = c.locals
  captures : m.captures.size = σ.pending
  stack : ∃ vs, m.stack.toList = c.low ++ vs.reverse ∧ List.Forall₂ Kind.Has σ.slots vs

/-! ## Safe computations -/

/-- Success with a result and a state in `Q`, or a fault that is not one of broken code. -/
inductive Safe {α : Type} (Q : α → Machine → Prop) : EStateM.Result Fault Machine α → Prop
  | ok {a m} (h : Q a m) : Safe Q (.ok a m)
  | error {e m} (sound : e.isBrokenCode = false) : Safe Q (.error e m)

theorem Safe.imp (h : Safe Q r) (hq : ∀ a m, Q a m → Q' a m) : Safe Q' r := by
  cases h with
  | ok h => exact .ok (hq _ _ h)
  | error he => exact .error he

/-- From states in `P`, the computation ends safely in `Q`. -/
def Safely {α : Type} (P : Machine → Prop) (x : Exec α) (Q : α → Machine → Prop) : Prop :=
  ∀ ⦃m : Machine⦄, P m → Safe Q (x m)

namespace Safely

variable {α β : Type} {P P' : Machine → Prop} {x : Exec α} {Q Q' : α → Machine → Prop} {R : β → Machine → Prop}

theorem pure (h : ∀ m, P m → Q a m) : Safely P (pure a : Exec α) Q := fun m hp => .ok (h m hp)

theorem throw (he : e.isBrokenCode = false) : Safely P (throw e : Exec α) Q := fun _ _ => .error he

theorem bind (hx : Safely P x Q) (hf : ∀ a, Safely (Q a) (f a) R) : Safely P (x >>= f) R := by
  intro m hp
  show Safe R (EStateM.bind x f m)
  unfold EStateM.bind
  have hx := hx hp
  generalize x m = r at hx ⊢
  cases hx with
  | ok h => exact hf _ h
  | error he => exact .error he

theorem weaken (hx : Safely P x Q) (hp : ∀ m, P' m → P m) (hq : ∀ a m, Q a m → Q' a m) : Safely P' x Q' :=
  fun m h => (hx (hp m h)).imp hq

theorem assume (h : p → Safely P x Q) : Safely (fun m => p ∧ P m) x Q := fun _ hp => h hp.1 hp.2

theorem discard {Q' : Unit → Machine → Prop} (hx : Safely P x Q) (hq : ∀ a m, Q a m → Q' () m) :
    Safely P (Functor.discard x) Q' :=
  hx.bind (f := fun _ => Pure.pure ()) fun a m h => .ok (hq a m h)

end Safely

theorem Machine.get_bind (k : Machine → Exec α) (m : Machine) : (get >>= k) m = k m m := rfl

/-! ## The stack -/

theorem forall₂_append_left : ∀ {xs xs' : List α} {zs : List β}, List.Forall₂ R (xs ++ xs') zs →
      ∃ ys ys', zs = ys ++ ys' ∧ List.Forall₂ R xs ys ∧ List.Forall₂ R xs' ys'
  | [], _, zs, h => ⟨[], zs, rfl, .nil, h⟩
  | _ :: _, _, _ :: _, .cons hab ht => by
    obtain ⟨ys, ys', rfl, h1, h2⟩ := forall₂_append_left ht
    exact ⟨_ :: ys, ys', rfl, .cons hab h1, h2⟩

section

variable {H : Heap → Prop} {c : Site} {κ κ' κ'' : Kind} {ks xs : List Kind} {p : Nat} {σ : Shape} {v : Value}

theorem At.anyHeap (h : At H c σ m) : At AnyHeap c σ m := { h with heap := trivial }

theorem push_safely (hk : κ.Has v) : Safely (At H c ⟨ks, p⟩) (push v) fun _ => At AnyHeap c ⟨κ :: ks, p⟩ := by
  intro m h
  obtain ⟨vs, hs, hks⟩ := h.stack
  exact .ok { h with heap := trivial, stack := ⟨v :: vs, by simp [hs], .cons hk hks⟩ }

theorem push_any : Safely (At H c ⟨ks, p⟩) (push v) fun _ => At AnyHeap c ⟨.any :: ks, p⟩ :=
  push_safely (Kind.any_has v)

theorem At.operands (h : At H c ⟨xs ++ ks, p⟩ m) :
    ∃ us vs, m.stack = ((c.low ++ vs.reverse) ++ us.reverse).toArray ∧ List.Forall₂ Kind.Has xs us ∧
      List.Forall₂ Kind.Has ks vs := by
  obtain ⟨ws, hs, hks⟩ := h.stack
  obtain ⟨us, vs, rfl, hxu, hkv⟩ := forall₂_append_left hks
  refine ⟨us, vs, ?_, hxu, hkv⟩
  apply Array.toList_inj.mp
  rw [hs, List.reverse_append, ← List.append_assoc]

theorem popMany_of_stack {as bs : List Value} (hm : m.stack = (as ++ bs).toArray) :
    popMany bs.length m = .ok bs { m with stack := as.toArray } := by
  simp only [popMany, hm]
  simp

theorem popMany_safely (hk : xs.length = k) : Safely (At H c ⟨xs ++ ks, p⟩) (popMany k) fun us m =>
    List.Forall₂ Kind.Has xs.reverse us ∧ At H c ⟨ks, p⟩ m := by
  intro m h
  obtain ⟨us, vs, hm, hxu, hkv⟩ := h.operands
  have hlen : us.reverse.length = k := by rw [List.length_reverse, ← hxu.length_eq, hk]
  rw [← hlen, popMany_of_stack hm]
  exact .ok ⟨List.rel_reverse hxu, { h with captures := h.captures, stack := ⟨vs, rfl, hkv⟩ }⟩

theorem pop_safely : Safely (At H c ⟨κ :: ks, p⟩) pop fun v m => κ.Has v ∧ At H c ⟨ks, p⟩ m := by
  intro m h
  obtain ⟨us, hs, hk⟩ := h.stack
  cases hk with
  | @cons _ v _ vs hv hk =>
    have hm : m.stack = (c.low ++ vs.reverse).toArray.push v := by
      apply Array.toList_inj.mp
      simp [hs]
    simp only [pop, hm, Array.back?_push, Array.pop_push]
    exact .ok ⟨hv, { h with captures := h.captures, stack := ⟨vs, rfl, hk⟩ }⟩

theorem peek_safely : Safely (At H c ⟨κ :: ks, p⟩) peek fun _ => At H c ⟨κ :: ks, p⟩ := by
  intro m h
  obtain ⟨us, hs, hk⟩ := h.stack
  cases hk with
  | @cons _ v _ vs hv hk =>
    have hm : m.stack = (c.low ++ vs.reverse).toArray.push v := by
      apply Array.toList_inj.mp
      simp [hs]
    simp only [peek, hm, Array.back?_push]
    exact .ok h

/-- The computation takes its operands, on top of `ks`, and leaves a result there. -/
abbrev Computes (H : Heap → Prop) (c : Site) (slots ks : List Kind) (x : Exec α) : Prop :=
  Safely (At H c ⟨slots, 0⟩) x fun _ => At AnyHeap c ⟨.any :: ks, 0⟩

theorem pop_bind (h : ∀ v, Safely (At H c ⟨ks, 0⟩) (f v) Q) : Safely (At H c ⟨κ :: ks, 0⟩) (pop >>= f) Q :=
  pop_safely.bind fun v => .assume fun _ => h v

/-! ## Limits and the heap -/

theorem countAllocation_safely : Safely (At H c σ) countAllocation fun _ => At H c σ := by
  intro m h
  unfold countAllocation
  split
  · exact .ok h
  · split
    · exact .error rfl
    · exact .ok { h with }

theorem pushNew_any : Safely (At H c ⟨ks, p⟩) (pushNew v) fun _ => At AnyHeap c ⟨.any :: ks, p⟩ :=
  countAllocation_safely.bind fun _ => push_any

theorem onHeap_safely (hs : ∀ h e, (f h e).isBrokenCode = false) :
    Safely (At H c σ) (onHeap f x) fun _ => At AnyHeap c σ := by
  intro m h
  unfold onHeap
  dsimp only
  cases x m.heap with
  | ok a k => exact .ok { h with heap := trivial }
  | error e k => exact .error (hs k e)

theorem act_safely (x : Action α) : Safely (At H c σ) (act x) fun _ => At AnyHeap c σ := onHeap_safely fun _ _ => rfl

theorem make_safely (f : Heap → α × Heap) : Safely (At H c σ) (make f) fun _ => At AnyHeap c σ := act_safely _

theorem readHeap_safely (f : Heap → α) : Safely (At H c σ) (readHeap f) fun a m => (∃ h, H h ∧ a = f h) ∧ At H c σ m :=
  fun _ h => .ok ⟨⟨_, h.heap, rfl⟩, h⟩

theorem readHeap_bind (h : ∀ a, Safely (At H c σ) (g a) Q) : Safely (At H c σ) (readHeap f >>= g) Q :=
  (readHeap_safely f).bind fun a => .assume fun _ => h a

theorem pushMade_safely (f : Heap → Value × Heap) : Safely (At H c ⟨ks, 0⟩)
    (do countAllocation; push (← make f)) fun _ => At AnyHeap c ⟨.any :: ks, 0⟩ :=
  countAllocation_safely.bind fun _ => (make_safely f).bind fun _ => push_any

theorem refuse_safely (hc : ∀ s, (cause s).isBrokenCode = false) : Safely (At H c σ) (refuse cause v) Q :=
  readHeap_bind fun s => .throw (hc s)

/-! ## Variables -/

theorem localSlot_safely (hi : c.frame.localsBase + i < c.locals) :
    Safely (At H c σ) (localSlot i) fun _ => At H c σ := by
  intro m h
  have hlt : m.frame.localsBase + i < m.locals.size := by rw [h.frame, h.locals]; exact hi
  unfold localSlot
  rw [Array.getElem?_eq_getElem hlt]
  exact .ok h

theorem setSlot_safely : Safely (At H c σ) (setSlot i slot) fun _ => At H c σ :=
  fun m h => .ok { h with locals := by rw [← h.locals]; simp }

theorem getLocal_safely (hi : c.frame.localsBase + i < c.locals) : Safely (At H c σ) (getLocal i) fun _ => At H c σ :=
  (localSlot_safely hi).bind fun _ => (readHeap_safely _).weaken (fun _ h => h) fun _ _ h => h.2

theorem setLocal_safely (hi : c.frame.localsBase + i < c.locals) :
    Safely (At H c σ) (setLocal i v) fun _ => At AnyHeap c σ := by
  refine (localSlot_safely hi).bind fun slot => ?_
  cases slot with
  | plain _ => exact setSlot_safely.weaken (fun _ h => h) fun _ _ h => h.anyHeap
  | shared _ => exact act_safely _

theorem defineLocal_safely (hi : c.frame.localsBase + i < c.locals) :
    Safely (At H c σ) (defineLocal i v) fun _ => At AnyHeap c σ :=
  ((localSlot_safely hi).discard fun _ _ h => h).bind fun _ =>
    setSlot_safely.weaken (fun _ h => h) fun _ _ h => h.anyHeap

theorem shareLocal_safely (hi : c.frame.localsBase + i < c.locals) :
    Safely (At H c σ) (shareLocal i) fun _ => At AnyHeap c σ := by
  refine (localSlot_safely hi).bind fun slot => ?_
  cases slot with
  | shared cell => exact .pure fun _ h => h.anyHeap
  | plain v => exact (make_safely _).bind fun _ => setSlot_safely.bind fun _ => .pure fun _ h => h

/-- A frame that was called through a closure, or not, has `n` captured variables. -/
def Heap.Captured (h : Heap) (n : Nat) : Option Ref → Prop
  | none => n = 0
  | some r => (h.closureAt r).cells.size = n

theorem freeCell_safely (hk : ∀ h, H h → h.Captured k c.frame.closure?) (hi : i < k) :
    Safely (At H c σ) (freeCell i) fun _ => At H c σ := by
  intro m h
  have hcap := hk _ h.heap
  unfold freeCell
  rw [h.frame]
  cases hc : c.frame.closure? with
  | none =>
    rw [hc] at hcap
    exact absurd (hcap ▸ hi) (Nat.not_lt_zero i)
  | some r =>
    rw [hc] at hcap
    have hlt : i < (m.heap.closureAt r).cells.size := by rw [hcap]; exact hi
    simp only [Option.bind_some, Array.getElem?_eq_getElem hlt]
    exact .ok h

theorem getFree_safely (hk : ∀ h, H h → h.Captured k c.frame.closure?) (hi : i < k) :
    Safely (At H c σ) (getFree i) fun _ => At H c σ :=
  (freeCell_safely hk hi).bind fun _ => (readHeap_safely _).weaken (fun _ h => h) fun _ _ h => h.2

theorem setFree_safely (hk : ∀ h, H h → h.Captured k c.frame.closure?) (hi : i < k) :
    Safely (At H c σ) (setFree i v) fun _ => At AnyHeap c σ :=
  (freeCell_safely hk hi).bind fun _ => act_safely _

theorem capture_safely : Safely (At H c ⟨ks, p⟩) (capture cell) fun _ => At AnyHeap c ⟨ks, p + 1⟩ :=
  fun m h => .ok { h with heap := trivial, captures := by simp only [Array.size_push, h.captures] }

theorem getGlobal_safely (i : Nat) : Safely (At H c σ) (getGlobal i) fun _ => At H c σ := fun _ h => .ok h

theorem setGlobal_safely (i : Nat) : Safely (At H c σ) (setGlobal i v) fun _ => At AnyHeap c σ :=
  fun _ h => .ok { h with heap := trivial }

/-! ## Control -/

def Site.goto (c : Site) (target : Nat) : Site := { c with frame := { c.frame with next := target } }

theorem jump_safely (target : Nat) : Safely (At H c σ) (jump target) fun _ => At AnyHeap (c.goto target) σ :=
  fun m h => .ok { h with heap := trivial, frame := by rw [h.frame]; rfl }

theorem jumpFalsy_safely (target : Nat) : Safely (At H c ⟨κ :: ks, 0⟩) (jumpFalsy target) fun _ m =>
    At AnyHeap (c.goto target) ⟨ks, 0⟩ m ∨ At AnyHeap c ⟨ks, 0⟩ m := by
  refine pop_bind fun v => readHeap_bind fun b => ?_
  cases b with
  | true => exact (jump_safely target).weaken (fun _ h => h) fun _ _ h => .inl h
  | false => exact .pure fun _ h => .inr h.anyHeap

theorem At.forget (h : At H c ⟨κ :: ks, 0⟩ m) : At H c ⟨.any :: ks, 0⟩ m := by
  obtain ⟨vs, hs, hk⟩ := h.stack
  refine { h with captures := h.captures, stack := ⟨vs, hs, ?_⟩ }
  cases hk with
  | cons _ hk => exact .cons (Kind.any_has _) hk

theorem jumpDecided_safely (decisive : Bool) (target : Nat) :
    Safely (At H c ⟨κ :: ks, 0⟩) (jumpDecided decisive target) fun _ m =>
      At AnyHeap (c.goto target) ⟨.any :: ks, 0⟩ m ∨ At AnyHeap c ⟨ks, 0⟩ m := by
  refine peek_safely.bind fun v => readHeap_bind fun b => ?_
  by_cases hd : (b != decisive) = true
  · simp only [hd]
    exact (jump_safely target).weaken (fun _ h => h.forget) fun _ _ h => .inl h
  · simp only [hd]
    exact pop_safely.discard fun _ _ h => .inr h.2.anyHeap

/-! ## Operations -/

theorem compareEqual_safely (expected : Bool) : Computes H c (κ :: κ' :: ks) ks (compareEqual expected) :=
  pop_bind fun _ => pop_bind fun _ => readHeap_bind fun _ => push_any

theorem applyBinary_safely (hc : (Operator.ofCode? code).isSome) :
    Computes H c (κ :: κ' :: ks) ks (applyBinary code) := by
  obtain ⟨op, hop⟩ := Option.isSome_iff_exists.mp hc
  unfold applyBinary
  rw [hop]
  refine pop_bind fun b => pop_bind fun a => (onHeap_safely fun h e => ?_).bind fun _ => pushNew_any
  cases e <;> rfl

theorem negate_safely : Computes H c (κ :: ks) ks negate := by
  refine pop_bind fun v => ?_
  cases v with
  | int | float => exact pushNew_any
  | _ => exact refuse_safely fun _ => rfl

theorem complement_safely : Computes H c (κ :: ks) ks complement := by
  refine pop_bind fun v => ?_
  cases v with
  | int => exact pushNew_any
  | _ => exact refuse_safely fun _ => rfl

theorem logicalNot_safely : Computes H c (κ :: ks) ks logicalNot := pop_bind fun _ => readHeap_bind fun _ => push_any

theorem makeArray_safely : Computes H c (xs ++ ks) ks (makeArray xs.length) :=
  (popMany_safely rfl).bind fun _ => .assume fun _ => pushMade_safely _

/-- The kinds of the keys and values of a map literal, in order. -/
def entryKinds : Nat → List Kind
  | 0 => []
  | n + 1 => .text :: .any :: entryKinds n

theorem entryKinds_succ' : entryKinds (n + 1) = entryKinds n ++ [.text, .any] := by
  induction n with
  | zero => rfl
  | succ n ih =>
    show .text :: .any :: entryKinds (n + 1) = (.text :: .any :: entryKinds n) ++ _
    rw [ih]
    rfl

theorem entrySlots_eq : entrySlots n ks = (entryKinds n).reverse ++ ks := by
  induction n with
  | zero => rfl
  | succ n ih => rw [entrySlots, ih, entryKinds_succ']; simp

theorem length_entryKinds : (entryKinds n).length = n * 2 := by
  induction n with
  | zero => rfl
  | succ n ih => simp only [entryKinds, List.length_cons, ih]; omega

theorem pairUp_safely : ∀ (n : Nat) {us : List Value}, List.Forall₂ Kind.Has (entryKinds n) us →
    Safely (At H c σ) (pairUp us) fun _ => At H c σ
  | 0, _, hk => by
    cases hk
    exact .pure fun _ h => h
  | n + 1, _, hk => by
    cases hk with
    | cons hkey hk =>
      obtain ⟨s, rfl⟩ := hkey rfl
      cases hk with
      | cons _ hk => exact (pairUp_safely n hk).bind fun _ => .pure fun _ h => h

theorem makeMap_safely (n : Nat) : Computes H c (entrySlots n ks) ks (makeMap (n * 2)) := by
  rw [entrySlots_eq]
  refine (popMany_safely (by rw [List.length_reverse, length_entryKinds])).bind fun us => .assume fun hu => ?_
  rw [List.reverse_reverse] at hu
  exact (pairUp_safely n hu).bind fun _ => pushMade_safely _

theorem makeError_safely : Computes H c (κ :: ks) ks makeError := pop_bind fun _ => pushMade_safely _

theorem freeze_safely : Computes H c (κ :: ks) ks freeze := by
  refine pop_bind fun v => ?_
  have hrest : Computes H c ks ks (act v.freeze >>= push) := (act_safely _).bind fun _ => push_any
  have hcount := (countAllocation_safely (H := H) (c := c) (σ := ⟨ks, 0⟩)).bind fun _ => hrest
  cases v with
  | array kind r => cases kind <;> assumption
  | map kind r => cases kind <;> assumption
  | _ => exact hrest

theorem indexFault_sound : (indexFault target key h e).isBrokenCode = false := by
  cases e <;> rfl

theorem lookup_safely : Safely (At H c σ) (lookup v key) fun _ => At H c σ := by
  intro m h
  unfold lookup
  split
  · exact .ok h
  · exact .error indexFault_sound

theorem index_safely : Computes H c (κ :: κ' :: ks) ks index :=
  pop_bind fun _ => pop_bind fun _ => lookup_safely.bind fun _ => push_any

theorem slice_safely : Computes H c (κ :: κ' :: κ'' :: ks) ks slice :=
  pop_bind fun _ => pop_bind fun _ => pop_bind fun _ => (onHeap_safely fun _ _ => rfl).bind fun _ => pushNew_any

theorem follow_safely : ∀ (v : Value) (keys : List Value), Safely (At H c σ) (follow v keys) fun _ => At H c σ
  | _, [] => .pure fun _ h => h
  | _, _ :: keys => lookup_safely.bind fun w => follow_safely w keys

theorem assignPart_safely (hne : keys ≠ []) : Safely (At H c σ) (assignPart v x keys) fun _ => At AnyHeap c σ := by
  cases keys with
  | nil => exact absurd rfl hne
  | cons last path => exact (follow_safely ..).bind fun _ => onHeap_safely fun _ _ => indexFault_sound

theorem assignSelected_safely {read : Exec Value} (hne : xs ≠ [])
    (hr : ∀ σ, Safely (At H c σ) read fun _ => At H c σ) :
    Safely (At H c ⟨xs ++ κ :: ks, 0⟩) (assignSelected read xs.length) fun _ => At AnyHeap c ⟨ks, 0⟩ := by
  refine (popMany_safely rfl).bind fun us => .assume fun hu => pop_bind fun _ => (hr _).bind fun _ => ?_
  refine assignPart_safely ?_
  rintro rfl
  exact hne (List.reverse_eq_nil_iff.mp (List.forall₂_nil_right_iff.mp hu))

theorem startIteration_safely : Computes H c (κ :: ks) ks startIteration := by
  refine pop_bind fun v => (act_safely _).bind fun o => ?_
  cases o with
  | some _ => exact pushNew_any
  | none => exact refuse_safely fun _ => rfl

theorem iterationNext_safely : Computes H c (κ :: ks) ks iterationNext :=
  pop_bind fun _ => (act_safely _).bind fun _ => push_any

theorem iterationPart_safely (part : Heap → Value → Except ValueError Value) :
    Computes H c (κ :: ks) ks (iterationPart part) :=
  pop_bind fun _ => (act_safely _).bind fun _ => push_any

theorem pushBuiltin_safely (hi : (Builtin.ofIndex? i).isSome) : Computes H c ks ks (pushBuiltin i) := by
  obtain ⟨b, hb⟩ := Option.isSome_iff_exists.mp hi
  unfold pushBuiltin
  rw [hb]
  exact push_any

theorem currentFunction_safely : Safely (At H c σ) currentFunction fun _ => At H c σ := fun _ h => .ok h

/-! ## Constants and closures -/

theorem constant_of_some (h : env.constants[k]? = some v) : constant env k = pure v := by
  unfold constant
  rw [h]

/-- The last `k` cells that wait for a closure. -/
def takeCells (k : Nat) : Exec (Array Ref) := fun m =>
  if m.captures.size < k then .error .stackUnderflow m
  else .ok (m.captures.extract (m.captures.size - k)) { m with captures := m.captures.shrink (m.captures.size - k) }

theorem takeCells_safely : Safely (At H c ⟨ks, p⟩) (takeCells p) fun _ => At H c ⟨ks, 0⟩ := by
  intro m h
  have hs : m.captures.size = p := h.captures
  simp only [takeCells, hs, Nat.lt_irrefl, if_false]
  exact .ok { h with captures := by simp }

theorem makeClosure_safely (h : env.constants[j]? = some (.function r)) :
    Safely (At H c ⟨ks, p⟩) (makeClosure env j p) fun _ => At AnyHeap c ⟨.any :: ks, 0⟩ := by
  unfold makeClosure
  rw [constant_of_some h]
  exact takeCells_safely.bind fun _ => pushMade_safely _

end

end Scripting
