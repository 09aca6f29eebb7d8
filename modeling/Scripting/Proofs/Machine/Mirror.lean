import Scripting.Machine.Run
import Scripting.Proofs.Value.Native
/-!
# `Proofs.Machine.Mirror` — two machines whose objects have other numbers

Two runs mirror each other if everything in one machine corresponds to what stands in the same place of the
other, under a renaming of the objects. They run code that corresponds instruction by instruction: a `Mirror`
says which offsets do. Nothing is assumed of the code itself, which may even be broken.

* `Mirrored ρ μ r s m n` — the machines correspond, the left one running routine `r` and the right one `s`;
* `InStep ρ μ r s R x y` — from such machines two computations end alike, with results in `R`, and the
  machines correspond again.

This module has the computations of the machine that stay within a frame.
-/

namespace Scripting

open Machine Array List

/-- Which places in the code of two programs correspond. -/
structure Mirror where
  /-- The offset `o` of routine `r` corresponds to the offset `o'` of routine `s`. -/
  place : (r : Ref) → (o : Nat) → (s : Ref) → (o' : Nat) → Prop
  /-- Places of the left program where the correspondence ends. -/
  stop : Ref → Nat → Prop

variable {ρ ρ' ρ'' : Renaming} {μ : Mirror} {r s : Ref} {v w : Value}

/-! ## Machines -/

/-- Local variables that correspond. -/
inductive Slot.Renamed (ρ : Renaming) : Slot → Slot → Prop
  | plain {v w : Value} (h : Scripting.Renamed ρ v w) : Slot.Renamed ρ (.plain v) (.plain w)
  | shared {c d} (refs : ρ.refs .cells c d) (free : ρ.changeable .cells c) : Slot.Renamed ρ (.shared c) (.shared d)

/-- Frames at places that correspond. -/
structure Frame.Renamed (ρ : Renaming) (μ : Mirror) (f g : Frame) : Prop where
  next : μ.place f.routine f.next g.routine g.next
  current : μ.place f.routine f.current g.routine g.current
  closure : Option.Rel (ρ.refs .closures) f.closure? g.closure?
  callee : Scripting.Renamed ρ f.callee g.callee
  localsBase : g.localsBase = f.localsBase
  stackBase : g.stackBase = f.stackBase

/-- **Two machines whose parts all correspond**, running `r` on the left and `s` on the right. -/
structure Mirrored (ρ : Renaming) (μ : Mirror) (r s : Ref) (m n : Machine) : Prop where
  left : m.frame.routine = r
  right : n.frame.routine = s
  heap : ρ.Joins m.heap n.heap
  globals : RenamedAll ρ m.globals.toList n.globals.toList
  stack : RenamedAll ρ m.stack.toList n.stack.toList
  locals : Forall₂ (Slot.Renamed ρ) m.locals.toList n.locals.toList
  captures : Forall₂ (ρ.refs .cells) m.captures.toList n.captures.toList
  captured : ∀ c ∈ m.captures, ρ.changeable .cells c
  frame : Frame.Renamed ρ μ m.frame n.frame
  callers : Forall₂ (Frame.Renamed ρ μ) m.callers.toList n.callers.toList
  steps : n.steps = m.steps
  allocations : n.allocations = m.allocations

theorem Mirrored.stack_size (h : Mirrored ρ μ r s m n) : n.stack.size = m.stack.size := by
  simpa using h.stack.length_eq.symm

theorem Mirrored.callers_size (h : Mirrored ρ μ r s m n) : n.callers.size = m.callers.size := by
  simpa using h.callers.length_eq.symm

/-! ## Computations -/

/-- Both end with results in `R`, or with the same fault; the machines still correspond. -/
inductive EndsInStep (ρ : Renaming) (μ : Mirror) (r s : Ref) {α β : Type} (R : α → β → Prop) :
    EStateM.Result Fault Machine α → EStateM.Result Fault Machine β → Prop
  | ok {a b m n} (result : R a b) (machines : Mirrored ρ μ r s m n) : EndsInStep ρ μ r s R (.ok a m) (.ok b n)
  | error {e m n} (machines : Mirrored ρ μ r s m n) : EndsInStep ρ μ r s R (.error e m) (.error e n)

/-- **Two computations that mirror each other** within the running frames. -/
def InStep (ρ : Renaming) (μ : Mirror) (r s : Ref) {α β : Type} (R : α → β → Prop) (x : Exec α) (y : Exec β) : Prop :=
  ∀ ⦃m n : Machine⦄, Mirrored ρ μ r s m n → EndsInStep ρ μ r s R (x m) (y n)

/-- Nothing is said of the results. -/
abbrev Anything {α β : Type} (_ : α) (_ : β) : Prop := True

namespace InStep

variable {α β α' β' : Type} {R : α → β → Prop} {S : α' → β' → Prop}

theorem pure (h : R a b) : InStep ρ μ r s R (pure a) (pure b) := fun _ _ hm => .ok h hm

theorem throw (e : Fault) : InStep ρ μ r s R (throw e) (throw e) := fun _ _ hm => .error hm

theorem bind (hx : InStep ρ μ r s R x y) (hf : ∀ a b, R a b → InStep ρ μ r s S (f a) (g b)) :
    InStep ρ μ r s S (x >>= f) (y >>= g) := by
  intro m n hm
  show EndsInStep ρ μ r s S (EStateM.bind x f m) (EStateM.bind y g n)
  unfold EStateM.bind
  have hxy := hx hm
  generalize x m = p at hxy ⊢
  generalize y n = q at hxy ⊢
  cases hxy with
  | ok hr hm' => exact hf _ _ hr hm'
  | error hm' => exact .error hm'

theorem discard (hx : InStep ρ μ r s R x y) : InStep ρ μ r s Anything (Functor.discard x) (Functor.discard y) :=
  hx.bind (f := fun _ => Pure.pure ()) (g := fun _ => Pure.pure ()) fun _ _ _ => pure trivial

theorem imp (h : ∀ a b, R a b → R' a b) (hx : InStep ρ μ r s R x y) : InStep ρ μ r s R' x y := by
  intro m n hm
  have hxy := hx hm
  generalize x m = p at hxy ⊢
  generalize y n = q at hxy ⊢
  cases hxy with
  | ok hr hm' => exact .ok (h _ _ hr) hm'
  | error hm' => exact .error hm'

/-! ### The heap -/

theorem onHeap (hx : ρ.Acts R x y) (hf : ∀ h k e, ρ.Joins h k → asFault' k e = asFault h e) :
    InStep ρ μ r s R (onHeap asFault x) (onHeap asFault' y) := by
  intro m n hm
  have hxy := hx hm.heap
  unfold Machine.onHeap
  dsimp only
  generalize x m.heap = p at hxy ⊢
  generalize y n.heap = q at hxy ⊢
  cases hxy with
  | ok hr hj => exact .ok hr { hm with heap := hj }
  | error hj =>
    dsimp only
    rw [hf _ _ _ hj]
    exact .error { hm with heap := hj }

theorem act (hx : ρ.Acts R x y) : InStep ρ μ r s R (act x) (act y) := onHeap hx fun _ _ _ _ => rfl

theorem readHeap (hf : ∀ h k, ρ.Joins h k → R (f h) (g k)) :
    InStep ρ μ r s R (readHeap f) (readHeap g) := fun _ _ hm => .ok (hf _ _ hm.heap) hm

theorem make (hf : ∀ h k, ρ.Joins h k → R (f h).1 (g k).1 ∧ ρ.Joins (f h).2 (g k).2) :
    InStep ρ μ r s R (make f) (make g) := act (.make hf)

theorem refuse (cause : String → Fault) (hv : Renamed ρ v w) :
    InStep ρ μ r s R (refuse cause v) (refuse cause w) := by
  refine bind (R := Eq) (readHeap fun _ _ hj => (Renamed.typeName hj hv).symm) ?_
  rintro t _ rfl
  exact throw _

/-! ### Limits -/

theorem countAllocation : InStep ρ μ r s Eq countAllocation countAllocation := by
  intro m n hm
  unfold Machine.countAllocation
  rw [hm.allocations]
  cases m.allocations with
  | none => exact .ok rfl hm
  | some left =>
    dsimp only
    split
    · exact .error { hm with allocations := rfl }
    · exact .ok rfl { hm with allocations := rfl }

/-! ### The stack -/

theorem push (hv : Renamed ρ v w) : InStep ρ μ r s Eq (push v) (push w) := by
  intro m n hm
  refine .ok rfl { hm with stack := ?_ }
  simp only [toList_push]
  exact rel_append hm.stack (.cons hv .nil)

theorem pushNew (hv : Renamed ρ v w) : InStep ρ μ r s Eq (pushNew v) (pushNew w) :=
  countAllocation.bind fun _ _ _ => push hv

theorem back?_rel {xs : Array α} {ys : Array β} (hx : Forall₂ R xs.toList ys.toList) :
    Option.Rel R xs.back? ys.back? := by
  have hsize : ys.size = xs.size := by simpa using hx.length_eq.symm
  have hget := getElem?_rel hx (xs.size - 1)
  simpa only [back?, hsize, getElem?_toList] using hget

theorem pop_rel {xs : Array α} {ys : Array β} (hx : Forall₂ R xs.toList ys.toList) :
    Forall₂ R xs.pop.toList ys.pop.toList := by
  simp only [toList_pop, dropLast_eq_take, hx.length_eq]
  exact forall₂_take _ hx

theorem shrink_rel {xs : Array α} {ys : Array β} (hx : Forall₂ R xs.toList ys.toList) (k : Nat) :
    Forall₂ R (xs.shrink k).toList (ys.shrink k).toList := by
  simp only [toList_shrink]
  exact forall₂_take _ hx

theorem pop : InStep ρ μ r s (Renamed ρ) pop pop := by
  intro m n hm
  have hback := back?_rel hm.stack
  unfold Machine.pop
  generalize m.stack.back? = o, n.stack.back? = o' at hback ⊢
  cases hback with
  | none => exact .error hm
  | some hv => exact .ok hv { hm with stack := pop_rel hm.stack }

theorem peek : InStep ρ μ r s (Renamed ρ) peek peek := by
  intro m n hm
  have hback := back?_rel hm.stack
  unfold Machine.peek
  generalize m.stack.back? = o, n.stack.back? = o' at hback ⊢
  cases hback with
  | none => exact .error hm
  | some hv => exact .ok hv hm

theorem popMany (k : Nat) : InStep ρ μ r s (RenamedAll ρ) (popMany k) (popMany k) := by
  intro m n hm
  unfold Machine.popMany
  rw [hm.stack_size]
  split
  · exact .error hm
  · exact .ok (extract_rel hm.stack ..) { hm with stack := shrink_rel hm.stack _ }

/-! ### Variables -/

theorem localSlot (i : Nat) : InStep ρ μ r s (Slot.Renamed ρ) (localSlot i) (localSlot i) := by
  intro m n hm
  have hget := getElem?_rel hm.locals (m.frame.localsBase + i)
  simp only [getElem?_toList] at hget
  unfold Machine.localSlot
  rw [hm.frame.localsBase]
  generalize m.locals[m.frame.localsBase + i]? = o, n.locals[m.frame.localsBase + i]? = o' at hget ⊢
  cases hget with
  | none => exact .error hm
  | some hslot => exact .ok hslot hm

theorem slotValue (hj : ρ.Joins h k) (hab : Slot.Renamed ρ a b) :
    Renamed ρ (slotValue h a) (slotValue k b) := by
  cases hab with
  | plain hv => exact hv
  | shared hr _ => exact hj.cell hr

theorem getLocal (i : Nat) : InStep ρ μ r s (Renamed ρ) (getLocal i) (getLocal i) :=
  (localSlot i).bind fun _ _ hab => readHeap fun _ _ hj => slotValue hj hab

theorem setSlot (i : Nat) (hab : Slot.Renamed ρ a b) :
    InStep ρ μ r s Eq (setSlot i a) (setSlot i b) := by
  intro m n hm
  refine .ok rfl { hm with locals := ?_ }
  simp only [toList_setIfInBounds, hm.frame.localsBase]
  exact set_rel hm.locals hab _

theorem setCell (hr : ρ.refs .cells c d) (hf : ρ.changeable .cells c) (hv : Renamed ρ v w) :
    InStep ρ μ r s Anything (Machine.act (modify (·.setCell c v))) (Machine.act (modify (·.setCell d w))) :=
  act fun _ _ hj => .ok trivial (hj.setCell hr hf hv)

theorem setLocal (i : Nat) (hv : Renamed ρ v w) :
    InStep ρ μ r s Anything (Machine.setLocal i v) (Machine.setLocal i w) := by
  refine (localSlot i).bind fun a b hab => ?_
  cases hab with
  | plain _ => exact (setSlot i (.plain hv)).imp fun _ _ _ => trivial
  | shared hr hf => exact setCell hr hf hv

theorem defineLocal (i : Nat) (hv : Renamed ρ v w) :
    InStep ρ μ r s Anything (defineLocal i v) (defineLocal i w) :=
  (localSlot i).discard.bind fun _ _ _ => (setSlot i (.plain hv)).imp fun _ _ _ => trivial

/-- Cells that correspond and may be changed. -/
def Cells (ρ : Renaming) (c d : Ref) : Prop := ρ.refs .cells c d ∧ ρ.changeable .cells c

theorem newCell (hv : Renamed ρ v w) :
    InStep ρ μ r s (Cells ρ) (Machine.make (·.newCell v)) (Machine.make (·.newCell w)) :=
  make fun _ _ hj => hj.newCell hv

theorem shareLocal (i : Nat) : InStep ρ μ r s (Cells ρ) (Machine.shareLocal i) (Machine.shareLocal i) := by
  refine (localSlot i).bind fun a b hab => ?_
  cases hab with
  | shared hr hf => exact pure ⟨hr, hf⟩
  | plain hv => exact (newCell hv).bind fun _ _ hc => (setSlot i (.shared hc.1 hc.2)).bind fun _ _ _ => pure hc

theorem freeCell (i : Nat) : InStep ρ μ r s (Cells ρ) (freeCell i) (freeCell i) := by
  intro m n hm
  have hclosure := hm.frame.closure
  unfold Machine.freeCell
  generalize m.frame.closure? = o, n.frame.closure? = o' at hclosure ⊢
  cases hclosure with
  | none => exact .error hm
  | @some c d hr =>
    have hc := hm.heap.closure hr
    have hget := getElem?_rel hc.cells i
    have hfree : ∀ a, (m.heap.closureAt c).cells[i]? = some a → ρ.changeable .cells a :=
      fun a ha => hc.free a (mem_of_getElem? ha)
    simp only [getElem?_toList] at hget
    simp only [Option.bind_some]
    generalize (m.heap.closureAt c).cells[i]? = x, (n.heap.closureAt d).cells[i]? = y at hget hfree ⊢
    cases hget with
    | none => exact .error hm
    | some hab => exact .ok ⟨hab, hfree _ rfl⟩ hm

theorem getFree (i : Nat) : InStep ρ μ r s (Renamed ρ) (getFree i) (getFree i) :=
  (freeCell i).bind fun _ _ hc => readHeap fun _ _ hj => hj.cell hc.1

theorem setFree (i : Nat) (hv : Renamed ρ v w) :
    InStep ρ μ r s Anything (Machine.setFree i v) (Machine.setFree i w) :=
  (freeCell i).bind fun _ _ hc => setCell hc.1 hc.2 hv

theorem capture {c d : Ref} (hc : Cells ρ c d) : InStep ρ μ r s Anything (capture c) (capture d) := by
  intro m n hm
  refine .ok trivial { hm with captures := ?_, captured := ?_ }
  · simp only [toList_push]
    exact rel_append hm.captures (.cons hc.1 .nil)
  · intro e he
    rcases mem_push.mp he with he | rfl
    · exact hm.captured e he
    · exact hc.2

theorem getGlobal (i : Nat) : InStep ρ μ r s (Renamed ρ) (getGlobal i) (getGlobal i) := by
  intro m n hm
  refine .ok ?_ hm
  have hget := getElem?_rel hm.globals i
  simp only [getElem?_toList] at hget
  simp only [getD_eq_getD_getElem?]
  exact Renamed.getD_undefined hget

theorem setGlobal (i : Nat) (hv : Renamed ρ v w) :
    InStep ρ μ r s Anything (setGlobal i v) (setGlobal i w) := by
  intro m n hm
  have hsize : n.globals.size = m.globals.size := by simpa using hm.globals.length_eq.symm
  refine .ok trivial { hm with globals := ?_ }
  simp only [hsize]
  split
  · simp only [toList_setIfInBounds]
    exact set_rel hm.globals hv i
  · simp only [toList_push, toList_append]
    refine rel_append (rel_append hm.globals ?_) (.cons hv .nil)
    exact forall₂_same.mpr fun u hu => (eq_of_mem_replicate hu) ▸ .undefined

/-! ### Control -/

theorem jump (ho : μ.place r o s o') : InStep ρ μ r s Anything (jump o) (jump o') := by
  intro m n hm
  refine .ok trivial { hm with frame := { hm.frame with next := ?_ } }
  simp only [hm.left, hm.right]
  exact ho

theorem currentFunction : InStep ρ μ r s (Renamed ρ) currentFunction currentFunction :=
  fun _ _ hm => .ok hm.frame.callee hm

/-! ### Operators -/

theorem isFalsy (hv : Renamed ρ v w) : InStep ρ μ r s Eq (isFalsy v) (isFalsy w) :=
  readHeap fun _ _ hj => (Renamed.isFalsy hj hv).symm

theorem compareEqual (expected : Bool) :
    InStep ρ μ r s Eq (compareEqual expected) (compareEqual expected) := by
  refine pop.bind fun b b' hb => pop.bind fun a a' ha => ?_
  refine bind (R := Eq) (readHeap fun h k hj => (Renamed.equals hj ha hb).symm) ?_
  rintro x _ rfl
  exact push (.bool _)

theorem applyBinary (code : Nat) : InStep ρ μ r s Eq (applyBinary code) (applyBinary code) := by
  unfold Machine.applyBinary
  cases Operator.ofCode? code with
  | none => exact throw _
  | some op =>
    refine pop.bind fun b b' hb => pop.bind fun a a' ha => ?_
    refine bind (onHeap (binary_renamed op ha hb) fun h k e hj => ?_) fun _ _ hx => pushNew hx
    cases e <;> simp only [binaryFault, Renamed.typeName hj ha, Renamed.typeName hj hb]

theorem negate : InStep ρ μ r s Eq negate negate := by
  refine pop.bind fun v w hv => ?_
  have hrefuse := refuse (μ := μ) (r := r) (s := s) (R := @Eq Unit) (.invalidUnary "-") hv
  cases hv with
  | int n => exact pushNew (.int _)
  | float x => exact pushNew (.float _)
  | _ => exact hrefuse

theorem complement : InStep ρ μ r s Eq complement complement := by
  refine pop.bind fun v w hv => ?_
  have hrefuse := refuse (μ := μ) (r := r) (s := s) (R := @Eq Unit) (.invalidUnary "^") hv
  cases hv with
  | int n => exact pushNew (.int _)
  | _ => exact hrefuse

theorem logicalNot : InStep ρ μ r s Eq logicalNot logicalNot := by
  refine pop.bind fun v w hv => (isFalsy hv).bind ?_
  rintro b _ rfl
  exact push (.bool _)

theorem jumpFalsy (ho : μ.place r o s o') : InStep ρ μ r s Anything (jumpFalsy o) (jumpFalsy o') := by
  refine pop.bind fun v w hv => (isFalsy hv).bind ?_
  rintro b _ rfl
  cases b with
  | true => exact jump ho
  | false => exact pure trivial

theorem jumpDecided (decisive : Bool) (ho : μ.place r o s o') :
    InStep ρ μ r s Anything (jumpDecided decisive o) (jumpDecided decisive o') := by
  refine peek.bind fun v w hv => (isFalsy hv).bind ?_
  rintro b _ rfl
  by_cases hd : (b != decisive) = true
  · simp only [hd]
    exact jump ho
  · simp only [hd]
    exact pop.discard

/-! ### Making objects -/

theorem makeArray (k : Nat) : InStep ρ μ r s Eq (makeArray k) (makeArray k) :=
  (popMany k).bind fun _ _ hx => countAllocation.bind fun _ _ _ =>
    bind (make fun _ _ hj => hj.newArray .mutable hx) fun _ _ hv => push hv

theorem pairUp : ∀ (us : List Value) {ws : List Value}, RenamedAll ρ us ws →
    InStep ρ μ r s (Forall₂ (RenamedEntry ρ)) (pairUp us) (pairUp ws)
  | [], _, h => by
    cases h
    exact pure .nil
  | [_], _, h => by
    cases h with
    | cons hkey h =>
      cases h
      cases hkey <;> exact pure .nil
  | _ :: _ :: rest, _, h => by
    cases h with
    | cons hkey h =>
      cases h with
      | cons hval hrest =>
        have hrefuse := refuse (μ := μ) (r := r) (s := s) (R := Forall₂ (RenamedEntry ρ)) .invalidMapKey hkey
        have ih := pairUp rest hrest
        cases hkey with
        | str key => exact ih.bind fun _ _ hes => pure (.cons ⟨rfl, hval⟩ hes)
        | _ => exact hrefuse

theorem makeMap (k : Nat) : InStep ρ μ r s Eq (makeMap k) (makeMap k) :=
  (popMany k).bind fun _ _ hx => (pairUp _ hx).bind fun _ _ hes => countAllocation.bind fun _ _ _ =>
    bind (make fun _ _ hj => hj.newMap .mutable (RenamedDict.ofList hes)) fun _ _ hv => push hv

theorem makeError : InStep ρ μ r s Eq makeError makeError :=
  pop.bind fun _ _ hp => countAllocation.bind fun _ _ _ =>
    bind (make fun _ _ hj => hj.newError hp) fun _ _ hv => push hv

theorem freeze : InStep ρ μ r s Eq freeze freeze := by
  refine pop.bind fun v w hv => ?_
  have hrest : InStep ρ μ r s Eq (Machine.act v.freeze >>= Machine.push) (Machine.act w.freeze >>= Machine.push) :=
    (act (freeze_renamed hv)).bind fun _ _ hx => push hx
  have hcount : InStep ρ μ r s Eq (Machine.countAllocation >>= fun _ => Machine.act v.freeze >>= Machine.push)
      (Machine.countAllocation >>= fun _ => Machine.act w.freeze >>= Machine.push) :=
    countAllocation.bind fun _ _ _ => hrest
  cases hv with
  | @array kind _ _ _ _ => cases kind <;> assumption
  | @map kind _ _ _ _ => cases kind <;> assumption
  | _ => exact hrest

/-! ### Parts -/

theorem indexFault (hj : ρ.Joins h k) (ht : Renamed ρ target target') (hk : Renamed ρ key key')
    (e : ValueError) : indexFault target' key' k e = indexFault target key h e := by
  cases e <;> simp only [Machine.indexFault, Renamed.typeName hj ht, Renamed.typeName hj hk]

theorem lookup (hv : Renamed ρ v w) (hk : Renamed ρ key key') :
    InStep ρ μ r s (Renamed ρ) (lookup v key) (lookup w key') := by
  intro m n hm
  have hi := indexGet_renamed hm.heap hv hk
  unfold Machine.lookup
  generalize v.indexGet m.heap key = x at hi ⊢
  generalize w.indexGet n.heap key' = y at hi ⊢
  cases hi with
  | ok hab => exact .ok hab hm
  | error e =>
    dsimp only
    rw [indexFault hm.heap hv hk]
    exact .error hm

theorem index : InStep ρ μ r s Eq index index :=
  pop.bind fun _ _ hk => pop.bind fun _ _ hv => (lookup hv hk).bind fun _ _ hx => push hx

theorem slice : InStep ρ μ r s Eq slice slice :=
  pop.bind fun _ _ hh => pop.bind fun _ _ hl => pop.bind fun _ _ hv =>
    bind (onHeap (slice_renamed hv hl hh) fun _ _ _ _ => rfl) fun _ _ hx => pushNew hx

theorem follow : ∀ {keys keys' : List Value} {v w : Value}, RenamedAll ρ keys keys' → Renamed ρ v w →
    InStep ρ μ r s (Renamed ρ) (follow v keys) (follow w keys')
  | _, _, _, _, .nil, hv => pure hv
  | _, _, _, _, .cons hk hks, hv => (lookup hv hk).bind fun _ _ hx => follow hks hx

theorem assignPart {keys keys' : List Value} (hk : RenamedAll ρ keys keys') (hv : Renamed ρ v w) (hx : Renamed ρ x y) :
    InStep ρ μ r s Eq (assignPart v x keys) (assignPart w y keys') := by
  cases hk with
  | nil => exact throw _
  | cons hlast hpath =>
    refine (follow (rel_reverse hpath) hv).bind fun a b hab => ?_
    exact onHeap (indexSet_renamed hab hlast hx) fun h k e hj => indexFault hj hab hlast e

theorem assignSelected {read read' : Exec Value} (hr : InStep ρ μ r s (Renamed ρ) read read') (k : Nat) :
    InStep ρ μ r s Eq (assignSelected read k) (assignSelected read' k) :=
  (popMany k).bind fun _ _ hk => pop.bind fun _ _ hx => hr.bind fun _ _ hv => assignPart hk hv hx

/-! ### Iteration -/

theorem startIteration : InStep ρ μ r s Eq startIteration startIteration := by
  refine pop.bind fun v w hv => (act (iterate?_renamed hv)).bind fun o o' ho => ?_
  cases ho with
  | some hi => exact pushNew hi
  | none => exact refuse _ hv

theorem iterationNext : InStep ρ μ r s Eq iterationNext iterationNext := by
  refine pop.bind fun v w hv => (act (iterNext_renamed hv)).bind ?_
  rintro b _ rfl
  exact push (.bool _)

theorem iterationPart (hp : ∀ {h k v w}, ρ.Joins h k → Renamed ρ v w → AnswersIn (Renamed ρ) (part h v) (part k w)) :
    InStep ρ μ r s Eq (iterationPart part) (iterationPart part) := by
  refine pop.bind fun v w hv => bind (R := Renamed ρ) (act fun h k hj => ?_) fun _ _ hx => push hx
  have hvw := hp hj hv
  generalize part h v = x at hvw ⊢
  generalize part k w = y at hvw ⊢
  cases hvw with
  | ok hab => exact .ok hab hj
  | error e => exact .error hj

theorem pushBuiltin (i : Nat) : InStep ρ μ r s Eq (pushBuiltin i) (pushBuiltin i) := by
  unfold Machine.pushBuiltin
  cases Builtin.ofIndex? i with
  | some b => exact push (.builtin b)
  | none => exact throw _

/-! ### Native functions -/

theorem spreadLast (args : Nat) : InStep ρ μ r s Eq (spreadLast args) (spreadLast args) := by
  refine pop.bind fun v w hv => ?_
  refine bind (R := Option.Rel fun xs ys => RenamedAll ρ xs.toList ys.toList)
    (readHeap fun h k hj => items?_renamed hj hv) fun o o' ho => ?_
  cases ho with
  | none => exact refuse _ hv
  | @some xs ys hx =>
    have hsize : ys.size = xs.size := by simpa using hx.length_eq.symm
    refine bind (R := Anything) (fun m n hm => .ok trivial { hm with stack := ?_ }) fun _ _ _ => ?_
    · simp only [toList_append]
      exact rel_append hm.stack hx
    · rw [hsize]
      exact pure rfl

theorem collectRest (args fixed : Nat) :
    InStep ρ μ r s Eq (collectRest args fixed) (collectRest args fixed) :=
  (popMany _).bind fun _ _ hx => countAllocation.bind fun _ _ _ =>
    bind (make fun _ _ hj => hj.newArray .mutable hx) fun _ _ hv => push hv

theorem calleeBelow (args : Nat) :
    InStep ρ μ r s (Renamed ρ) (calleeBelow args) (calleeBelow args) := by
  intro m n hm
  have hget := getElem?_rel hm.stack (m.stack.size - args - 1)
  simp only [getElem?_toList] at hget
  unfold Machine.calleeBelow
  rw [hm.stack_size]
  generalize m.stack[m.stack.size - args - 1]? = o, n.stack[m.stack.size - args - 1]? = o' at hget ⊢
  cases hget with
  | none => exact .error hm
  | some hv => exact .ok hv hm

theorem callNative (hf : ∀ {us ws}, RenamedAll ρ us ws → ρ.Acts (Renamed ρ) (f us) (g ws)) (args : Nat) :
    InStep ρ μ r s Eq (callNative f args) (callNative g args) := by
  refine (popMany args).bind fun us ws hu => pop.discard.bind fun _ _ _ => ?_
  refine bind (R := Renamed ρ) (act fun h k hj => ?_) fun _ _ hx => pushNew hx
  have hfg := hf hu hj
  generalize f us h = x at hfg ⊢
  generalize g ws k = y at hfg ⊢
  cases hfg with
  | ok hab hj' => exact .ok hab hj'
  | error hj' => exact Renaming.Acts.newError (.str _) hj'

end InStep

end Scripting
