import Scripting.Machine.Step
import Scripting.Proofs.Value.Variables
/-!
# `Proofs.Machine.Variables` — instructions that leave variables alone

The variables of a run are in four places: the cells and the closures of the heap, the local variables
of the frames, and the cells that wait for a closure. The callers and the base of the running frame say
to whom the local ones belong. Most instructions work on operands and global variables only. For each of
them this module proves that it commutes with putting other variables into the machine
(`Machine.withVariables`): it neither reads nor changes a variable. Those that make no object to count do not look
at what has been counted either.
-/

namespace Scripting

/-- The parts of a machine that hold variables, and say whose they are; and, if they are to be replaced too, the
allocations left and the instructions begun. -/
structure Variables where
  cells : Array Value
  closures : Array Closure
  locals : Array Slot
  captures : Array Ref
  callers : Array Frame
  base : Nat
  counts : Option (Option Int64 × Nat) := none

open Code Commutes

namespace Machine

def vars (m : Machine) : Variables :=
  { cells := m.heap.cells, closures := m.heap.closures, locals := m.locals, captures := m.captures,
    callers := m.callers, base := m.frame.localsBase }

def withVariables (w : Variables) (m : Machine) : Machine := { m with
    heap := m.heap.withCells w.cells w.closures
    locals := w.locals
    captures := w.captures
    frame := { m.frame with localsBase := w.base }
    callers := w.callers
    allocations := (w.counts.map Prod.fst).getD m.allocations
    steps := (w.counts.map Prod.snd).getD m.steps }

/-- The computation neither reads nor changes what `w` replaces. -/
abbrev Spares (w : Variables) (x : Exec α) : Prop := Commutes (withVariables w) x

variable {w : Variables}

/-! ## The heap -/

theorem onHeap_commutes (hx : Commutes (Heap.withCells w.cells w.closures) x)
    (hf : ∀ h e, asFault (h.withCells w.cells w.closures) e = asFault h e) :
    Spares w (onHeap asFault x) := by
  intro m
  have hheap : (m.withVariables w).heap = m.heap.withCells w.cells w.closures := rfl
  unfold onHeap
  dsimp only
  rw [hheap, hx m.heap]
  cases x m.heap with
  | ok a h => rfl
  | error e h =>
    simp only [onState, hf]
    rfl

theorem act_commutes (hx : Commutes (Heap.withCells w.cells w.closures) x) :
    Spares w (act x) := onHeap_commutes hx fun _ _ => rfl

theorem readHeap_commutes (hf : ∀ h : Heap, f (h.withCells w.cells w.closures) = f h) : Spares w (readHeap f) := by
  intro m
  show EStateM.Result.ok (f (m.heap.withCells w.cells w.closures)) _ = _
  rw [hf]
  rfl

theorem refuse_commutes (cause : String → Fault) (v : Value) : Spares w (refuse cause v : Exec α) :=
  (readHeap_commutes fun _ => rfl).bind fun _ => throw _

/-! ## The stack -/

theorem stack_withVariables (m : Machine) : (m.withVariables w).stack = m.stack := rfl

theorem push_commutes (v : Value) : Spares w (push v) := fun _ => rfl

theorem pop_commutes : Spares w pop := by
  intro m
  unfold pop
  rw [stack_withVariables]
  cases m.stack.back? <;> rfl

theorem peek_commutes : Spares w peek := by
  intro m
  unfold peek
  rw [stack_withVariables]
  cases m.stack.back? <;> rfl

theorem popMany_commutes (k : Nat) : Spares w (popMany k) := fun _ => onState_ite rfl rfl

/-! ## Instructions -/

theorem constant_commutes (env : Env) (i : Nat) : Spares w (constant env i) := by
  unfold constant
  cases env.constants[i]? with
  | none => exact throw _
  | some v => exact pure v

theorem compareEqual_commutes (expected : Bool) : Spares w (compareEqual expected) := by
  refine pop_commutes.bind fun rhs => pop_commutes.bind fun lhs => ?_
  refine (readHeap_commutes fun h => ?_).bind fun _ => push_commutes _
  exact Value.equals_withCells h lhs rhs

theorem isFalsy_commutes : Spares w (isFalsy v) := readHeap_commutes fun _ => rfl

theorem logicalNot_commutes : Spares w logicalNot :=
  pop_commutes.bind fun _ => isFalsy_commutes.bind fun _ => push_commutes _

theorem jump_commutes (target : Nat) : Spares w (jump target) := fun _ => rfl

theorem jumpFalsy_commutes (target : Nat) : Spares w (jumpFalsy target) := by
  refine pop_commutes.bind fun v => isFalsy_commutes.bind fun falsy => ?_
  cases falsy with
  | true => exact jump_commutes target
  | false => exact pure ()

theorem jumpDecided_commutes (decisive : Bool) (target : Nat) : Spares w (jumpDecided decisive target) := by
  refine peek_commutes.bind fun v => isFalsy_commutes.bind fun falsy => ?_
  by_cases hd : (falsy != decisive) = true
  · rw [if_pos hd]
    exact jump_commutes target
  · rw [if_neg hd]
    exact pop_commutes.discard

theorem pairUp_commutes : ∀ vs : List Value, Spares w (pairUp vs)
  | [] => pure []
  | [v] => by
    cases v <;> exact pure []
  | key :: value :: rest => by
    cases key with
    | str k => exact (pairUp_commutes rest).bind fun _ => pure _
    | _ => exact refuse_commutes _ _

theorem lookup_commutes : Spares w (lookup target key) := by
  intro m
  have hget : target.indexGet (m.withVariables w).heap key = target.indexGet m.heap key := rfl
  unfold lookup
  rw [hget]
  cases target.indexGet m.heap key with
  | ok v => rfl
  | error e => cases e <;> rfl

theorem index_commutes : Spares w index :=
  pop_commutes.bind fun _ => pop_commutes.bind fun _ => lookup_commutes.bind push_commutes

theorem follow_commutes (target : Value) (keys : List Value) : Spares w (follow target keys) := by
  induction keys generalizing target with
  | nil => exact pure target
  | cons key keys ih => exact lookup_commutes.bind fun part => ih part

theorem assignPart_commutes (target value : Value) (keys : List Value) : Spares w (assignPart target value keys) := by
  cases keys with
  | nil => exact throw _
  | cons last path =>
    refine (follow_commutes target path.reverse).bind fun holder => ?_
    refine onHeap_commutes (Value.indexSet_commutes holder last value) fun h e => ?_
    cases e <;> rfl

theorem getGlobal_commutes (i : Nat) : Spares w (getGlobal i) := fun _ => rfl

theorem setGlobal_commutes (i : Nat) (v : Value) : Spares w (setGlobal i v) := fun _ => rfl

theorem iterationNext_commutes : Spares w iterationNext :=
  pop_commutes.bind fun v => (act_commutes (Value.iterNext_commutes v)).bind fun _ => push_commutes _

theorem iterationPart_commutes (hpart : ∀ (h : Heap) v, part (h.withCells w.cells w.closures) v = part h v) :
    Spares w (iterationPart part) := by
  refine pop_commutes.bind fun v => (act_commutes fun h => ?_).bind push_commutes
  rw [hpart]
  cases part h v <;> rfl

theorem pushBuiltin_commutes (i : Nat) : Spares w (pushBuiltin i) := by
  unfold pushBuiltin
  cases Builtin.ofIndex? i with
  | none => exact throw _
  | some b => exact push_commutes _

theorem currentFunction_commutes : Spares w currentFunction := fun _ => rfl

/-! ## Calls -/

theorem spreadLast_commutes (args : Nat) : Spares w (spreadLast args) := by
  refine pop_commutes.bind fun last => (readHeap_commutes fun _ => rfl).bind fun o => ?_
  cases o with
  | none => exact refuse_commutes _ last
  | some items =>
    refine bind ?_ fun _ => pure _
    exact fun _ => rfl

theorem calleeBelow_commutes (args : Nat) : Spares w (calleeBelow args) := by
  intro m
  unfold calleeBelow
  rw [stack_withVariables]
  cases m.stack[m.stack.size - args - 1]? <;> rfl

/-! ## What is counted -/

section

variable (hw : w.counts = none)

include hw

theorem countAllocation_commutes : Spares w countAllocation := by
  intro m
  have hallocations : (m.withVariables w).allocations = m.allocations := by
    rw [withVariables, hw]
    rfl
  unfold countAllocation
  rw [hallocations]
  cases w
  cases hw
  cases m.allocations with
  | none => rfl
  | some left => exact onState_ite rfl rfl

theorem countStep_commutes (limits : Limits.Run) : Spares w (countStep limits) := by
  intro m
  cases w
  cases hw
  unfold countStep
  cases limits.steps with
  | none => exact onState_ite rfl rfl
  | some most => exact onState_ite rfl (onState_ite rfl rfl)

theorem pushNew_commutes (v : Value) : Spares w (pushNew v) :=
  (countAllocation_commutes hw).bind fun _ => push_commutes v

theorem pushMade_commutes (hf : Commutes (Heap.withCells w.cells w.closures) (Action.make f)) :
    Spares w (do countAllocation; push (← make f)) :=
  (countAllocation_commutes hw).bind fun _ => (act_commutes hf).bind push_commutes

theorem applyBinary_commutes (code : Nat) : Spares w (applyBinary code) := by
  unfold applyBinary
  cases Operator.ofCode? code with
  | none => exact throw _
  | some op =>
    refine pop_commutes.bind fun rhs => pop_commutes.bind fun lhs => ?_
    refine (onHeap_commutes (Value.binary_commutes op lhs rhs) fun h e => ?_).bind (pushNew_commutes hw)
    cases e <;> rfl

theorem negate_commutes : Spares w negate := by
  refine pop_commutes.bind fun v => ?_
  cases v with
  | int n => exact pushNew_commutes hw _
  | float x => exact pushNew_commutes hw _
  | _ => exact refuse_commutes _ _

theorem complement_commutes : Spares w complement := by
  refine pop_commutes.bind fun v => ?_
  cases v with
  | int n => exact pushNew_commutes hw _
  | _ => exact refuse_commutes _ _

theorem makeArray_commutes (k : Nat) : Spares w (makeArray k) :=
  (popMany_commutes k).bind fun _ => pushMade_commutes hw fun _ => rfl

theorem makeMap_commutes (k : Nat) : Spares w (makeMap k) :=
  (popMany_commutes k).bind fun vs => (pairUp_commutes vs).bind fun _ => pushMade_commutes hw fun _ => rfl

theorem makeError_commutes : Spares w makeError := pop_commutes.bind fun _ => pushMade_commutes hw fun _ => rfl

theorem freeze_commutes : Spares w freeze := by
  refine pop_commutes.bind fun v => ?_
  have hpush : Spares w (do push (← act v.freeze)) := (act_commutes (Value.freeze_commutes v)).bind push_commutes
  cases v with
  | array kind r =>
    cases kind with
    | mutable => exact (countAllocation_commutes hw).bind fun _ => hpush
    | frozen => exact (pure ()).bind fun _ => hpush
  | map kind r =>
    cases kind with
    | mutable => exact (countAllocation_commutes hw).bind fun _ => hpush
    | frozen => exact (pure ()).bind fun _ => hpush
  | _ => exact (pure ()).bind fun _ => hpush

theorem slice_commutes : Spares w slice := by
  refine pop_commutes.bind fun high => pop_commutes.bind fun low => pop_commutes.bind fun target => ?_
  exact (onHeap_commutes (Value.slice_commutes target low high) fun _ _ => rfl).bind (pushNew_commutes hw)

theorem startIteration_commutes : Spares w startIteration := by
  refine pop_commutes.bind fun v => (act_commutes (Value.iterate?_commutes v)).bind fun o => ?_
  cases o with
  | none => exact refuse_commutes _ v
  | some it => exact pushNew_commutes hw it

theorem collectRest_commutes (args fixed : Nat) : Spares w (collectRest args fixed) :=
  (popMany_commutes _).bind fun _ => pushMade_commutes hw fun _ => rfl

theorem bindArguments_commutes (r : Routine) (args : Nat) : Spares w (bindArguments r args) := by
  unfold bindArguments
  split
  · dsimp only
    split
    · exact (throw _).bind fun _ => (collectRest_commutes hw _ _).bind fun _ => pure _
    · exact (collectRest_commutes hw _ _).bind fun _ => pure _
  · split
    · exact pure _
    · exact throw _

end

/-! ## All of them -/

/-- The instructions that read or set a variable of a function, make cells or closures, or call. -/
def usesVariables : Opcode → Bool
  | .call | .getLocal | .setLocal | .defineLocal | .setSelLocal | .getLocalPtr => true
  | .getFree | .setFree | .setSelFree | .getFreePtr | .closure | .currentFuncPtr => true
  | _ => false

/-- The instructions that may count an allocation, calls and closures apart. -/
def usesBudget : Opcode → Bool
  | .binaryOp | .minus | .complement | .array | .map | .error | .immutable | .slice | .iterInit => true
  | _ => false

theorem perform_commutes (env : Env) (code : Bytes) (offset : Nat) (hop : usesVariables op = false)
    (hw : usesBudget op = true → w.counts = none) :
    Spares w (perform env op code offset) := by
  cases op with
  | constant => exact (constant_commutes env _).bind push_commutes
  | pop => exact pop_commutes.discard
  | «true» => exact push_commutes _
  | «false» => exact push_commutes _
  | null => exact push_commutes _
  | equal => exact compareEqual_commutes _
  | notEqual => exact compareEqual_commutes _
  | binaryOp => exact applyBinary_commutes (hw rfl) _
  | minus => exact negate_commutes (hw rfl)
  | complement => exact complement_commutes (hw rfl)
  | not => exact logicalNot_commutes
  | jump => exact jump_commutes _
  | jumpFalsy => exact jumpFalsy_commutes _
  | andJump => exact jumpDecided_commutes _ _
  | orJump => exact jumpDecided_commutes _ _
  | array => exact makeArray_commutes (hw rfl) _
  | map => exact makeMap_commutes (hw rfl) _
  | error => exact makeError_commutes (hw rfl)
  | immutable => exact freeze_commutes (hw rfl)
  | index => exact index_commutes
  | slice => exact slice_commutes (hw rfl)
  | getGlobal => exact (getGlobal_commutes _).bind push_commutes
  | setGlobal => exact pop_commutes.bind fun v => setGlobal_commutes _ v
  | setSelGlobal =>
    refine (popMany_commutes _).bind fun keys => pop_commutes.bind fun value => ?_
    exact (getGlobal_commutes _).bind fun target => assignPart_commutes target value keys
  | getBuiltin => exact pushBuiltin_commutes _
  | currentFunc => exact currentFunction_commutes.bind push_commutes
  | iterInit => exact startIteration_commutes (hw rfl)
  | iterNext => exact iterationNext_commutes
  | iterKey => exact iterationPart_commutes fun _ _ => rfl
  | iterValue => exact iterationPart_commutes fun _ _ => rfl
  | ret => exact pure ()
  | suspend => exact pure ()
  | _ => cases hop

end Machine

end Scripting
