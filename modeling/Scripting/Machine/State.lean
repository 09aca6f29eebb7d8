import Scripting.Machine.Fault
import Scripting.Program
import Scripting.Value.Action
/-!
# `Machine.State` — the state of a run

A machine has an operand stack, a vector of local variables and a stack of frames, one for each call
that has not returned. Every frame owns the part of the local variables from its base up to the base of
the frame above it. A local variable is a plain value until a closure captures it; from then on it is a
cell in the heap that frame and closures share.

Steps that may abort the run are written in `Exec`. An aborted run keeps its state, so that the place
of the fault and everything that happened before it can still be seen.
-/

namespace Scripting

/-- What a run may use. Without a bound, a run may use as much as it likes. -/
structure Limits.Run where
  callDepth : Nat := 1024
  stackSize : Nat := 2048
  steps : Option Nat := none
  /-- A word, which may be negative: then no allocation is allowed. -/
  allocations : Option Int64 := none
  deriving DecidableEq, Repr, Inhabited

/-- A local variable. -/
inductive Slot
  | plain (value : Value)
  | shared (cell : Ref)
  deriving DecidableEq, Repr, Inhabited

/-- One call that has not returned. -/
structure Frame where
  routine : Ref
  /-- The closure it was called through. -/
  closure? : Option Ref := none
  /-- The offset of the next instruction. -/
  next : Nat := 0
  /-- The offset of the instruction that runs. -/
  current : Nat := 0
  /-- The number of local variables of the frames below. -/
  localsBase : Nat := 0
  /-- The height of the stack below the callee. -/
  stackBase : Nat := 0
  deriving DecidableEq, Repr, Inhabited

/-- The function value that runs in a frame. -/
def Frame.callee (f : Frame) : Value :=
  match f.closure? with
  | some c => .closure c
  | none => .function f.routine

structure Machine where
  heap : Heap := {}
  globals : Array Value := #[]
  stack : Array Value := #[]
  locals : Array Slot := #[]
  /-- Cells that wait for the next closure. -/
  captures : Array Ref := #[]
  /-- The frame that runs. -/
  frame : Frame
  /-- The frames below it, outermost first. -/
  callers : Array Frame := #[]
  /-- Instructions begun so far. -/
  steps : Nat := 0
  /-- Allocations left, if they are limited. -/
  allocations : Option Int64 := none
  deriving Inhabited

/-- What a run needs besides its state: the constants, the limits and the functions of the host. -/
structure Machine.Env where
  constants : Array Value := #[]
  limits : Limits.Run := {}
  host : String → List Value → Action Value

/-- A computation on the machine that may abort the run. -/
abbrev Exec (α : Type) := EStateM Fault Machine α

namespace Machine

/-! ## The heap -/

/-- Run an operation on the heap. A failure becomes a fault that may depend on the heap. -/
@[inline] def onHeap {ε α : Type} (asFault : Heap → ε → Fault) (action : EStateM ε Heap α) : Exec α
  | { heap, globals, stack, locals, captures, frame, callers, steps, allocations } =>
    match action heap with
    | .ok a heap =>
      .ok a { heap, globals, stack, locals, captures, frame, callers, steps, allocations }
    | .error e heap =>
      .error (asFault heap e)
        { heap, globals, stack, locals, captures, frame, callers, steps, allocations }

@[inline] def act {α : Type} (action : Action α) : Exec α := onHeap (fun _ => .operation) action

@[inline] def readHeap {α : Type} (f : Heap → α) : Exec α := fun m => .ok (f m.heap) m

@[inline] def make {α : Type} (f : Heap → α × Heap) : Exec α := act (Action.make f)

def typeName (v : Value) : Exec String := readHeap v.typeName

/-- Abort the run because of the type of a value. -/
def refuse {α : Type} (cause : String → Fault) (v : Value) : Exec α := do
  throw (cause (← typeName v))

/-! ## Limits -/

/-- Count an instruction, and abort the run if it has had too many or its stack is too high. -/
def countStep (limits : Limits.Run) : Exec Unit := fun m =>
  let steps := m.steps + 1
  let m := { m with steps }
  match limits.steps with
  | some max =>
    if max < steps then .error (.stepLimit max) m
    else if limits.stackSize < m.stack.size then .error .stackOverflow m
    else .ok () m
  | none => if limits.stackSize < m.stack.size then .error .stackOverflow m else .ok () m

/-- Count an allocation, and abort the run if there are none left. The count is a word: below the least
one it starts over from the greatest. -/
def countAllocation : Exec Unit := fun m =>
  match m.allocations with
  | none => .ok () m
  | some left =>
    let m := { m with allocations := some (left - 1) }
    if left - 1 < 0 then .error .allocationLimit m else .ok () m

/-! ## The stack -/

def push (v : Value) : Exec Unit := fun m => .ok () { m with stack := m.stack.push v }

def pop : Exec Value := fun m =>
  match m.stack.back? with
  | some v => .ok v { m with stack := m.stack.pop }
  | none => .error .stackUnderflow m

def peek : Exec Value := fun m =>
  match m.stack.back? with
  | some v => .ok v m
  | none => .error .stackUnderflow m

/-- Pop `n` values; the one that was pushed first comes first. -/
def popMany (n : Nat) : Exec (List Value) := fun m =>
  if m.stack.size < n then .error .stackUnderflow m
  else
    let rest := m.stack.size - n
    let values := (m.stack.extract rest).toList
    .ok values { m with stack := m.stack.shrink rest }

/-- Push a newly made value, which counts as an allocation. -/
def pushNew (v : Value) : Exec Unit := do
  countAllocation
  push v

/-! ## Variables -/

def slotValue (h : Heap) : Slot → Value
  | .plain v => v
  | .shared cell => h.cellAt cell

def localSlot (i : Nat) : Exec Slot := fun m =>
  match m.locals[m.frame.localsBase + i]? with
  | some slot => .ok slot m
  | none => .error (.invalidLocal i) m

def getLocal (i : Nat) : Exec Value := do
  let slot ← localSlot i
  readHeap (slotValue · slot)

def setSlot (i : Nat) (slot : Slot) : Exec Unit := fun m =>
  .ok () { m with locals := m.locals.setIfInBounds (m.frame.localsBase + i) slot }

/-- Change a local variable, for every closure that captured it too. -/
def setLocal (i : Nat) (v : Value) : Exec Unit := do
  match ← localSlot i with
  | .plain _ => setSlot i (.plain v)
  | .shared cell => act (modify (·.setCell cell v))

/-- Begin a new variable in a slot. Closures that captured the variable before keep that one. -/
def defineLocal (i : Nat) (v : Value) : Exec Unit := do
  discard (localSlot i)
  setSlot i (.plain v)

/-- The cell of a local variable; from now on the variable is shared. -/
def shareLocal (i : Nat) : Exec Ref := do
  match ← localSlot i with
  | .shared cell => return cell
  | .plain v =>
    let cell ← make (·.newCell v)
    setSlot i (.shared cell)
    return cell

/-- The cell of a variable that the running closure captured. -/
def freeCell (i : Nat) : Exec Ref := fun m =>
  match m.frame.closure?.bind fun c => (m.heap.closureAt c).cells[i]? with
  | some cell => .ok cell m
  | none => .error (.invalidFree i) m

def getFree (i : Nat) : Exec Value := do
  let cell ← freeCell i
  readHeap (·.cellAt cell)

def setFree (i : Nat) (v : Value) : Exec Unit := do
  let cell ← freeCell i
  act (modify (·.setCell cell v))

/-- Let a cell wait for the next closure. -/
def capture (cell : Ref) : Exec Unit := fun m => .ok () { m with captures := m.captures.push cell }

/-- The value of a global variable; undefined beyond the last one. -/
def getGlobal (i : Nat) : Exec Value := fun m => .ok (m.globals.getD i .undefined) m

/-- Change a global variable; those in between are made as needed. -/
def setGlobal (i : Nat) (v : Value) : Exec Unit := fun m =>
  .ok () { m with
    globals :=
      if i < m.globals.size then m.globals.setIfInBounds i v
      else (m.globals ++ Array.replicate (i - m.globals.size) Value.undefined).push v }

/-! ## Control -/

/-- Go on at another instruction of the running function. -/
def jump (target : Nat) : Exec Unit := fun m =>
  .ok () { m with frame := { m.frame with next := target } }

def constant (env : Env) (i : Nat) : Exec Value :=
  match env.constants[i]? with
  | some v => pure v
  | none => throw (.invalidConstant i)

/-- End the running function with a result for the frame below. Without a frame below, that ends the
run. -/
def finish (v : Value) : Exec Bool := fun m =>
  match m.callers.back? with
  | none => .ok true m
  | some caller =>
    .ok false { m with
      stack := (m.stack.shrink m.frame.stackBase).push v
      locals := m.locals.shrink m.frame.localsBase
      frame := caller
      callers := m.callers.pop }

end Machine

end Scripting
