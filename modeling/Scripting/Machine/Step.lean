import Scripting.Machine.Call
import Scripting.Machine.Operation
/-!
# `Machine.Step` — one instruction
-/

namespace Scripting.Machine

open Code

/-- What the machine finds at the next offset of the running function. -/
inductive Fetched
  /-- The end of the code. -/
  | nothing
  | broken (fault : Fault)
  | instruction (op : Opcode) (code : Bytes) (offset : Nat)

@[noinline] def fetch (m : Machine) : Fetched :=
  let code := (m.heap.routineAt m.frame.routine).code
  let offset := m.frame.next
  if h : offset < code.size then
    match Opcode.ofByte? code[offset] with
    | none => .broken (.invalidOpcode code[offset].toNat)
    | some op =>
      if code.size < offset + op.length then .broken (.truncated op)
      else .instruction op code offset
  else .nothing

/-- Run an instruction other than those that end a function. `code` and `offset` are where its operands
are read. -/
def perform (env : Env) (op : Opcode) (code : Bytes) (offset : Nat) : Exec Unit :=
  match op with
  | .constant => do push (← constant env (readU16 code (offset + 1)))
  | .pop => discard pop
  | .true => push (.bool true)
  | .false => push (.bool false)
  | .null => push .undefined
  | .equal => compareEqual true
  | .notEqual => compareEqual false
  | .binaryOp => applyBinary (readU8 code (offset + 1))
  | .minus => negate
  | .complement => complement
  | .not => logicalNot
  | .jump => jump (readU16 code (offset + 1))
  | .jumpFalsy => jumpFalsy (readU16 code (offset + 1))
  | .andJump => jumpDecided false (readU16 code (offset + 1))
  | .orJump => jumpDecided true (readU16 code (offset + 1))
  | .array => makeArray (readU16 code (offset + 1))
  | .map => makeMap (readU16 code (offset + 1))
  | .error => makeError
  | .immutable => freeze
  | .index => index
  | .slice => slice
  | .call => call env (readU8 code (offset + 1)) (readU8 code (offset + 2) == 1)
  | .getGlobal => do push (← getGlobal (readU16 code (offset + 1)))
  | .setGlobal => do setGlobal (readU16 code (offset + 1)) (← pop)
  | .setSelGlobal =>
    assignSelected (getGlobal (readU16 code (offset + 1))) (readU8 code (offset + 3))
  | .getLocal => do push (← getLocal (readU8 code (offset + 1)))
  | .setLocal => do setLocal (readU8 code (offset + 1)) (← pop)
  | .defineLocal => do defineLocal (readU8 code (offset + 1)) (← pop)
  | .setSelLocal =>
    assignSelected (getLocal (readU8 code (offset + 1))) (readU8 code (offset + 2))
  | .getLocalPtr => do capture (← shareLocal (readU8 code (offset + 1)))
  | .getFree => do push (← getFree (readU8 code (offset + 1)))
  | .setFree => do setFree (readU8 code (offset + 1)) (← pop)
  | .setSelFree =>
    assignSelected (getFree (readU8 code (offset + 1))) (readU8 code (offset + 2))
  | .getFreePtr => do capture (← freeCell (readU8 code (offset + 1)))
  | .getBuiltin => pushBuiltin (readU8 code (offset + 1))
  | .closure => makeClosure env (readU16 code (offset + 1)) (readU8 code (offset + 3))
  | .currentFunc => do push (← currentFunction)
  | .currentFuncPtr => do
    let callee ← currentFunction
    capture (← make (·.newCell callee))
  | .iterInit => startIteration
  | .iterNext => iterationNext
  | .iterKey => iterationPart Value.iterKey
  | .iterValue => iterationPart Value.iterValue
  | .ret | .suspend => pure ()

/-- Run an instruction; answers whether it ends the run. -/
def execute (env : Env) (op : Opcode) (code : Bytes) (offset : Nat) : Exec Bool :=
  match op with
  | .suspend => return true
  | .ret => do
    let v ← if readU8 code (offset + 1) == 1 then pop else pure .undefined
    finish v
  | op => do
    perform env op code offset
    return false

/-- **Run the next instruction**; answers whether it ended the run. -/
def step (env : Env) : Exec Bool := fun m =>
  match countStep env.limits m with
  | .error f m => .error f m
  | .ok _ m =>
    match fetch m with
    | .nothing => finish .undefined m
    | .broken fault => .error fault m
    | .instruction op code offset =>
      execute env op code offset { m with
        frame := { m.frame with current := offset, next := offset + op.length } }

end Scripting.Machine
