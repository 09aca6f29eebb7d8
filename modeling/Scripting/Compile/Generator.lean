import Scripting.Compile.Error
import Scripting.Heap
import Scripting.Limits
/-!
# `Compile.Generator` — writing code

The state of a compilation and the steps that change it: appending instructions, patching jumps,
adding constants, opening and closing scopes. Each step works on the code of the function that is
being compiled; the functions around it wait in `Generator.outer`.

A failed step keeps the state it has reached. `Generator.recover` brings the state back to a mark, so
that compilation can go on after a faulty statement and report several errors.
-/

namespace Scripting

/-- The jumps out of one loop that still need a target. -/
structure PendingJumps where
  continues : List Nat := []
  breaks : List Nat := []
  deriving Inhabited

/-- The code of one function so far. -/
structure CodeScope where
  code : Bytes := #[]
  positions : SourceMap := .empty
  /-- The loops around the current statement, innermost first. -/
  loops : List PendingJumps := []
  deriving Inhabited

structure Generator where
  table : SymbolTable := SymbolTable.withBuiltins
  constants : Array Value := #[]
  /-- The function that is being compiled. -/
  scope : CodeScope := {}
  /-- The functions around it, innermost first. -/
  outer : List CodeScope := []
  /-- The number of functions around the main program or module at hand. -/
  unitDepth : Nat := 0
  /-- The routines of the modules that are compiled already. -/
  modules : Dict Ref := .empty
  /-- The modules that are being compiled, innermost first. -/
  importing : List String := []
  errors : Array CompileError := #[]
  /-- Too many errors: no more are collected. -/
  aborted : Bool := false
  heap : Heap := {}
  deriving Inhabited

abbrev Gen (α : Type) := EStateM CompileError Generator α

namespace Generator

/-! ## Instructions -/

/-- What there is too much of when an operand does not fit. -/
def operandResource : Opcode → Nat → Resource
  | .constant, _ | .closure, 0 => .constants
  | .closure, _ => .freeVariables
  | .getGlobal, 0 | .setGlobal, 0 | .setSelGlobal, 0 => .globalVariables
  | .getLocal, _ | .setLocal, _ | .defineLocal, _ | .getLocalPtr, _ | .setSelLocal, 0 =>
    .localVariables
  | .getFree, _ | .setFree, _ | .getFreePtr, _ | .setSelFree, 0 => .freeVariables
  | .setSelGlobal, _ | .setSelLocal, _ | .setSelFree, _ => .selectors
  | .call, _ => .arguments
  | .array, _ | .map, _ => .elements
  | op, _ => if op.isJump then .instructionBytes else .operands

/-- The first operand, counted from `i`, that exceeds its width, as a resource and its limit. -/
def excess? (op : Opcode) (i : Nat) : List Nat → List Nat → Option (Resource × Nat)
  | w :: ws, v :: vs =>
    let max := Code.maxOperand w
    if max < v then some (operandResource op i, max) else excess? op (i + 1) ws vs
  | _, _ => none

/-- Append an instruction; gives its offset. -/
def emit (pos : Pos) (op : Opcode) (operands : List Nat) : Gen Nat :=
  match excess? op 0 op.widths operands with
  | some (what, max) => throw { cause := .limit what max, pos }
  | none =>
    modifyGet fun g =>
      let offset := g.scope.code.size
      (offset, { g with
        scope := { g.scope with
          code := g.scope.code ++ (Instruction.assemble { op, operands }).toArray
          positions := if pos.isKnown then g.scope.positions.insert offset pos
            else g.scope.positions } })

/-- Append an instruction whose offset is not needed. -/
def emit_ (pos : Pos) (op : Opcode) (operands : List Nat := []) : Gen Unit :=
  discard (emit pos op operands)

/-- The offset of the next instruction. -/
def here : Gen Nat := fun g => .ok g.scope.code.size g

/-- Give a jump its target. -/
def patchJump (pos : Pos) (jump target : Nat) : Gen Unit :=
  if Code.maxOperand 2 < target then
    throw { cause := .limit .instructionBytes (Code.maxOperand 2), pos }
  else
    modify fun g =>
      { g with scope := { g.scope with code := Code.patchU16 g.scope.code (jump + 1) target } }

/-- Let a jump lead to the next instruction. -/
def patchHere (pos : Pos) (jump : Nat) : Gen Unit := do patchJump pos jump (← here)

/-! ## Constants and variables -/

def addConstant (v : Value) : Gen Nat :=
  modifyGet fun g => (g.constants.size, { g with constants := g.constants.push v })

def emitConstant (pos : Pos) (v : Value) : Gen Unit := do emit_ pos .constant [← addConstant v]

def emitLoad (pos : Pos) (sym : Symbol) : Gen Unit :=
  match sym.kind with
  | .globalVar => emit_ pos .getGlobal [sym.index]
  | .localVar => emit_ pos .getLocal [sym.index]
  | .captured => emit_ pos .getFree [sym.index]
  | .builtin => emit_ pos .getBuiltin [sym.index]
  | .self => emit_ pos .currentFunc

/-- Pop a value into a variable that has just been defined. -/
def emitDefine (pos : Pos) (sym : Symbol) : Gen Unit :=
  match sym.kind with
  | .globalVar => emit_ pos .setGlobal [sym.index]
  | _ => emit_ pos .defineLocal [sym.index]

def define (name : String) : Gen Symbol :=
  modifyGet fun g =>
    let (sym, table) := g.table.define name
    (sym, { g with table })

def resolve? (name : String) : Gen (Option Symbol) :=
  modifyGet fun g =>
    match g.table.resolve name with
    | some (sym, _, table) => (some sym, { g with table })
    | none => (none, g)

/-- What a name stands for in the innermost scope alone. -/
def resolveTop? (name : String) : Gen (Option Symbol) := fun g => .ok (g.table.resolveTop? name) g

/-- Run a step in a block scope, which ends whether the step fails or not. -/
def inBlock {α : Type} (step : Gen α) : Gen α := fun g =>
  match step { g with table := g.table.enter true } with
  | .ok a g => .ok a { g with table := g.table.leave.2 }
  | .error e g => .error e { g with table := g.table.leave.2 }

/-! ## Loops -/

/-- Run a step as part of a loop; gives its result and the jumps out of the loop. The loop ends
whether the step fails or not. -/
def inLoop {α : Type} (step : Gen α) : Gen (α × PendingJumps) := fun g =>
  match step { g with scope := { g.scope with loops := {} :: g.scope.loops } } with
  | .ok a g =>
    .ok (a, g.scope.loops.headD {}) { g with scope := { g.scope with loops := g.scope.loops.tail } }
  | .error e g => .error e { g with scope := { g.scope with loops := g.scope.loops.tail } }

def modifyLoop (f : PendingJumps → PendingJumps) : Gen Unit :=
  modify fun g => { g with
    scope := { g.scope with
      loops := match g.scope.loops with
        | [] => []
        | l :: ls => f l :: ls } }

/-- Jump out of the innermost loop, or to its next round; the target is filled in later. -/
def emitLoopJump (pos : Pos) (cause : CompileCause) (add : Nat → PendingJumps → PendingJumps) :
    Gen Unit := do
  if (← get).scope.loops.isEmpty then throw { cause, pos }
  let jump ← emit pos .jump [0]
  modifyLoop (add jump)

/-- Give the jumps of a loop their targets. -/
def patchLoop (pos : Pos) (jumps : PendingJumps) (next done : Nat) : Gen Unit := do
  jumps.breaks.forM fun j => patchJump pos j done
  jumps.continues.forM fun j => patchJump pos j next

/-! ## Functions -/

def openFunction : Gen Unit :=
  modify fun g => { g with
    scope := {}
    outer := g.scope :: g.outer
    table := g.table.enter false }

/-- Drop nested functions until at most `depth` functions are around the current one. -/
def unwind (g : Generator) (depth : Nat) : Generator :=
  match (g.scope :: g.outer).drop (g.outer.length - depth) with
  | scope :: outer => { g with scope, outer }
  | [] => g

/-- End the code of a nested function; gives its code and the summary of its scope. -/
def closeFunction : Gen (CodeScope × ScopeSummary) :=
  modifyGet fun g =>
    let (summary, table) := g.table.leave
    let (scope, outer) : CodeScope × List CodeScope :=
      match g.outer with
      | s :: rest => (s, rest)
      | [] => ({}, [])
    ((g.scope, summary), { g with table, scope, outer })

def newRoutine (r : Routine) : Gen Ref :=
  modifyGet fun g =>
    let (ref, heap) := g.heap.newFunction r
    (ref, { g with heap })

def newFrozenMap (d : Dict Value) : Gen Value :=
  modifyGet fun g =>
    let (v, heap) := g.heap.newMap .frozen d
    (v, { g with heap })

/-! ## Recovery -/

/-- Errors that are collected before compilation gives up. -/
def maxErrors : Nat := 10

/-- What to go back to when a statement fails. -/
structure Mark where
  scopes : Nat
  functions : Nat
  loops : Nat

def mark (g : Generator) : Mark :=
  { scopes := g.table.depth, functions := g.outer.length, loops := g.scope.loops.length }

/-- Record the error of a failed statement and go back to the mark before it. Fails when there are too
many errors; after that, errors are passed on as they are. -/
def recover (m : Mark) (e : CompileError) : Gen Unit := fun g =>
  if g.aborted then .error e g
  else
    let g := { g with table := g.table.truncate m.scopes }.unwind m.functions
    let loops := g.scope.loops.drop (g.scope.loops.length - m.loops)
    let errors := g.errors.push e
    let g := { g with scope := { g.scope with loops }, errors }
    if maxErrors < errors.size then .error e { g with aborted := true } else .ok () g

end Generator

end Scripting
