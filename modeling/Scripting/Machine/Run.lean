import Scripting.Diagnostic
import Scripting.Machine.Step
/-!
# `Machine.Run` — running a program

A run executes one instruction after the other until the program ends or a fault aborts it. Not every
program ends, so a run is given a number of instructions that it may execute (`fuel`); one that has not
ended by then is `unfinished`. More fuel never changes the outcome of a run that is finished.
-/

namespace Scripting

/-- A fault with the places that led to it, innermost first. Computing them may fail. -/
structure RunError where
  fault : Fault
  trace : Except Overflow (List Location) := .ok []
  deriving DecidableEq, Repr

def RunError.text (e : RunError) : Except Overflow String := return Diagnostic.runText e.fault.message (← e.trace)

inductive Outcome
  | finished
  | failed (error : RunError)
  /-- The run has used up its fuel. -/
  | unfinished
  deriving DecidableEq, Repr

namespace Machine

/-- The machine that is about to run a program. -/
def start (main : Ref) (limits : Limits.Run) (globals : Array Value) (heap : Heap) : Machine :=
  { heap, globals, frame := { routine := main }, allocations := limits.allocations }

/-- The positions of the running instructions, innermost first. -/
def positions (m : Machine) : List Pos :=
  (m.frame :: m.callers.toList.reverse).map fun f =>
    (m.heap.routineAt f.routine).positions.find f.current

/-- The places of the running instructions that are known, innermost first. -/
def trace (files : FileSet) (m : Machine) : Except Overflow (List Location) :=
  return (← m.positions.mapM files.locate).filter (·.isKnown)

def runFor (env : Env) (files : FileSet) : (fuel : Nat) → Machine → Outcome × Machine
  | 0, m => (.unfinished, m)
  | fuel + 1, m =>
    match step env m with
    | .ok true m => (.finished, m)
    | .ok false m => runFor env files fuel m
    | .error fault m => (.failed { fault, trace := m.trace files }, m)

structure Result where
  outcome : Outcome
  globals : Array Value
  steps : Nat
  heap : Heap

end Machine

/-- Enough instructions for every run that a person waits for. -/
def Machine.ampleFuel : Nat := 1000000000000000000

/-- **Run a program** on global variables. -/
def Program.run (p : Program) (limits : Limits.Run) (host : String → List Value → Action Value)
    (globals : Array Value) (heap : Heap) (fuel : Nat := Machine.ampleFuel) : Machine.Result :=
  let env : Machine.Env := { constants := p.constants, limits, host }
  let (outcome, m) := Machine.runFor env p.files fuel (Machine.start p.main limits globals heap)
  { outcome, globals := m.globals, steps := m.steps, heap := m.heap }

end Scripting
