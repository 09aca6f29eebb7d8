import Scripting.Builtin.Call
import Scripting.Machine.State
/-!
# `Machine.Call` — calling functions

The callee lies below its arguments. A compiled function gets a frame of its own, with its arguments as
the first local variables; built-ins and functions of the host run at once and leave their result. A
native function that fails gives an error value, it does not abort the run.
-/

namespace Scripting.Machine

/-- Replace the last argument by its items; gives the new number of arguments. -/
def spreadLast (args : Nat) : Exec Nat := do
  let last ← pop
  match ← readHeap (·.items? last) with
  | some items =>
    modify fun m => { m with stack := m.stack ++ items }
    return args - 1 + items.size
  | none => refuse .notArray last

def collectRest (args fixed : Nat) : Exec Unit := do
  let rest ← popMany (args - fixed)
  countAllocation
  push (← make (·.newArray .mutable rest.toArray))

/-- Bind arguments to parameters; gives the number of values to move to local variables. -/
def bindArguments (f : Routine) (args : Nat) : Exec Nat := do
  if f.variadic then
    let fixed := f.params - 1
    if args < fixed then throw (.tooFewArguments fixed args)
    collectRest args fixed
    return fixed + 1
  else if args = f.params then return args
  else throw (.wrongArguments f.params args)

/-- Open a frame for a function whose `args` arguments are on top of the stack. -/
def openFrame (routine : Ref) (closure? : Option Ref) (locals args : Nat) : Exec Unit := fun m =>
  let rest := m.stack.size - args
  let values := (m.stack.extract rest).map Slot.plain
  let stackBase := rest - 1
  let localsBase := m.locals.size
  .ok () { m with
    stack := m.stack.shrink stackBase
    locals := m.locals ++ values ++ Array.replicate (locals - args) (.plain .undefined)
    frame := { routine, closure?, localsBase, stackBase }
    callers := m.callers.push m.frame }

def callRoutine (limits : Limits.Run) (routine : Ref) (closure? : Option Ref) (args : Nat) :
    Exec Unit := do
  let f ← readHeap (·.routineAt routine)
  let args ← bindArguments f args
  if limits.callDepth ≤ (← get).callers.size + 1 then throw (.callDepth limits.callDepth)
  openFrame routine closure? f.locals args

/-- Call a function that runs outside the machine. -/
def callNative (f : List Value → Action Value) (args : Nat) : Exec Unit := do
  let values ← popMany args
  discard pop
  let result ← act fun h =>
    match f values h with
    | .ok v h => .ok v h
    | .error e h => Action.newError (.str e.message) h
  pushNew result

def calleeBelow (args : Nat) : Exec Value := fun m =>
  match m.stack[m.stack.size - args - 1]? with
  | some v => .ok v m
  | none => .error .stackUnderflow m

/-- **Call the function below its arguments.** With `spread`, the items of the last argument are
arguments of their own. -/
def call (env : Env) (args : Nat) (spread : Bool) : Exec Unit := do
  if (← get).stack.size < args + 1 then throw .stackUnderflow
  let args ← if spread && args != 0 then spreadLast args else pure args
  match ← calleeBelow args with
  | .function routine => callRoutine env.limits routine none args
  | .closure c =>
    let closure ← readHeap (·.closureAt c)
    callRoutine env.limits closure.routine (some c) args
  | .builtin b => callNative b.call args
  | .host r =>
    let name ← readHeap (·.hostAt r)
    callNative (env.host name) args
  | v => refuse .notCallable v

end Scripting.Machine
