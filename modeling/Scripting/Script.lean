import Scripting.Compile.Unit
import Scripting.Machine.Run
import Scripting.Program.Pool
import Scripting.Value.Copy
/-!
# `Script` — programs with variables of the host

A host program adds variables and modules to a script, compiles it to an instance, runs the instance
and reads its variables back. An instance can be run any number of times; its global variables keep
their values from one run to the next. A *protected* run works on deep copies of the variables. Functions
are not copied, so a variable that a function has captured is shared with the instance.
-/

namespace Scripting

/-- A program together with the variables and modules that the host gives it. -/
structure Script where
  body : List Stmt
  files : FileSet := {}
  bindings : Dict Value := .empty
  modules : ModuleMap := .empty
  limits : Limits.Run := {}

/-- A compiled script with its global variables. -/
structure Instance where
  program : Program
  globals : Array Value := #[]
  /-- The slot of every variable that the host can see. -/
  slots : Dict Nat := .empty
  limits : Limits.Run := {}

namespace Script

def add (s : Script) (name : String) (v : Value) : Script :=
  { s with bindings := s.bindings.insert name v }

/-- Take a variable away; answers whether there was one. -/
def remove (s : Script) (name : String) : Bool × Script :=
  (s.bindings.contains name, { s with bindings := s.bindings.erase name })

/-- Define the variables of the host, in order; gives their slots. -/
def defineAll : List String → SymbolTable → List Nat × SymbolTable
  | [], table => ([], table)
  | name :: names, table =>
    let (sym, table) := table.define name
    let (slots, table) := defineAll names table
    (sym.index :: slots, table)

/-- Can the host see a variable of this name? The others hold the iterators of loops. -/
def isVisible (name : String) : Bool := !name.startsWith ":"

/-- **Compile a script.** The variables of the host are the first global variables. -/
def compile (s : Script) (heap : Heap) : Except (List CompileError) Instance × Heap :=
  let (slots, table) := defineAll s.bindings.keys SymbolTable.withBuiltins
  match Generator.compile s.files s.modules s.body { table, heap } with
  | (.error es, g) => (.error es, g.heap)
  | (.ok program, g) =>
    let (program, heap) := program.merged g.heap
    let blank := Array.replicate g.table.globalSlots Value.undefined
    let globals := (slots.zip s.bindings.values).foldl
      (fun globals (slot, v) => globals.setIfInBounds slot v) blank
    let visible := (g.table.globals.filter (isVisible ·.name)).map fun sym => (sym.name, sym.index)
    (.ok { program, globals, slots := Dict.ofList visible, limits := s.limits }, heap)

end Script

namespace Instance

/-- **Run an instance.** Its variables keep the values that the run gave them, even if it failed. -/
def run (i : Instance) (host : String → List Value → Action Value) (heap : Heap)
    (fuel : Nat := Machine.ampleFuel) : Outcome × Instance × Heap :=
  let result := i.program.run i.limits host i.globals heap fuel
  (result.outcome, { i with globals := result.globals }, result.heap)

/-- An instance of the same program with deep copies of the variables. -/
def clone (i : Instance) : Action Instance := do
  return { i with globals := ← i.globals.mapM Value.copy }

/-- **Run a copy of an instance.** Gives the copy. -/
def runProtected (i : Instance) (host : String → List Value → Action Value) (heap : Heap)
    (fuel : Nat := Machine.ampleFuel) : Outcome × Instance × Heap :=
  match i.clone heap with
  | .ok copy heap => copy.run host heap fuel
  | .error cause heap => (.failed { fault := .operation cause }, i, heap)

def get? (i : Instance) (name : String) : Option Value :=
  (i.slots.get? name).map fun slot => i.globals.getD slot .undefined

/-- Change a variable; `none` if there is none of that name. -/
def set? (i : Instance) (name : String) (v : Value) : Option Instance :=
  (i.slots.get? name).map fun slot =>
    let missing := slot + 1 - i.globals.size
    { i with
      globals := (i.globals ++ Array.replicate missing Value.undefined).setIfInBounds slot v }

def notDefined (name : String) : String := "'" ++ name ++ "' is not defined"

/-- Is there a variable of that name with a value? -/
def isDefined (i : Instance) (name : String) : Bool := (i.get? name).any (!·.isUndefined)

/-- All variables, by slot. -/
def bindings (i : Instance) : List (String × Value) :=
  (i.slots.entries.mergeSort (fun a b => a.2 ≤ b.2)).map fun (name, slot) =>
    (name, i.globals.getD slot .undefined)

end Instance

end Scripting
