import Scripting.Image.Binary
import Scripting.Machine.Run
import Scripting.Program.Listing
/-!
# `CommandLine` — running stored programs

What the command line asks for, and what the answer to it is. Reading the file is left to the caller.
-/

namespace Scripting.CommandLine

/-- What to do with a file. -/
structure Options where
  file : String
  disassemble : Bool := false
  showGlobals : Bool := false
  maxSteps : Option Nat := none
  deriving DecidableEq, Repr

inductive Request
  | help
  /-- The number of steps is none. -/
  | badSteps (found : String)
  | noFile
  | load (options : Options)
  deriving DecidableEq, Repr

/-- What goes to the two outputs, and the exit code. -/
structure Reply where
  code : Nat := 0
  out : String := ""
  err : String := ""
  deriving DecidableEq, Repr

def stepsFlag : String := "--max-steps"

/-- A number of steps: digits, perhaps after a plus sign, below 2 ^ 64. -/
def steps? (s : String) : Option Nat :=
  let digits := match s.toList with
    | '+' :: rest => rest
    | cs => cs
  if digits.isEmpty || !digits.all Char.isDigit then none
  else
    let n := digits.foldl (fun n c => 10 * n + (c.toNat - '0'.toNat)) 0
    if n ≤ 18446744073709551615 then some n else none

/-- The argument after the first occurrence of a flag. -/
def valueAfter? (flag : String) : List String → Option String
  | [] => none
  | arg :: rest => if arg = flag then rest.head? else valueAfter? flag rest

/-- The first argument that is neither a flag nor the value of one. -/
def file? : (previous : String) → List String → Option String
  | _, [] => none
  | previous, arg :: rest =>
    if !arg.startsWith "-" && previous != stepsFlag then some arg else file? arg rest

/-- What the arguments ask for. -/
def parse (args : List String) : Request :=
  if args.contains "--help" || args.contains "-h" then .help
  else
    let steps : Except String (Option Nat) :=
      match valueAfter? stepsFlag args with
      | none => .ok none
      | some v =>
        match steps? v with
        | some n => .ok (some n)
        | none => .error v
    match steps with
    | .error v => .badSteps v
    | .ok maxSteps =>
      match file? "" args with
      | none => .noFile
      | some file => .load {
          file
          disassemble := args.contains "--disasm" || args.contains "-d"
          showGlobals := args.contains "--globals"
          maxSteps }

def usage : String :=
  "CINDER - embeddable scripting engine\n\nUsage:\n" ++
  "  cinder <file>                 Run a compiled bytecode file\n" ++
  "  cinder --disasm <file>        Disassemble instead of running\n" ++
  "  cinder --globals <file>       Print global slots after the run\n" ++
  "  cinder --max-steps N <file>   Abort after N instructions\n" ++
  "  cinder --help, -h             Show this help\n\n" ++
  "Set RUST_LOG=debug (or trace) for engine logs.\n"

def unreadable (file reason : String) : Reply :=
  { code := 1, err := "Failed to read '" ++ file ++ "': " ++ reason ++ "\n" }

/-- A stored program calls no functions of a host. -/
def noHost (_ : String) (_ : List Value) : Action Value := throw .notCallable

def globalLines (h : Heap) (globals : Array Value) : String :=
  String.join (globals.toList.zipIdx.map fun (v, i) => "[" ++ i.repr ++ "] " ++ v.text h ++ "\n")

/-- A process that stops while it reports an error. -/
def stopped (overflow : Overflow) : Reply := { code := 101, err := overflow.message ++ "\n" }

def runProgram (options : Options) (p : Program) (heap : Heap) (fuel : Nat) : Reply :=
  if options.disassemble then { out := p.listing heap }
  else
    let result := p.run { steps := options.maxSteps } noHost #[] heap fuel
    match result.outcome with
    | .failed e =>
      match e.text with
      | .ok text => { code := 1, err := text ++ "\n" }
      | .error overflow => stopped overflow
    | .finished | .unfinished =>
      { out := if options.showGlobals then globalLines result.heap result.globals else "" }

/-- The answer for the content of a file. -/
def runContent (options : Options) (content : List UInt8) (fuel : Nat) : Reply :=
  match Program.decode content {} with
  | .error e =>
    { code := 1, err := "Invalid bytecode in '" ++ options.file ++ "': " ++ e.message ++ "\n" }
  | .ok (p, heap) => runProgram options p heap fuel

/-- **The answer to a request**, given a way to read files. -/
def answer {m : Type → Type} [Monad m] (read : String → m (Except String (List UInt8)))
    (fuel : Nat := Machine.ampleFuel) : Request → m Reply
  | .help => pure { out := usage }
  | .badSteps found =>
    pure { code := 2, err := "Error: --max-steps expects a number, got '" ++ found ++ "'\n" }
  | .noFile => pure { code := 2, out := usage }
  | .load options => do
    match ← read options.file with
    | .error reason => pure (unreadable options.file reason)
    | .ok content => pure (runContent options content fuel)

end Scripting.CommandLine
