import Scripting.Image
/-!
# `Image.Binary` — the binary form of programs

The fields of an image one after the other, without marks in between. A literal begins with the number
of its variant.
-/

namespace Scripting

namespace Wire

def pos (p : Pos) : List UInt8 := nat p.index

def sourceFile (f : SourceFile) : List UInt8 :=
  text f.name ++ nat f.base ++ nat f.size ++ seq nat f.lines.toList

def fileSet (s : FileSet) : List UInt8 := nat s.nextBase ++ seq sourceFile s.files.toList

def rawByte (b : UInt8) : List UInt8 := [b]

def routine (f : Routine) : List UInt8 :=
  seq rawByte f.code.toList ++ nat f.locals ++ nat f.params ++ bool f.variadic ++
    seq text f.free ++ seq (fun e => nat e.1 ++ pos e.2) f.positions.toList

mutual

def literal : Literal → List UInt8
  | .int n => nat 0 ++ int n
  | .float x => nat 1 ++ word x.bits
  | .char c => nat 2 ++ text c.toString
  | .bool b => nat 3 ++ bool b
  | .str s => nat 4 ++ text s
  | .bytes bs => nat 5 ++ seq rawByte bs
  | .array .mutable items => nat 6 ++ nat items.length ++ literals items
  | .array .frozen items => nat 7 ++ nat items.length ++ literals items
  | .map .mutable entries => nat 8 ++ nat entries.length ++ literalEntries entries
  | .map .frozen entries => nat 9 ++ nat entries.length ++ literalEntries entries
  | .error payload => nat 10 ++ literal payload
  | .undefined => nat 11
  | .function f => nat 12 ++ routine f
  | .builtin name => nat 13 ++ text name
  | .time n => nat 14 ++ int n

def literals : List Literal → List UInt8
  | [] => []
  | l :: ls => literal l ++ literals ls

def literalEntries : List (String × Literal) → List UInt8
  | [] => []
  | (key, l) :: ls => text key ++ literal l ++ literalEntries ls

end

namespace Reader

def pos : Reader Pos := return ⟨← nat⟩

def sourceFile : Reader SourceFile := do
  let name ← text
  let base ← nat
  let size ← nat
  let lines ← seq nat
  return { name, base, size, lines := lines.toArray }

def fileSet : Reader FileSet := do
  let nextBase ← nat
  let files ← seq sourceFile
  return { nextBase, files := files.toArray }

def position : Reader (Nat × Pos) := do
  let offset ← nat
  let p ← pos
  return (offset, p)

def routine : Reader Routine := do
  let code ← seq byte
  let locals ← nat
  let params ← nat
  let variadic ← bool
  let free ← seq text
  let positions ← seq position
  return {
    code := code.toArray
    locals
    params
    variadic
    free
    positions := SourceMap.ofList positions }

def entry (value : Reader Literal) : Reader (String × Literal) := do
  let key ← text
  let v ← value
  return (key, v)

/-- A literal nested at most `depth` levels. -/
def literalTo : Nat → Reader Literal
  | 0 => throw .endOfInput
  | depth + 1 => do
    match ← variant with
    | 0 => return .int (← int)
    | 1 => return .float ⟨← word⟩
    | 2 => return .char (← char)
    | 3 => return .bool (← bool)
    | 4 => return .str (← text)
    | 5 => return .bytes (← seq byte)
    | 6 => return .array .mutable (← seq (literalTo depth))
    | 7 => return .array .frozen (← seq (literalTo depth))
    | 8 => return .map .mutable (← seq (entry (literalTo depth)))
    | 9 => return .map .frozen (← seq (entry (literalTo depth)))
    | 10 => return .error (← literalTo depth)
    | 11 => return .undefined
    | 12 => return .function (← routine)
    | 13 => return .builtin (← text)
    | 14 => return .time (← int)
    | _ => throw .invalidVariant

/-- A literal. Every level of nesting takes a byte, so the input bounds the depth. -/
def literal : Reader Literal := fun bs => literalTo (bs.length + 1) bs

end Reader

end Wire

namespace Image

open Wire

def encode (image : Image) : List UInt8 :=
  fileSet image.files ++ routine image.main ++ seq Wire.literal image.constants

/-- Read an image from the front of some bytes. -/
def read : Reader Image := do
  let files ← Reader.fileSet
  let main ← Reader.routine
  let constants ← Reader.seq Reader.literal
  return { files, main, constants }

end Image

namespace Program

/-- **The binary form of a program.** -/
def encode (h : Heap) (p : Program) : Except WireError (List UInt8) :=
  return (← p.image h).encode

/-- **Read a program from its binary form.** Bytes after the end are ignored. -/
def decode (bytes : List UInt8) (h : Heap) : Except WireError (Program × Heap) := do
  let (image, _) ← Image.read bytes
  image.load h

end Program

end Scripting
