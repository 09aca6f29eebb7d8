/-!
# `Source` — positions in source text

A program may be built from several files. All of them share one number line: each file of a
`FileSet` owns the positions `base … base + size` (one for every byte and one for the end), and the
next file starts right after. A bare `Pos` therefore names both a file and an offset in it, and
`FileSet.locate` turns it into a file name, a line and a column.

Line starts are kept as an increasing table of byte offsets; the line of an offset is found by
bisection (`lineIndex`). All these numbers are machine words. A set that is read from bytes may hold
any words, and then a lookup may need a number that is none: it fails (`Overflow`).
-/

namespace Scripting

/-! ## Machine words -/

/-- Words are the numbers below this one. -/
def wordLimit : Nat := 18446744073709551616

/-- What was computed when the result was no word. -/
inductive Overflow
  | sum
  | difference
  deriving DecidableEq, Repr

def Overflow.message : Overflow → String
  | sum => "attempt to add with overflow"
  | difference => "attempt to subtract with overflow"

instance Overflow.decideEq {α : Type} [DecidableEq α] : DecidableEq (Except Overflow α)
  | .ok a, .ok b => decidable_of_iff (a = b) (by simp)
  | .error e, .error f => decidable_of_iff (e = f) (by simp)
  | .ok _, .error _ | .error _, .ok _ => isFalse (by simp)

def addWords (a b : Nat) : Except Overflow Nat :=
  if a + b < wordLimit then .ok (a + b) else .error .sum

def subWords (a b : Nat) : Except Overflow Nat := if b ≤ a then .ok (a - b) else .error .difference

/-! ## Files -/

/-- A position in a file set. Position `0` belongs to no file: it stands for "unknown". -/
structure Pos where
  index : Nat
  deriving DecidableEq, Repr, Inhabited

namespace Pos

def none : Pos := ⟨0⟩

def isKnown (p : Pos) : Bool := p.index != 0

end Pos

/-- A resolved position. Lines and columns count from one; line `0` means that nothing is known
beyond the file name. -/
structure Location where
  file : String := ""
  offset : Nat := 0
  line : Nat := 0
  column : Nat := 0
  deriving DecidableEq, Repr, Inhabited

namespace Location

def isKnown (l : Location) : Bool := 0 < l.line

/-- `file:line:column`, leaving out what is not known; `-` if nothing is. -/
def text (l : Location) : String :=
  if l.isKnown then
    let place := s!"{l.line}:{l.column}"
    if l.file.isEmpty then place else l.file ++ ":" ++ place
  else if l.file.isEmpty then "-"
  else l.file

end Location

/-- One file: its share of the number line and the byte offset of the start of each line. -/
structure SourceFile where
  name : String
  base : Nat
  size : Nat
  lines : Array Nat := #[0]
  deriving DecidableEq, Repr

namespace SourceFile

/-- Record that a line starts at `offset`. Offsets must increase and lie inside the file; any other
offset changes nothing. -/
def addLine (f : SourceFile) (offset : Nat) : SourceFile :=
  if (f.lines.isEmpty || f.lines.back?.getD 0 < offset) && offset < f.size then
    { f with lines := f.lines.push offset }
  else f

/-- The position of a byte offset; offsets past the end mean the end. -/
def pos (f : SourceFile) (offset : Nat) : Pos := ⟨f.base + min offset f.size⟩

/-- The byte offset of a position; `0` for positions before the file. -/
def offset (f : SourceFile) (p : Pos) : Nat := p.index - f.base

/-- Does the position belong to the file? -/
def owns (f : SourceFile) (p : Pos) : Except Overflow Bool :=
  if f.base ≤ p.index then return p.index ≤ (← addWords f.base f.size) else return false

/-- Bisection over `lines[low … low + width - 1]`: the last probe that does not exceed `offset`. -/
def bisect (lines : Array Nat) (offset low width : Nat) : Nat :=
  if width ≤ 1 then low
  else
    let half := width / 2
    let low' := if offset < lines.getD (low + half) 0 then low else low + half
    bisect lines offset low' (width - half)
termination_by width
decreasing_by omega

/-- The index of the line that holds `offset`: of an increasing table, the last line that starts at
or before it. -/
def lineIndex (f : SourceFile) (offset : Nat) : Nat :=
  bisect f.lines offset 0 f.lines.size

/-- The column of an offset in a line that starts at `start`. It fails for a line that starts after the
offset, which bisection ends at if the table does not begin with zero. -/
def columnFrom (start offset : Nat) : Except Overflow Nat := do addWords (← subWords offset start) 1

/-- Resolve a position that belongs to this file; of any other position only the file name is
known. -/
def locate (f : SourceFile) (p : Pos) : Except Overflow Location := do
  let owned ← if p.isKnown then f.owns p else pure false
  if owned then
    let offset := f.offset p
    let index := f.lineIndex offset
    let line ← addWords index 1
    let column ← columnFrom (f.lines.getD index 0) offset
    return { file := f.name, offset, line, column }
  else return { file := f.name }

end SourceFile

/-- The offsets that follow the line breaks of a text, in increasing order. -/
def lineStarts (content : String) : List Nat :=
  (content.toUTF8.toList.zipIdx.filter (·.1 == 10)).map (·.2 + 1)

/-- The files a program was built from, and the first position that is still free. -/
structure FileSet where
  nextBase : Nat := 1
  files : Array SourceFile := #[]
  deriving DecidableEq, Repr, Inhabited

namespace FileSet

/-- Add a file of `size` bytes, so far with one line. -/
def addFile (s : FileSet) (name : String) (size : Nat) : FileSet :=
  { nextBase := s.nextBase + (size + 1),
    files := s.files.push { name, base := s.nextBase, size } }

/-- Record line starts of the file added last. -/
def addLines (s : FileSet) (offsets : List Nat) : FileSet :=
  { s with files := s.files.modify (s.files.size - 1) fun f => offsets.foldl SourceFile.addLine f }

/-- Add a file with the given content and its line table. -/
def addSource (s : FileSet) (name content : String) : FileSet :=
  (s.addFile name content.utf8ByteSize).addLines (lineStarts content)

/-- The first of some files that owns a position. -/
def findOwner? (p : Pos) : List SourceFile → Except Overflow (Option SourceFile)
  | [] => return none
  | f :: fs => do if ← f.owns p then return some f else findOwner? p fs

/-- The file that a position belongs to: the last one that owns it. -/
def owner? (s : FileSet) (p : Pos) : Except Overflow (Option SourceFile) :=
  if p.isKnown then findOwner? p s.files.toList.reverse else return none

/-- **Resolve a position**; the unknown location if it belongs to no file. -/
def locate (s : FileSet) (p : Pos) : Except Overflow Location := do
  match ← s.owner? p with
  | some f => f.locate p
  | none => return {}

end FileSet

end Scripting
