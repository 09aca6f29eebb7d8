import Scripting.Builtin
import Scripting.Dict
/-!
# `SymbolTable` — what names stand for

Scopes nest like the code that is being compiled. A scope is a *function* scope or a *block* inside
one; the outermost scope, the root, counts as a function. Blocks share the slots of their function: a
block's first slot is the next free slot of the scope around it, and slots are reused once a block
ends. A block directly inside the root is the exception: when it ends, all slots that were taken so far
count as taken from then on, because a function may still refer to them. A block inside such a block
gives its slots back when it ends, as one inside a function does.

A name that is defined in an enclosing function is *captured*: every function between definition and
use gets a captured variable of its own, and remembers the symbol it stands for one function further
out (`SymbolTable.resolve`).
-/

namespace Scripting

/-- Where the value of a symbol is kept. -/
inductive SymbolKind
  | globalVar
  | localVar
  | builtin
  | captured
  /-- The function that is being compiled, under the name it is about to get. -/
  | self
  deriving DecidableEq, Repr

def SymbolKind.text : SymbolKind → String
  | globalVar => "GLOBAL"
  | localVar => "LOCAL"
  | builtin => "BUILTIN"
  | captured => "FREE"
  | self => "FUNCTION"

/-- A name with the place of its value: a slot, the number of a built-in or of a captured
variable. -/
structure Symbol where
  name : String
  kind : SymbolKind
  index : Nat
  deriving DecidableEq, Repr

namespace Symbol

/-- Is the symbol visible in nested functions without being captured? -/
def isEverywhere (s : Symbol) : Bool := s.kind = .globalVar || s.kind = .builtin

end Symbol

structure Scope where
  /-- A block inside a function, not a function. -/
  block : Bool := false
  names : Dict Symbol := .empty
  /-- Slots taken by the scope itself. -/
  defined : Nat := 0
  /-- For a function: a bound on all slots ever taken, in its blocks too. -/
  peak : Nat := 0
  /-- For a function: the symbols of the function around it that it captured. -/
  captures : Array Symbol := #[]
  deriving Inhabited

namespace Scope

def bind (s : Scope) (sym : Symbol) : Scope := { s with names := s.names.insert sym.name sym }

def raise (s : Scope) (n : Nat) : Scope := { s with peak := max s.peak n }

/-- Capture a symbol of the function around this one; gives the captured variable. -/
def capture (s : Scope) (sym : Symbol) : Symbol × Scope :=
  let inside : Symbol := { sym with kind := .captured, index := s.captures.size }
  (inside, { s with captures := s.captures.push sym, names := s.names.insert sym.name inside })

end Scope

/-- What is left of a scope when it ends. -/
structure ScopeSummary where
  captures : List Symbol
  locals : Nat
  deriving DecidableEq, Repr

/-- The open scopes: those inside the root, innermost first, and the root. -/
structure SymbolTable where
  inner : List Scope := []
  root : Scope := {}
  /-- The built-ins, in the order of their definition. -/
  builtins : Array Symbol := #[]
  deriving Inhabited

namespace SymbolTable

def depth (t : SymbolTable) : Nat := t.inner.length + 1

/-- Is the innermost scope outside every function? -/
def inGlobal (t : SymbolTable) : Bool := t.inner.all (·.block)

def top (t : SymbolTable) : Scope := t.inner.headD t.root

def modifyTop (t : SymbolTable) (f : Scope → Scope) : SymbolTable :=
  match t with
  | { inner := [], root, builtins } => { inner := [], root := f root, builtins }
  | { inner := s :: rest, root, builtins } => { inner := f s :: rest, root, builtins }

/-- The next free slot in the innermost of some scopes inside the root. -/
def nextSlotIn (root : Scope) : List Scope → Nat
  | [] => root.defined
  | s :: rest => if s.block then nextSlotIn root rest + s.defined else s.defined

def nextSlot (t : SymbolTable) : Nat := nextSlotIn t.root t.inner

/-- Raise the bound on slots in the innermost scope and in every scope out to its function. -/
def raiseIn (n : Nat) (root : Scope) : List Scope → List Scope × Scope
  | [] => ([], root.raise n)
  | s :: rest =>
    if s.block then
      let (rest, root) := raiseIn n root rest
      (s.raise n :: rest, root)
    else (s.raise n :: rest, root)

/-- Raise the bound on slots of the function at hand. -/
def raise (t : SymbolTable) (n : Nat) : SymbolTable :=
  match t with
  | { inner, root, builtins } =>
    let (inner, root) := raiseIn n root inner
    { inner, root, builtins }

/-- **Define a variable** in the innermost scope; it takes the next free slot. -/
def define (t : SymbolTable) (name : String) : Symbol × SymbolTable :=
  let sym : Symbol := { name, kind := if t.inGlobal then .globalVar else .localVar, index := t.nextSlot }
  (sym, (t.modifyTop fun s => { s.bind sym with defined := s.defined + 1 }).raise (sym.index + 1))

/-- Let a name stand for the function that is being compiled. It takes no slot. -/
def defineFunction (t : SymbolTable) (name : String) : Symbol × SymbolTable :=
  let sym : Symbol := { name, kind := .self, index := 0 }
  (sym, t.modifyTop (·.bind sym))

/-- Register a built-in in the root. -/
def defineBuiltin (t : SymbolTable) (index : Nat) (name : String) : Symbol × SymbolTable :=
  let sym : Symbol := { name, kind := .builtin, index }
  (sym, { t with root := t.root.bind sym, builtins := t.builtins.push sym })

def withBuiltins : SymbolTable :=
  Builtin.all.foldl (fun t b => (t.defineBuiltin b.index b.name).2) {}

/-- A table with the built-ins of another one and nothing else. -/
def ofBuiltins (builtins : Array Symbol) : SymbolTable :=
  builtins.foldl (fun t sym => (t.defineBuiltin sym.index sym.name).2) {}

/-- Resolve a name in some scopes inside the root: the symbol as seen from the innermost one, how
many scopes were crossed to find it, and the scopes with the captures that this took. -/
def resolveIn (name : String) (root : Scope) : List Scope → Option (Symbol × Nat × List Scope)
  | [] => (root.names.get? name).map fun sym => (sym, 0, [])
  | s :: rest =>
    match s.names.get? name with
    | some sym => some (sym, 0, s :: rest)
    | none =>
      (resolveIn name root rest).map fun (sym, crossed, rest) =>
        if s.block || sym.isEverywhere then (sym, crossed + 1, s :: rest)
        else
          let (inside, s) := s.capture sym
          (inside, crossed + 1, s :: rest)

/-- **Resolve a name**, from the innermost scope outwards. -/
def resolve (t : SymbolTable) (name : String) : Option (Symbol × Nat × SymbolTable) :=
  (resolveIn name t.root t.inner).map fun (sym, crossed, inner) =>
    (sym, crossed, { t with inner })

/-- What a name stands for in the innermost scope alone. -/
def resolveTop? (t : SymbolTable) (name : String) : Option Symbol := t.top.names.get? name

def enter (t : SymbolTable) (block : Bool) : SymbolTable :=
  { t with inner := { block } :: t.inner }

/-- End the innermost scope. The root stays open. -/
def leave (t : SymbolTable) : ScopeSummary × SymbolTable :=
  match t with
  | { inner := [], root, builtins } =>
    ({ captures := root.captures.toList, locals := root.peak }, { inner := [], root, builtins })
  | { inner := s :: rest, root, builtins } =>
    let root :=
      if s.block && rest.isEmpty then { root with defined := max root.defined root.peak } else root
    ({ captures := s.captures.toList, locals := s.peak }, { inner := rest, root, builtins })

/-- End the `n` innermost scopes. -/
def leaveMany : Nat → SymbolTable → SymbolTable
  | 0, t => t
  | n + 1, t => leaveMany n t.leave.2

/-- End scopes until at most `depth` are open, and at least the root is. -/
def truncate (t : SymbolTable) (depth : Nat) : SymbolTable := t.leaveMany (t.depth - max depth 1)

/-- A bound on all global slots. -/
def globalSlots (t : SymbolTable) : Nat := t.root.peak

/-- The global variables of the root, by slot. -/
def globals (t : SymbolTable) : List Symbol :=
  (t.root.names.values.filter (·.kind = .globalVar)).mergeSort (fun a b => a.index ≤ b.index)

/-- The names of the root, in order. -/
def names (t : SymbolTable) : List String := t.root.names.keys.mergeSort (fun a b => a ≤ b)

end SymbolTable

end Scripting
