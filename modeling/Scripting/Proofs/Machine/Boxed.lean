import Scripting.Machine.Run
import Scripting.Proofs.Value.Variables
/-!
# `Proofs.Machine.Boxed` — a machine that keeps every variable in a cell

The machine keeps a local variable as a plain value until a closure captures it. The *boxed* machine of
this module is the obvious one: every local variable is a cell of the heap from the beginning. A call
makes a cell for each slot, a definition makes a new one, an assignment writes into the cell that is
there, and a capture hands it out. So a variable *is* a cell, and all that share it hold the same one.

Only two operations differ from those of the machine, `defineLocal` and `openFrame`; on slots that are
cells, the others already do what they should. The rest of this module says when a state of the machine
and a state of the boxed machine correspond:

* **heaps** — `Heap.Renames f h k`: the same objects, and the cell `r` of `h` is the cell `f r` of `k`;
* **slots** — a shared slot is the same cell; a plain one has a cell in the boxed machine that nobody
  else holds and that contains its value;
* **states** — `Boxes f m n`.

What one operation does to such states is in `Proofs.Machine.Boxing`.
-/

namespace Scripting

open Array

/-! ## The boxed machine -/

/-- Make a cell for each of some values. -/
def Heap.addCells (h : Heap) (values : Array Value) : Heap := { h with cells := h.cells ++ values }

namespace Boxed

open Machine Code

/-- Begin a new variable in a slot: a new cell. -/
def defineLocal (i : Nat) (v : Value) : Exec Unit := do
  discard (localSlot i)
  setSlot i (.shared (← make (·.newCell v)))

/-- Open a frame for a function whose `args` arguments are on top of the stack, with a new cell for
every local variable. -/
def openFrame (routine : Ref) (closure? : Option Ref) (locals args : Nat) : Exec Unit := fun m =>
  let rest := m.stack.size - args
  let values := m.stack.extract rest ++ replicate (locals - args) Value.undefined
  let stackBase := rest - 1
  let localsBase := m.locals.size
  .ok () { m with
    heap := m.heap.addCells values
    stack := m.stack.shrink stackBase
    locals := m.locals ++ (range values.size).map fun i => .shared (m.heap.cells.size + i)
    frame := { routine, closure?, localsBase, stackBase }
    callers := m.callers.push m.frame }

/-- Call a compiled function. -/
def callRoutine (limits : Limits.Run) (routine : Ref) (closure? : Option Ref) (args : Nat) :
    Exec Unit := do
  let f ← readHeap (·.routineAt routine)
  let args ← bindArguments f args
  if limits.callDepth ≤ (← get).callers.size + 1 then throw (.callDepth limits.callDepth)
  openFrame routine closure? f.locals args

def call (env : Env) (args : Nat) (spread : Bool) : Exec Unit := do
  if (← get).stack.size < args + 1 then throw .stackUnderflow
  let args ← if spread && args != 0 then spreadLast args else pure args
  match ← calleeBelow args with
  | .function routine => callRoutine env.limits routine none args
  | .closure c =>
    let closure ← readHeap (·.closureAt c)
    callRoutine env.limits closure.routine (some c) args
  | .builtin b => callNative b.call args
  | .host r =>
    let name ← readHeap (·.hostAt r)
    callNative (env.host name) args
  | v => refuse .notCallable v

/-- Run an instruction other than those that end a function. -/
def perform (env : Env) (op : Opcode) (code : Bytes) (offset : Nat) : Exec Unit :=
  match op with
  | .defineLocal => do defineLocal (readU8 code (offset + 1)) (← pop)
  | .call => call env (readU8 code (offset + 1)) (readU8 code (offset + 2) == 1)
  | op => Machine.perform env op code offset

def execute (env : Env) (op : Opcode) (code : Bytes) (offset : Nat) : Exec Bool :=
  match op with
  | .suspend => return true
  | .ret => do
    let v ← if readU8 code (offset + 1) == 1 then pop else pure .undefined
    finish v
  | op => do
    perform env op code offset
    return false

/-- Run the next instruction; answers whether it ended the run. -/
def step (env : Env) : Exec Bool := fun m =>
  match countStep env.limits m with
  | .error f m => .error f m
  | .ok _ m =>
    match fetch m with
    | .nothing => finish .undefined m
    | .broken fault => .error fault m
    | .instruction op code offset =>
      execute env op code offset { m with
        frame := { m.frame with current := offset, next := offset + op.length } }

def runFor (env : Env) (files : FileSet) : (fuel : Nat) → Machine → Outcome × Machine
  | 0, m => (.unfinished, m)
  | fuel + 1, m =>
    match step env m with
    | .ok true m => (.finished, m)
    | .ok false m => runFor env files fuel m
    | .error fault m => (.failed { fault, trace := m.trace files }, m)

end Boxed

/-- **Run a program on the boxed machine.** -/
def Program.runBoxed (p : Program) (limits : Limits.Run) (host : String → List Value → Action Value)
    (globals : Array Value) (heap : Heap) (fuel : Nat) : Machine.Result :=
  let env : Machine.Env := { constants := p.constants, limits, host }
  let (outcome, m) := Boxed.runFor env p.files fuel (Machine.start p.main limits globals heap)
  { outcome, globals := m.globals, steps := m.steps, heap := m.heap }

/-! ## Cells that are added -/

namespace Heap

theorem addCells_size (h : Heap) (values : Array Value) :
    (h.addCells values).cells.size = h.cells.size + values.size := size_append

theorem cellAt_addCells (h : Heap) (values : Array Value) (hr : r < h.cells.size) :
    (h.addCells values).cellAt r = h.cellAt r := by
  unfold cellAt addCells
  rw [getD_eq_getD_getElem?, getD_eq_getD_getElem?, getElem?_append_left hr]

theorem cellAt_addCells_new (h : Heap) (values : Array Value) (i : Nat) :
    (h.addCells values).cellAt (h.cells.size + i) = values.getD i .undefined := by
  unfold cellAt addCells
  rw [getD_eq_getD_getElem?, getD_eq_getD_getElem?,
    getElem?_append_right (Nat.le_add_right ..), Nat.add_sub_cancel_left]

theorem newCell_eq (h : Heap) (v : Value) : h.newCell v = (h.cells.size, h.addCells #[v]) := by
  unfold newCell addCells
  rw [push_eq_append]

end Heap

/-! ## Heaps with the same cells under other names -/

def Closure.rename (f : Ref → Ref) (c : Closure) : Closure := { c with cells := c.cells.map f }

theorem Closure.default_cells : (default : Closure).cells = #[] := rfl

theorem Closure.rename_default : (default : Closure).rename f = default := by
  unfold Closure.rename
  rw [Closure.default_cells, map_empty]
  rfl

/-- Closures hold cells that exist. No run makes a closure over other ones. -/
def Heap.CellsExist (h : Heap) : Prop := ∀ c ∈ h.closures, ∀ r ∈ c.cells, r < h.cells.size

/-- **The cell `r` of `h` is the cell `f r` of `k`**, and apart from the names of cells everything in
`h` is in `k`. There may be more cells in `k`. -/
structure Heap.Renames (f : Ref → Ref) (h k : Heap) : Prop where
  rest : k = h.withCells k.cells (h.closures.map (·.rename f))
  live : h.CellsExist
  lt : ∀ r < h.cells.size, f r < k.cells.size
  inj : ∀ r < h.cells.size, ∀ s < h.cells.size, f r = f s → r = s
  cells : ∀ r < h.cells.size, k.cellAt (f r) = h.cellAt r

/-- A cell of `k` that stands for no cell of `h`. -/
structure Heap.Spare (f : Ref → Ref) (h k : Heap) (d : Ref) : Prop where
  lt : d < k.cells.size
  ne : ∀ r < h.cells.size, f r ≠ d

/-- Two heaps have moved on together: known cells keep their names, and nothing has happened to the
cells that only the second heap has. -/
structure Heap.Evolves (f : Ref → Ref) (h k : Heap) (f' : Ref → Ref) (h' k' : Heap) : Prop where
  renames : Heap.Renames f' h' k'
  grows : h.cells.size ≤ h'.cells.size
  names : ∀ r < h.cells.size, f' r = f r
  spare : ∀ d, Heap.Spare f h k d → Heap.Spare f' h' k' d ∧ k'.cellAt d = k.cellAt d

/-- Two results that are alike, with heaps that have moved on together. -/
inductive Heap.EvolveAlike (f : Ref → Ref) (h k : Heap) {ε α : Type} :
    EStateM.Result ε Heap α → EStateM.Result ε Heap α → Prop
  | ok {a f' h' k'} (evolves : Heap.Evolves f h k f' h' k') :
    EvolveAlike f h k (.ok a h') (.ok a k')
  | error {e f' h' k'} (evolves : Heap.Evolves f h k f' h' k') :
    EvolveAlike f h k (.error e h') (.error e k')

/-- An action to which the names of cells do not matter, nor cells that it does not know of. It may
read and write the cells that it gets to through closures, and make new ones. -/
def Action.IgnoresNames {α : Type} (x : Action α) : Prop :=
  ∀ ⦃f : Ref → Ref⦄ ⦃h k : Heap⦄, Heap.Renames f h k → Heap.EvolveAlike f h k (x h) (x k)

namespace Heap.Renames

variable {f : Ref → Ref} {h k : Heap}

theorem refl (hl : h.CellsExist) : Renames id h h where
  rest := by
    have hid : h.closures.map (·.rename id) = h.closures := by
      have hc : (fun c : Closure => c.rename id) = id := by
        funext c
        simp [Closure.rename]
      rw [hc, map_id]
    rw [hid]
    rfl
  live := hl
  lt _ hr := hr
  inj _ _ _ _ he := he
  cells _ _ := rfl

theorem closures (hr : Renames f h k) : k.closures = h.closures.map (·.rename f) :=
  congrArg Heap.closures hr.rest

theorem closureAt (hr : Renames f h k) (c : Ref) : k.closureAt c = (h.closureAt c).rename f := by
  unfold Heap.closureAt
  rw [hr.closures, getD_eq_getD_getElem?, getD_eq_getD_getElem?, getElem?_map]
  cases h.closures[c]? with
  | none => exact Closure.rename_default.symm
  | some closure => rfl

theorem closureAt_live (hr : Renames f h k) (hm : r ∈ (h.closureAt c).cells) : r < h.cells.size := by
  unfold Heap.closureAt at hm
  rw [getD_eq_getD_getElem?] at hm
  cases hc : h.closures[c]? with
  | none =>
    rw [hc] at hm
    simp [Closure.default_cells] at hm
  | some closure =>
    rw [hc] at hm
    exact hr.live closure (mem_of_getElem? hc) r hm

theorem grow (hr : Renames f h k) (values : Array Value) : Renames f h (k.addCells values) where
  rest := by
    conv => lhs; rw [hr.rest]
    rfl
  live := hr.live
  lt r hlt := by
    rw [addCells_size]
    exact Nat.lt_add_right _ (hr.lt r hlt)
  inj := hr.inj
  cells r hlt := (cellAt_addCells k values (hr.lt r hlt)).trans (hr.cells r hlt)

theorem name (hr : Renames f h k) (hd : Spare f h k d) :
    Renames (Function.update f h.cells.size d) (h.newCell (k.cellAt d)).2 k := by
  have hold {r : Ref} (hlt : r < h.cells.size) : Function.update f h.cells.size d r = f r :=
    Function.update_of_ne (Nat.ne_of_lt hlt) ..
  have hnew : Function.update f h.cells.size d h.cells.size = d := Function.update_self ..
  have hsize : (h.newCell (k.cellAt d)).2.cells.size = h.cells.size + 1 := size_push _
  -- a cell of the longer heap is an old one or the new one
  have hcases {r : Ref} (hlt : r < h.cells.size + 1) : r < h.cells.size ∨ r = h.cells.size :=
    Nat.lt_or_eq_of_le (Nat.le_of_lt_succ hlt)
  constructor
  case rest =>
    have hclosures : h.closures.map (·.rename (Function.update f h.cells.size d)) =
        h.closures.map (·.rename f) := by
      apply map_congr_left
      intro c hc
      have hcells : c.cells.map (Function.update f h.cells.size d) = c.cells.map f :=
        map_congr_left fun r hm => hold (hr.live c hc r hm)
      unfold Closure.rename
      rw [hcells]
    show k = Heap.withCells k.cells (h.closures.map _) _
    rw [hclosures]
    exact hr.rest
  case live =>
    intro c hc r hm
    rw [hsize]
    exact Nat.lt_succ_of_lt (hr.live c hc r hm)
  case lt =>
    intro r hlt
    rw [hsize] at hlt
    rcases hcases hlt with hlt | rfl
    · rw [hold hlt]
      exact hr.lt r hlt
    · rw [hnew]
      exact hd.lt
  case inj =>
    intro r hlt s hlt' he
    rw [hsize] at hlt hlt'
    rcases hcases hlt with hlt | rfl <;> rcases hcases hlt' with hlt' | rfl
    · rw [hold hlt, hold hlt'] at he
      exact hr.inj r hlt s hlt' he
    · rw [hold hlt, hnew] at he
      exact absurd he (hd.ne r hlt)
    · rw [hold hlt', hnew] at he
      exact absurd he.symm (hd.ne s hlt')
    · rfl
  case cells =>
    intro r hlt
    rw [hsize] at hlt
    rw [newCell_eq]
    rcases hcases hlt with hlt | rfl
    · rw [hold hlt, cellAt_addCells h _ hlt]
      exact hr.cells r hlt
    · rw [hnew]
      exact (cellAt_addCells_new h #[k.cellAt d] 0).symm

end Heap.Renames

namespace Heap.Spare

variable {f : Ref → Ref} {h k : Heap} {d : Ref}

theorem grow (hd : Spare f h k d) (values : Array Value) : Spare f h (k.addCells values) d where
  lt := by
    rw [addCells_size]
    exact Nat.lt_add_right _ hd.lt
  ne := hd.ne

theorem added (hr : Renames f h k) (values : Array Value) (hi : i < values.size) :
    Spare f h (k.addCells values) (k.cells.size + i) where
  lt := by
    rw [addCells_size]
    exact Nat.add_lt_add_left hi _
  ne r hlt he := by
    have hle : k.cells.size + i < k.cells.size := he ▸ hr.lt r hlt
    exact Nat.not_lt_of_le (Nat.le_add_right ..) hle

theorem name (hd : Spare f h k d) (he : e ≠ d) (v : Value) :
    Spare (Function.update f h.cells.size e) (h.newCell v).2 k d where
  lt := hd.lt
  ne r hlt := by
    have hlt' : r < h.cells.size + 1 := by simpa [Heap.newCell] using hlt
    by_cases hlast : r = h.cells.size
    · rw [hlast, Function.update_self]
      exact he
    · rw [Function.update_of_ne hlast]
      exact hd.ne r (by omega)

end Heap.Spare

namespace Heap.Evolves

variable {f : Ref → Ref} {h k : Heap}

theorem trans (he : Evolves f h k f' h' k') (he' : Evolves f' h' k' f'' h'' k'') :
    Evolves f h k f'' h'' k'' where
  renames := he'.renames
  grows := Nat.le_trans he.grows he'.grows
  names r hr := (he'.names r (Nat.lt_of_lt_of_le hr he.grows)).trans (he.names r hr)
  spare d hd := by
    obtain ⟨hd', hcell⟩ := he.spare d hd
    obtain ⟨hd'', hcell'⟩ := he'.spare d hd'
    exact ⟨hd'', hcell'.trans hcell⟩

theorem withCells (hr : Renames f h k) (h' : Heap) :
    Evolves f h k f (h'.withCells h.cells h.closures) (h'.withCells k.cells k.closures) where
  renames :=
    { rest := by rw [hr.closures]; rfl
      live := hr.live
      lt := hr.lt
      inj := hr.inj
      cells := hr.cells }
  grows := Nat.le_refl _
  names _ _ := rfl
  spare _ hd := ⟨⟨hd.lt, hd.ne⟩, rfl⟩

theorem setCell (hr : Renames f h k) (hlt : r < h.cells.size) (v : Value) :
    Evolves f h k f (h.setCell r v) (k.setCell (f r) v) where
  renames :=
    { rest := by
        conv => lhs; rw [hr.rest]
        rfl
      live := fun c hc s hs => by simpa [Heap.setCell] using hr.live c hc s hs
      lt := fun s hs => by simpa [Heap.setCell] using hr.lt s (by simpa [Heap.setCell] using hs)
      inj := fun s hs t ht =>
        hr.inj s (by simpa [Heap.setCell] using hs) t (by simpa [Heap.setCell] using ht)
      cells := fun s hs => by
        have hs' : s < h.cells.size := by simpa [Heap.setCell] using hs
        simp only [Heap.setCell, Heap.cellAt, getD_setIfInBounds, hr.lt s hs', hs', and_true]
        by_cases he : r = s
        · rw [if_pos he, if_pos (congrArg f he)]
        · rw [if_neg he, if_neg fun hf => he (hr.inj r hlt s hs' hf)]
          exact hr.cells s hs' }
  grows := by simp [Heap.setCell]
  names _ _ := rfl
  spare d hd := by
    refine ⟨⟨by simpa [Heap.setCell] using hd.lt, fun s hs => hd.ne s (by simpa [Heap.setCell] using hs)⟩, ?_⟩
    simp only [Heap.setCell, Heap.cellAt, getD_setIfInBounds]
    rw [if_neg fun he => hd.ne r hlt he.1]

theorem newCell (hr : Renames f h k) (v : Value) :
    Evolves f h k (Function.update f h.cells.size k.cells.size) (h.newCell v).2 (k.newCell v).2 := by
  have hnew : Spare f h (k.addCells #[v]) k.cells.size := Spare.added hr #[v] Nat.zero_lt_one
  have hcell : (k.addCells #[v]).cellAt k.cells.size = v := cellAt_addCells_new k #[v] 0
  constructor
  case renames =>
    have hname := (hr.grow #[v]).name hnew
    rwa [hcell] at hname
  case grows => simp [Heap.newCell]
  case names =>
    intro r hlt
    exact Function.update_of_ne (Nat.ne_of_lt hlt) ..
  case spare =>
    intro d hd
    have hne : k.cells.size ≠ d := (Nat.ne_of_lt hd.lt).symm
    exact ⟨(hd.grow #[v]).name hne v, cellAt_addCells k #[v] hd.lt⟩

theorem newClosure (hr : Renames f h k) (routine : Ref) {cells : Array Ref}
    (hlive : ∀ r ∈ cells, r < h.cells.size) :
    Evolves f h k f (h.newClosure { routine, cells }).2
      (k.newClosure { routine, cells := cells.map f }).2 where
  renames :=
    { rest := by
        conv => lhs; rw [hr.rest]
        simp [Heap.newClosure, Heap.withCells, Closure.rename]
      live := by
        intro c hc
        rcases mem_push.mp hc with hc | rfl
        · exact hr.live c hc
        · exact hlive
      lt := hr.lt
      inj := hr.inj
      cells := hr.cells }
  grows := Nat.le_refl _
  names _ _ := rfl
  spare _ hd := ⟨⟨hd.lt, hd.ne⟩, rfl⟩

end Heap.Evolves

end Scripting
