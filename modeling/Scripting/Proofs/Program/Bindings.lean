import Scripting.Proofs.Machine.Boxing
import Scripting.Proofs.Program.Safety
/-!
# `Proofs.Program.Bindings` — plain variables and shared ones are one

A run keeps a local variable as a plain value and turns it into a cell when a closure captures it. This
module proves that nobody can tell: every program ends on the machine as it ends on the boxed machine,
which keeps all local variables in cells (`Program.runs_as_boxed`). The proof is a simulation in lock
step: what one instruction keeps (`step_agrees`), a run of any length keeps (`runFor_boxed`).

It follows what sharing means: a variable that was captured is the same for its function and for all
closures that captured it, and a variable that is defined anew in the same slot is another one
(`Machine.KeepsBindings`).
-/

namespace Scripting

open Machine Code Agrees Generator

/-! ## One instruction -/

section

variable {env : Env} (hhost : ∀ name args, (env.host name args).IgnoresNames)

theorem pushed_agrees (hx : Agrees Same x x) : Agrees Same (do push (← x)) (do push (← x)) :=
  hx.andThen fun v => ofCommutes fun _ _ => push_commutes v

include hhost in
theorem perform_agrees (op : Opcode) (code : Bytes) (offset : Nat) :
    Agrees Same (perform env op code offset) (Boxed.perform env op code offset) := by
  cases op with
  | call => exact call_agrees hhost _ _
  | getLocal => exact pushed_agrees (getLocal_agrees _)
  | setLocal => exact (ofCommutes fun _ _ => pop_commutes).andThen fun v => setLocal_agrees _ v
  | defineLocal => exact (ofCommutes fun _ _ => pop_commutes).andThen fun v => defineLocal_agrees _ v
  | setSelLocal => exact assignSelected_agrees (getLocal_agrees _) _
  | getLocalPtr => exact getLocalPtr_agrees _
  | getFree => exact pushed_agrees (getFree_agrees _)
  | setFree => exact (ofCommutes fun _ _ => pop_commutes).andThen fun v => setFree_agrees _ v
  | setSelFree => exact assignSelected_agrees (getFree_agrees _) _
  | getFreePtr => exact getFreePtr_agrees _
  | closure => exact makeClosure_agrees env _ _
  | currentFuncPtr =>
    refine (ofCommutes fun _ _ => currentFunction_commutes).andThen fun callee => ?_
    exact (newCell_agrees callee).bind fun _ _ _ _ _ hb hs => capture_boxed hb hs
  | _ => exact ofCommutes fun _ h => perform_commutes env code offset rfl fun _ => h

include hhost in
theorem execute_agrees (op : Opcode) (code : Bytes) (offset : Nat) :
    Agrees Same (execute env op code offset) (Boxed.execute env op code offset) := by
  cases op with
  | suspend => exact pure true
  | ret =>
    exact ite ((ofCommutes fun _ _ => pop_commutes).andThen finish_agrees)
      ((pure _).andThen finish_agrees)
  | _ => exact (perform_agrees hhost _ code offset).andThen fun _ => pure false

theorem Boxes.routineAt (hb : Boxes f m n) (r : Ref) : n.heap.routineAt r = m.heap.routineAt r := by
  rw [hb.heap.rest]
  rfl

theorem Boxes.fetch (hb : Boxes f m n) : fetch n = fetch m := by
  unfold Machine.fetch
  rw [hb.frame, hb.routineAt]

include hhost in
/-- **One step of either machine** leads from related states to related ones. -/
theorem step_agrees : Agrees Same (step env) (Boxed.step env) := by
  intro f m n hb
  unfold step Boxed.step
  have hcount := ofCommutes (fun _ h => countStep_commutes h env.limits) hb
  generalize countStep env.limits m = p at hcount ⊢
  generalize countStep env.limits n = q at hcount ⊢
  cases hcount with
  | error hb => exact .error hb
  | @ok f m n _ _ hb _ =>
    dsimp only
    rw [hb.fetch]
    cases fetch m with
    | nothing => exact finish_agrees .undefined hb
    | broken fault => exact .error hb
    | instruction op code offset =>
      dsimp only
      have hmove := hb.onward m.stack { m.frame with current := offset, next := offset + op.length } m.callers
      rw [hb.frame]
      have hrest : { n with
          stack := m.stack
          frame := { m.frame with current := offset, next := offset + op.length }
          callers := m.callers } =
          { n with frame := { m.frame with current := offset, next := offset + op.length } } := by
        rw [← hb.stack, ← hb.callers]
      rw [hrest] at hmove
      exact execute_agrees hhost op code offset hmove

/-! ## Runs -/

theorem Boxes.trace (hb : Boxes f m n) (files : FileSet) : n.trace files = m.trace files := by
  have hpositions : n.positions = m.positions := by
    unfold positions
    rw [hb.frame, hb.callers]
    simp only [hb.routineAt]
  rw [Machine.trace, Machine.trace, hpositions]

include hhost in
/-- **Runs of any length.** -/
theorem runFor_boxed (files : FileSet) (fuel : Nat) (hb : Boxes f m n) :
    (Boxed.runFor env files fuel n).1 = (runFor env files fuel m).1 ∧
      ∃ f', Boxes f' (runFor env files fuel m).2 (Boxed.runFor env files fuel n).2 := by
  induction fuel generalizing f m n with
  | zero => exact ⟨rfl, f, hb⟩
  | succ fuel ih =>
    have hstep := step_agrees hhost hb
    unfold runFor Boxed.runFor
    generalize step env m = p at hstep ⊢
    generalize Boxed.step env n = q at hstep ⊢
    cases hstep with
    | error hb =>
      dsimp only
      rw [hb.trace]
      exact ⟨rfl, _, hb⟩
    | @ok f m n ended _ hb hsame =>
      cases hsame
      cases ended with
      | true => exact ⟨rfl, _, hb⟩
      | false => exact ih hb

end

/-! ## Bindings -/

namespace Machine

/-- Someone holds the cell: a frame, a closure, or one that is about to be made. -/
def Holds (m : Machine) (c : Ref) : Prop :=
  (∃ i : Nat, m.locals[i]? = some (.shared c)) ∨ c ∈ m.captures ∨ ∃ k, c ∈ (m.heap.closureAt k).cells

def writeCell (m : Machine) (c : Ref) (v : Value) : Machine := { m with heap := m.heap.setCell c v }

/-- **What sharing a variable means.** -/
structure KeepsBindings (m : Machine) : Prop where
  /-- A cell that was handed out is the variable from then on: the frame reads it, writes it and hands
  it out again. -/
  shared : ∀ {i : Nat} {c : Ref} {m' : Machine}, shareLocal i m = .ok c m' →
    shareLocal i m' = .ok c m' ∧ getLocal i m' = .ok (m'.heap.cellAt c) m' ∧
      ∀ v, setLocal i v m' = .ok () (m'.writeCell c v)
  /-- A closure reads and writes the cells that it holds. -/
  captured : ∀ {j : Nat} {c : Ref} {m' : Machine}, freeCell j m = .ok c m' →
    getFree j m = .ok (m.heap.cellAt c) m ∧ ∀ v, setFree j v m = .ok () (m.writeCell c v)
  /-- What one writes into a cell, all that hold it read. -/
  written : ∀ {c : Ref}, m.Holds c → ∀ v, (m.writeCell c v).heap.cellAt c = v
  /-- A new definition changes no cell, and neither do assignments to it until it is captured. Then
  it gets a cell that nobody has held before. -/
  defined : ∀ {i : Nat} {v : Value} {m' : Machine}, defineLocal i v m = .ok () m' → m'.heap = m.heap ∧
    (∀ {w m''}, setLocal i w m' = .ok () m'' → m''.heap = m.heap) ∧
      ∀ {c m''}, shareLocal i m' = .ok c m'' → ¬m.Holds c

section

variable {m m' : Machine} {i : Nat} {c : Ref} {v : Value} {slot : Slot}

/-- The running frame has this slot for the local variable `i`. -/
abbrev HasSlot (m : Machine) (i : Nat) (slot : Slot) : Prop := m.locals[m.frame.localsBase + i]? = some slot

theorem HasSlot.localSlot (hs : m.HasSlot i slot) : localSlot i m = .ok slot m := by
  unfold Machine.localSlot
  rw [hs]

theorem HasSlot.bind (hs : m.HasSlot i slot) (g : Slot → Exec α) : (Machine.localSlot i >>= g) m = g slot m := by
  show EStateM.bind (Machine.localSlot i) g m = _
  unfold EStateM.bind
  rw [hs.localSlot]

/-- What works on a local variable has found its slot. -/
theorem hasSlot_of_bind (h : (localSlot i >>= g) m = .ok a m') :
    ∃ slot, m.HasSlot i slot ∧ g slot m = .ok a m' := by
  have h' : EStateM.bind (localSlot i) g m = .ok a m' := h
  unfold EStateM.bind localSlot at h'
  cases hs : m.locals[m.frame.localsBase + i]? with
  | none =>
    rw [hs] at h'
    cases h'
  | some slot =>
    rw [hs] at h'
    exact ⟨slot, hs, h'⟩

theorem HasSlot.set (hs : m.HasSlot i slot) (heap : Heap) (slot' : Slot) :
    HasSlot { m with heap, locals := m.locals.setIfInBounds (m.frame.localsBase + i) slot' } i slot' := by
  obtain ⟨hlt, -⟩ := Array.getElem?_eq_some_iff.mp hs
  show (m.locals.setIfInBounds ..)[_]? = _
  rw [Array.getElem?_setIfInBounds_self, if_pos hlt]

/-- Sharing a variable leaves its cell in the slot; the cell was there or is new. -/
theorem shareLocal_ok (h : shareLocal i m = .ok c m') :
    m'.HasSlot i (.shared c) ∧ (m.HasSlot i (.shared c) ∨ c = m.heap.cells.size) := by
  obtain ⟨slot, hs, h⟩ := hasSlot_of_bind h
  cases slot with
  | shared cell =>
    cases h
    exact ⟨hs, .inl hs⟩
  | plain v =>
    cases h
    exact ⟨hs.set .., .inr rfl⟩

theorem defineLocal_ok (h : defineLocal i v m = .ok () m') : m'.heap = m.heap ∧ m'.HasSlot i (.plain v) := by
  have h' : EStateM.bind (EStateM.map (fun _ => ()) (localSlot i))
    (fun _ => setSlot i (.plain v)) m = .ok () m' := h
  unfold EStateM.bind EStateM.map localSlot at h'
  cases hs : m.locals[m.frame.localsBase + i]? with
  | none =>
    rw [hs] at h'
    cases h'
  | some slot =>
    rw [hs] at h'
    cases h'
    exact ⟨rfl, HasSlot.set hs m.heap (.plain v)⟩

theorem freeCell_ok (h : freeCell j m = .ok c m') : freeCell j m = .ok c m := by
  unfold freeCell at h ⊢
  cases hc : m.frame.closure?.bind fun k => (m.heap.closureAt k).cells[j]? with
  | none =>
    rw [hc] at h
    cases h
  | some cell =>
    rw [hc] at h
    cases h
    rfl

/-- **Sharing works** as soon as all cells that are held exist. -/
theorem keepsBindings (hlive : ∀ c, m.Holds c → c < m.heap.cells.size) : m.KeepsBindings where
  shared := by
    intro i c m' h
    obtain ⟨hs, -⟩ := shareLocal_ok h
    exact ⟨hs.bind _, hs.bind _, fun v => hs.bind _⟩
  captured := by
    intro j c m' h
    have hcell := freeCell_ok h
    have hbind {α : Type} (g : Ref → Exec α) : (freeCell j >>= g) m = g c m := by
      show EStateM.bind (freeCell j) g m = _
      unfold EStateM.bind
      rw [hcell]
    exact ⟨hbind _, fun v => hbind _⟩
  written := by
    intro c hc v
    simp [writeCell, Heap.setCell, Heap.cellAt, hlive c hc]
  defined := by
    intro i v m' h
    obtain ⟨hheap, hs⟩ := defineLocal_ok h
    refine ⟨hheap, ?_, ?_⟩
    · intro w m'' h'
      have hset : setLocal i w m' = setSlot i (.plain w) m' := hs.bind _
      rw [hset] at h'
      cases h'
      exact hheap
    · intro c m'' h' hc
      -- the slot was plain, so its cell is the next one
      obtain ⟨-, hold | rfl⟩ := shareLocal_ok h'
      · cases hs.symm.trans hold
      · rw [hheap] at hc
        exact Nat.lt_irrefl _ (hlive _ hc)

end

end Machine

theorem Boxes.holds_lt (hb : Boxes f m n) (hc : m.Holds c) : c < m.heap.cells.size := by
  rcases hc with ⟨i, hi⟩ | hc | ⟨k, hk⟩
  · obtain ⟨t, -, hst⟩ := hb.slots i _ hi
    cases hst with
    | shared hlt => exact hlt
  · exact hb.captured c hc
  · exact hb.heap.closureAt_live hk

theorem Boxes.globals (hb : Boxes f m n) : n.globals = m.globals := by
  rw [hb.rest]

theorem Boxes.steps (hb : Boxes f m n) : n.steps = m.steps := by
  rw [hb.rest]

/-- **Two states at the start of a run.** -/
theorem start_boxes (main : Ref) (limits : Limits.Run) (globals : Array Value) {heap : Heap}
    (hlive : heap.CellsExist) :
    Boxes id (start main limits globals heap) (start main limits globals heap) where
  heap := Heap.Renames.refl hlive
  rest := by simp [start]
  captured := by simp [start]
  size := rfl
  slots := by simp [start]
  own := by simp [start]

/-- **Nobody can tell plain variables from cells.** Every program ends on the machine as it ends on the
boxed machine: with the same outcome, after the same number of steps, with the same global variables
and, up to the names of cells, with the same heap. And whenever it stops, sharing works. -/
theorem Program.runs_as_boxed (p : Program) (limits : Limits.Run)
    (host : String → List Value → Action Value) (globals : Array Value) (heap : Heap) (fuel : Nat)
    (hhost : ∀ name args, (host name args).IgnoresNames) (hlive : heap.CellsExist) :
    (p.runBoxed limits host globals heap fuel).outcome = (p.run limits host globals heap fuel).outcome ∧
      (p.runBoxed limits host globals heap fuel).globals = (p.run limits host globals heap fuel).globals ∧
      (p.runBoxed limits host globals heap fuel).steps = (p.run limits host globals heap fuel).steps ∧
      (∃ f, Heap.Renames f (p.run limits host globals heap fuel).heap
        (p.runBoxed limits host globals heap fuel).heap) ∧
      (runFor { constants := p.constants, limits, host } p.files fuel
        (start p.main limits globals heap)).2.KeepsBindings := by
  let env : Env := { constants := p.constants, limits, host }
  have henv : ∀ name args, (env.host name args).IgnoresNames := hhost
  obtain ⟨houtcome, f, hb⟩ := runFor_boxed henv p.files fuel (start_boxes p.main limits globals hlive)
  refine ⟨houtcome, ?_, ?_, ⟨f, hb.heap⟩, keepsBindings fun c hc => hb.holds_lt hc⟩
  · exact hb.globals
  · exact hb.steps

/-- `f := func() { x := 1; g := func() { x = x + 1 }; x = 5; g(); return x }; out := f()` -/
def sharingX : List Stmt := [ .assign .none [.ident .none "f"] .define [.func .none [] false [
    .assign .none [.ident .none "x"] .define [.int .none 1],
    .assign .none [.ident .none "g"] .define [.func .none [] false [ .assign .none [.ident .none "x"] .assign
        [.binary .none (.arith .add) (.ident .none "x") (.int .none 1)]]],
    .assign .none [.ident .none "x"] .assign [.int .none 5],
    .expr .none (.call .none (.ident .none "g") [] false),
    .ret .none (some (.ident .none "x"))]],
  .assign .none [.ident .none "out"] .define [.call .none (.ident .none "f") [] false]]

/-- Function and closure see what the other one writes: the result is six on both machines. -/
theorem sharingX_runs_as_boxed : ∃ p g, compile {} .empty sharingX {} = (.ok p, g) ∧
    (p.run {} echoHost #[] g.heap 100).globals[1]? = some (.int 6) ∧
    (p.runBoxed {} echoHost #[] g.heap 100).outcome = (p.run {} echoHost #[] g.heap 100).outcome ∧
    (p.runBoxed {} echoHost #[] g.heap 100).globals = (p.run {} echoHost #[] g.heap 100).globals ∧
    (p.runBoxed {} echoHost #[] g.heap 100).steps = (p.run {} echoHost #[] g.heap 100).steps ∧
    (∃ f, Heap.Renames f (p.run {} echoHost #[] g.heap 100).heap (p.runBoxed {} echoHost #[] g.heap 100).heap) ∧
    (runFor { constants := p.constants, limits := {}, host := echoHost } p.files 100
      (start p.main {} #[] g.heap)).2.KeepsBindings := by
  obtain ⟨p, g, hcompile⟩ := ok_of_isOk (show (compile {} .empty sharingX {}).1.isOk by decide +kernel)
  have hout : (match compile {} .empty sharingX {} with
      | (.ok p, g) => (p.run {} echoHost #[] g.heap 100).globals[1]?
      | _ => none) = some (.int 6) := by decide +kernel
  have hclosures : (compile {} .empty sharingX {}).2.heap.closures = #[] := by decide +kernel
  rw [hcompile] at hout hclosures
  refine ⟨p, g, hcompile, hout, p.runs_as_boxed {} echoHost #[] g.heap 100 ?_ ?_⟩
  · intro name args
    exact Action.ignoresNames_of_commutes fun _ _ => Commutes.pure _
  · intro c hc
    have hempty : g.heap.closures = #[] := hclosures
    rw [hempty] at hc
    cases Array.not_mem_empty c hc

end Scripting
