import Scripting.Proofs.Machine.Discipline
import Scripting.Proofs.Machine.Metering
/-!
# `Proofs.Machine.Regions` — every frame has local variables of its own

All frames share one vector of local variables. Whatever the code, broken or not, it is made of one region for each
frame (`Regions`): the outermost frame has none, every other one has room for the variables of its function, and
each region begins where the one below ends.

* **staying** — `Stays o m m'`: the frames are as they were, and so is every slot but that of the variable `o` of the
  running frame. `KeepsFrame o x` says so of every run of a computation, and that a fault leaves all slots alone;
* **calls and returns** — `Opens` and `Closes`: a region is added at the end, or the last one is given up;
* **runs** — every step does one of the three (`step_changes`). The regions, and what a run inside a call leaves of
  those below it, follow by induction on the run.
-/

namespace Scripting

open Code Machine Relation Array

/-- The number of values that a call moves to local variables. -/
def Routine.bound (f : Routine) : Nat := if f.variadic then f.params - 1 + 1 else f.params

def Routine.room (f : Routine) : Nat := max f.locals f.bound

namespace Machine

/-- **Regions of local variables**, innermost first: where they begin, the functions they belong to, and where the
last one ends. -/
inductive Regions : List Nat → List Routine → Nat → Prop
  | main : Regions [0] [] 0
  | call {bases fs} {n : Nat} {f} (below : Regions bases fs n) : Regions (n :: bases) (f :: fs) (n + f.room)

/-- Where the regions of all frames begin, innermost first. -/
def localBases (m : Machine) : List Nat := (m.frame :: m.callers.toList.reverse).map (·.localsBase)

/-! ## Staying in a frame -/

/-- **The frames are as they were**, and so are all slots but that of the local variable `o`, if there is one. -/
structure Stays (o : Option Nat) (m m' : Machine) : Prop where
  size : m'.locals.size = m.locals.size
  slots : ∀ j, (∀ i, o = some i → j ≠ m.frame.localsBase + i) → m'.locals[j]? = m.locals[j]?
  callers : m'.callers = m.callers
  base : m'.frame.localsBase = m.frame.localsBase

variable {o : Option Nat} {m m' m'' : Machine}

theorem Stays.of_eq (hl : m'.locals = m.locals) (hc : m'.callers = m.callers)
    (hb : m'.frame.localsBase = m.frame.localsBase) : Stays o m m' :=
  ⟨by rw [hl], fun _ _ => by rw [hl], hc, hb⟩

theorem Stays.locals (h : Stays none m m') : m'.locals = m.locals := ext_getElem? fun j => h.slots j nofun

theorem Stays.weaken (h : Stays none m m') : Stays o m m' := .of_eq h.locals h.callers h.base

theorem Stays.trans (h : Stays o m m') (h' : Stays o m' m'') : Stays o m m'' where
  size := h'.size.trans h.size
  slots j hj := (h'.slots j fun i hi => by rw [h.base]; exact hj i hi).trans (h.slots j hj)
  callers := h'.callers.trans h.callers
  base := h'.base.trans h.base

theorem Stays.refl (m : Machine) : Stays o m m := .of_eq rfl rfl rfl

/-- The state that a computation leaves. -/
def stateOf {ε σ α : Type} : EStateM.Result ε σ α → σ
  | .ok _ s => s
  | .error _ s => s

/-- **What a computation leaves**: `P` holds of the state if it succeeds, and the frames and all slots are as they
were in `m` if it fails. -/
def EndsIn (m : Machine) (P : Machine → Prop) {α : Type} : EStateM.Result Fault Machine α → Prop
  | .ok _ m' => P m'
  | .error _ m' => Stays none m m'

theorem EndsIn.after {r : EStateM.Result Fault Machine α} (hr : EndsIn m0 P r) (h : Stays none m m0)
    (hP : ∀ m', P m' → P' m') : EndsIn m P' r := by
  cases r with
  | ok a m' => exact hP m' hr
  | error e m' => exact h.trans hr

theorem EndsIn.bind {f : α → Exec β} (hx : EndsIn m P (x m0))
    (hf : ∀ a m', x m0 = .ok a m' → P m' → EndsIn m P' (f a m')) : EndsIn m P' ((x >>= f) m0) := by
  show EndsIn m P' (EStateM.bind x f m0)
  unfold EStateM.bind
  generalize x m0 = r at hx hf
  cases r with
  | ok a m' => exact hf a m' rfl hx
  | error e m' => exact hx

/-- **A computation that stays in its frame** and changes the local variable `o` at most. One that fails changes
none. -/
def KeepsFrame (o : Option Nat) {α : Type} (x : Exec α) : Prop := ∀ m, EndsIn m (Stays o m) (x m)

namespace KeepsFrame

variable {α β : Type}

theorem of_stateOf (h : ∀ m, Stays none m (stateOf (x m))) : KeepsFrame o x := by
  intro m
  have hm := h m
  generalize x m = r at hm
  cases r with
  | ok a m' => exact hm.weaken
  | error e m' => exact hm

theorem of_commutes (hx : ∀ w, w.counts = none → Spares w x) : KeepsFrame o x := by
  refine of_stateOf fun m => ?_
  have hm : x m = onState (withVariables m.vars) (x m) := hx m.vars rfl m
  have hstate : stateOf (x m) = (stateOf (x m)).withVariables m.vars := by
    cases hr : x m with
    | ok a m' => exact (EStateM.Result.ok.inj (hr ▸ hm)).2
    | error e m' => exact (EStateM.Result.error.inj (hr ▸ hm)).2
  rw [hstate]
  exact .of_eq rfl rfl rfl

theorem bind (hx : KeepsFrame none x) (hf : ∀ a, KeepsFrame o (f a)) : KeepsFrame o (x >>= f) := fun m =>
  (hx m).bind fun a m' _ h => (hf a m').after h fun _ => h.weaken.trans

theorem weaken (hx : KeepsFrame none x) : KeepsFrame o x := fun m => (hx m).after (.refl m) fun _ => Stays.weaken

theorem discard (hx : KeepsFrame none x) : KeepsFrame o (Functor.discard x) := by
  exact hx.bind fun _ => of_commutes fun _ _ => .pure _

/-! ### Parts of instructions -/

theorem push (v : Value) : KeepsFrame o (push v) := of_commutes fun _ _ => push_commutes v

theorem pushNew (v : Value) : KeepsFrame o (pushNew v) := of_commutes fun _ h => pushNew_commutes h v

theorem pop : KeepsFrame none pop := of_commutes fun _ _ => pop_commutes

theorem popMany (n : Nat) : KeepsFrame none (popMany n) := of_commutes fun _ _ => popMany_commutes n

theorem act (x : Action α) : KeepsFrame o (act x) := by
  refine of_stateOf fun m => ?_
  unfold Machine.act Machine.onHeap
  dsimp only
  cases x m.heap <;> exact .of_eq rfl rfl rfl

theorem make (f : Heap → α × Heap) : KeepsFrame none (make f) := act _

theorem readHeap (f : Heap → α) : KeepsFrame none (readHeap f) := of_stateOf fun _ => .of_eq rfl rfl rfl

theorem localSlot (i : Nat) : KeepsFrame none (localSlot i) := by
  refine of_stateOf fun m => ?_
  unfold Machine.localSlot
  cases m.locals[m.frame.localsBase + i]? <;> exact .of_eq rfl rfl rfl

theorem setSlot (i : Nat) (slot : Slot) : KeepsFrame (some i) (setSlot i slot) := by
  refine fun m => Stays.mk (size_setIfInBounds ..) (fun j hj => ?_) rfl rfl
  exact getElem?_setIfInBounds_ne fun heq => hj i rfl heq.symm

theorem getLocal (i : Nat) : KeepsFrame none (getLocal i) := (localSlot i).bind fun _ => readHeap _

theorem setLocal (i : Nat) (v : Value) : KeepsFrame (some i) (setLocal i v) := by
  refine (localSlot i).bind fun slot => ?_
  cases slot with
  | plain w => exact setSlot i _
  | shared cell => exact act _

theorem defineLocal (i : Nat) (v : Value) : KeepsFrame (some i) (defineLocal i v) :=
  (localSlot i).discard.bind fun _ => setSlot i _

theorem capture (cell : Ref) : KeepsFrame o (capture cell) := of_stateOf fun _ => .of_eq rfl rfl rfl

theorem captureLocal : KeepsFrame (some i) (do Machine.capture (← Machine.shareLocal i)) := by
  unfold shareLocal
  rw [bind_assoc]
  refine (localSlot i).bind fun slot => ?_
  cases slot with
  | shared cell => exact capture cell
  | plain v =>
    -- nothing can fail once the slot has changed
    simp only [bind_assoc]
    exact (make _).bind fun cell m => (setSlot i _ m).bind fun _ _ _ h => h.trans (.of_eq rfl rfl rfl)

theorem freeCell (i : Nat) : KeepsFrame none (freeCell i) := by
  refine of_stateOf fun m => ?_
  unfold Machine.freeCell
  cases m.frame.closure?.bind fun c => (m.heap.closureAt c).cells[i]? <;> exact .of_eq rfl rfl rfl

theorem getFree (i : Nat) : KeepsFrame none (getFree i) := (freeCell i).bind fun _ => readHeap _

theorem assignSelected {read : Exec Value} (hread : KeepsFrame none read) (selectors : Nat) :
    KeepsFrame none (assignSelected read selectors) := by
  refine (popMany selectors).bind fun keys => pop.bind fun value => hread.bind fun target => ?_
  exact of_commutes fun _ _ => assignPart_commutes target value keys

theorem makeClosure (env : Env) (i n : Nat) : KeepsFrame none (makeClosure env i n) := by
  refine bind (of_commutes fun _ _ => constant_commutes env i) fun v => ?_
  cases v with
  | function routine =>
    refine bind (of_stateOf fun m => ?_) fun cells => ?_
    · split <;> exact .of_eq rfl rfl rfl
    · exact bind (of_commutes fun _ h => countAllocation_commutes h) fun _ => (make _).bind push
  | _ => exact of_commutes fun _ _ => .throw _

theorem spreadOut (args : Nat) (spread : Bool) : KeepsFrame none (Scripting.spreadOut args spread) := by
  refine of_commutes fun _ _ => ?_
  unfold Scripting.spreadOut
  split
  · exact spreadLast_commutes args
  · exact .pure args

theorem callNative (f : List Value → Action Value) (args : Nat) : KeepsFrame none (callNative f args) :=
  (popMany args).bind fun _ => pop.discard.bind fun _ => (act _).bind pushNew

end KeepsFrame

/-! ## Calls and returns -/

/-- **A frame has been opened**: its region lies above all others and has room for the variables of its function. -/
structure Opens (m m' : Machine) : Prop where
  callers : ∃ f : Frame, m'.callers = m.callers.push f ∧ f.localsBase = m.frame.localsBase
  base : m'.frame.localsBase = m.locals.size
  locals : ∃ slots, m'.locals = m.locals ++ slots ∧ slots.size = (m.heap.routineAt m'.frame.routine).room

/-- **A frame has been closed**, and its region with it. -/
structure Closes (m m' : Machine) : Prop where
  callers : m.callers = m'.callers.push m'.frame
  locals : m'.locals = m.locals.shrink m.frame.localsBase

/-- The values to move lie on the stack, and the function says how many they are. -/
theorem bindArguments_enough (hsize : args ≤ m.stack.size) (h : bindArguments f args m = .ok n m') :
    n = f.bound ∧ n ≤ m'.stack.size := by
  unfold bindArguments at h
  unfold Routine.bound
  by_cases hv : f.variadic
  · rw [if_pos hv] at h ⊢
    by_cases hfew : args < f.params - 1
    · rw [if_pos hfew] at h
      cases h
    · rw [if_neg hfew] at h
      obtain ⟨_, m1, hcollect, h⟩ := ok_of_bind h
      cases h
      refine ⟨rfl, ?_⟩
      obtain ⟨rest, m2, hpop, hcollect⟩ := ok_of_bind hcollect
      obtain ⟨_, m3, hcount, hcollect⟩ := ok_of_bind hcollect
      obtain ⟨v, m4, hmake, hpush⟩ := ok_of_bind hcollect
      cases hmake
      cases hpush
      -- what is collected leaves the fixed arguments, and one value takes its place
      have hrest : m2.stack.size = m.stack.size - (args - (f.params - 1)) := by
        unfold popMany at hpop
        rw [if_neg (by omega)] at hpop
        cases hpop
        simp
      have hstack : m3.stack = m2.stack := by
        unfold countAllocation at hcount
        split at hcount
        · cases hcount
          rfl
        · split at hcount
          · cases hcount
          · cases hcount
            rfl
      rw [size_push, hstack]
      omega
  · rw [if_neg hv] at h ⊢
    by_cases heq : args = f.params
    · rw [if_pos heq] at h
      cases h
      exact ⟨heq, hsize⟩
    · rw [if_neg heq] at h
      cases h

/-- What a call makes of a machine: it stays in its frame or opens one, and stays in it if it fails. -/
def MayOpen (m : Machine) {α : Type} (r : EStateM.Result Fault Machine α) : Prop :=
  EndsIn m (fun m' => Stays none m m' ∨ Opens m m') r

namespace MayOpen

variable {α β : Type} {m0 : Machine}

theorem of_keepsFrame (hx : KeepsFrame none x) (h : Stays none m m0) : MayOpen m (x m0) :=
  (hx m0).after h fun _ h' => .inl (h.trans h')

theorem bind (hx : KeepsFrame none x) (h : Stays none m m0)
    (hf : ∀ a m', x m0 = .ok a m' → Stays none m m' → MayOpen m (f a m')) : MayOpen m ((x >>= f) m0) :=
  ((hx m0).after h fun _ => h.trans).bind hf

theorem callRoutine (limits : Limits.Run) (routine : Ref) (closure? : Option Ref) (h : Stays none m m0)
    (hheap : m0.heap = m.heap) (hsize : args ≤ m0.stack.size) :
    MayOpen m (callRoutine limits routine closure? args m0) := by
  refine bind (.readHeap _) h fun f m1 hf _ => ?_
  obtain ⟨rfl, rfl⟩ : m0.heap.routineAt routine = f ∧ m0 = m1 := by
    cases hf
    exact ⟨rfl, rfl⟩
  refine bind (.of_commutes fun _ h => bindArguments_commutes h _ args) h fun n m2 hn h2 => ?_
  obtain ⟨rfl, hn⟩ := bindArguments_enough hsize hn
  rw [openFrame_checked]
  split
  · exact h2
  · refine .inr ⟨⟨m2.frame, ?_, h2.base⟩, ?_, ?_⟩
    · rw [h2.callers]
    · rw [h2.locals]
    · refine ⟨_, by rw [← h2.locals]; exact append_assoc .., ?_⟩
      simp only [size_append, size_map, size_extract, size_replicate, Routine.room, ← hheap]
      omega

theorem call (env : Env) (args : Nat) (spread : Bool) (m : Machine) : MayOpen m (call env args spread m) := by
  by_cases hsize : m.stack.size < args + 1
  · rw [call_underflow env args spread m hsize]
    exact Stays.refl m
  · rw [call_eq env args spread m hsize]
    refine bind (.spreadOut args spread) (.refl m) fun args' m1 hargs h1 => ?_
    obtain ⟨hheap, henough, -⟩ := spreadOut_callee (Nat.le_of_not_lt hsize) hargs
    refine bind (.of_commutes fun _ _ => calleeBelow_commutes args') h1 fun v m2 hv h2 => ?_
    obtain rfl : m2 = m1 := by
      unfold calleeBelow at hv
      split at hv <;> cases hv
      rfl
    cases v with
    | function routine => exact callRoutine env.limits routine none h2 hheap (by omega)
    | closure c =>
      refine bind (.readHeap _) h2 fun closure m3 hc h3 => ?_
      cases hc
      exact callRoutine env.limits _ (some c) h3 hheap (by omega)
    | builtin b => exact of_keepsFrame (.callNative b.call args') h2
    | host r => exact bind (.readHeap _) h2 fun name m3 _ h3 => of_keepsFrame (.callNative _ args') h3
    | _ => exact of_keepsFrame (.of_commutes fun _ _ => refuse_commutes _ _) h2

end MayOpen

theorem finish_ends (v : Value) (m : Machine) : EndsIn m (fun m' => Stays none m m' ∨ Closes m m') (finish v m) := by
  unfold finish
  cases hback : m.callers.back? with
  | none => exact .inl (.of_eq rfl rfl rfl)
  | some caller =>
    refine .inr ⟨?_, rfl⟩
    obtain ⟨callers, hpush⟩ := back?_eq_some_iff.mp hback
    rw [hpush, pop_push]

/-! ## Instructions -/

/-- The local variable that an instruction names, and how many values it takes off the stack first. -/
def localOperand? (op : Opcode) (code : Bytes) (offset : Nat) : Option (Nat × Nat) :=
  match op with
  | .getLocal | .getLocalPtr => some (readU8 code (offset + 1), 0)
  | .setLocal | .defineLocal => some (readU8 code (offset + 1), 1)
  | .setSelLocal => some (readU8 code (offset + 1), readU8 code (offset + 2) + 1)
  | _ => none

/-- The local variable that the next instruction names, and how many values it takes off the stack first. -/
def named? (m : Machine) : Option (Nat × Nat) :=
  match m.fetch with
  | .instruction op code offset => localOperand? op code offset
  | _ => none

/-- Only a call leaves the frame, and only the local variable that is named may change. -/
theorem KeepsFrame.perform (env : Env) {op : Opcode} (code : Bytes) (offset : Nat) (hop : op ≠ .call) :
    KeepsFrame ((localOperand? op code offset).map Prod.fst) (Machine.perform env op code offset) := by
  cases op with
  | call => exact absurd rfl hop
  | getLocal => exact (getLocal _).bind push
  | setLocal => exact pop.bind fun v => setLocal _ v
  | defineLocal => exact pop.bind fun v => defineLocal _ v
  | setSelLocal => exact (assignSelected (getLocal _) _).weaken
  | getLocalPtr => exact captureLocal
  | getFree => exact (getFree _).bind push
  | setFree => exact pop.bind fun _ => (freeCell _).bind fun _ => act _
  | setSelFree => exact assignSelected (getFree _) _
  | getFreePtr => exact (freeCell _).bind capture
  | closure => exact makeClosure env _ _
  | currentFuncPtr =>
    exact bind (of_commutes fun _ _ => currentFunction_commutes) fun _ => (make _).bind capture
  | _ => exact of_commutes fun _ h => perform_commutes env code offset rfl fun _ => h

/-- **A computation that aborts without the local variable `i`**: `n` values are taken off the stack first. -/
def Needs (i n : Nat) {α : Type} (x : Exec α) : Prop :=
  ∀ m : Machine, m.locals[m.frame.localsBase + i]? = none → ∃ e m', x m = .error e m' ∧
    (e = .invalidLocal i ∨ e = .stackUnderflow ∧ m.stack.size < n)

namespace Needs

variable {α β : Type} {i n : Nat}

theorem bind {x : Exec α} (hx : Needs i n x) (f : α → Exec β) : Needs i n (x >>= f) := by
  intro m hm
  obtain ⟨e, m', he, hcause⟩ := hx m hm
  refine ⟨e, m', ?_, hcause⟩
  show EStateM.bind x f m = _
  rw [EStateM.bind, he]

theorem localSlot (i : Nat) : Needs i 0 (localSlot i) := by
  intro m hm
  refine ⟨_, m, ?_, .inl rfl⟩
  rw [Machine.localSlot, hm]

theorem pop (hf : ∀ v, Needs i n (f v)) : Needs i (n + 1) (pop >>= f) := by
  intro m hm
  show ∃ e m', EStateM.bind Machine.pop f m = _ ∧ _
  unfold EStateM.bind Machine.pop
  cases hback : m.stack.back? with
  | none =>
    have hempty : m.stack = #[] := back?_eq_none_iff.mp hback
    exact ⟨_, m, rfl, .inr ⟨rfl, by rw [hempty]; exact Nat.succ_pos n⟩⟩
  | some v =>
    obtain ⟨e, m', he, hcause⟩ := hf v { m with stack := m.stack.pop } hm
    refine ⟨e, m', he, hcause.imp id fun h => ⟨h.1, ?_⟩⟩
    have hlow : m.stack.pop.size < n := h.2
    rw [size_pop] at hlow
    omega

theorem popMany (k : Nat) (hf : ∀ vs, Needs i n (f vs)) : Needs i (k + n) (popMany k >>= f) := by
  intro m hm
  show ∃ e m', EStateM.bind (Machine.popMany k) f m = _ ∧ _
  unfold EStateM.bind Machine.popMany
  by_cases hk : m.stack.size < k
  · rw [if_pos hk]
    exact ⟨_, m, rfl, .inr ⟨rfl, Nat.lt_of_lt_of_le hk (Nat.le_add_right k n)⟩⟩
  · rw [if_neg hk]
    obtain ⟨e, m', he, hcause⟩ :=
      hf (m.stack.extract (m.stack.size - k)).toList { m with stack := m.stack.shrink (m.stack.size - k) } hm
    refine ⟨e, m', he, hcause.imp id fun h => ⟨h.1, ?_⟩⟩
    have hlow : (m.stack.shrink (m.stack.size - k)).size < n := h.2
    simp only [size_shrink] at hlow
    omega

theorem perform (env : Env) (hop : localOperand? op code offset = some (i, n)) :
    Needs i n (perform env op code offset) := by
  cases op <;> cases hop
  case getLocal => exact ((localSlot _).bind _).bind _
  case setLocal => exact pop fun v => (localSlot _).bind _
  case defineLocal =>
    refine pop fun v => bind (fun m hm => ?_) _
    obtain ⟨e, m', he, hcause⟩ := localSlot _ m hm
    refine ⟨e, m', ?_, hcause⟩
    show EStateM.map _ _ m = _
    rw [EStateM.map, he]
  case setSelLocal => exact popMany _ fun keys => pop fun value => ((localSlot _).bind _).bind _
  case getLocalPtr => exact ((localSlot _).bind _).bind _

end Needs

/-! ## Steps -/

/-- What a step makes of the local variables. -/
inductive StepChanges (m m' : Machine) : Prop
  | stays (h : Stays (m.named?.map Prod.fst) m m')
  | opens (other : m.named? = none) (h : Opens m m')
  | closes (other : m.named? = none) (h : Closes m m')

/-- The machine that runs an instruction. -/
def begun (m : Machine) (op : Opcode) (offset : Nat) : Machine :=
  { m.counted with frame := { m.frame with current := offset, next := offset + op.length } }

theorem Stays.begun (m : Machine) (op : Opcode) (offset : Nat) : Stays o m (m.begun op offset) := .of_eq rfl rfl rfl

theorem Closes.of_stays (h : Closes m' m'') (hm : Stays none m m') : Closes m m'' :=
  ⟨hm.callers ▸ h.callers, by rw [h.locals, hm.locals, hm.base]⟩

theorem execute_eq (env : Env) (code : Bytes) (offset : Nat) (hr : op ≠ .ret) (hs : op ≠ .suspend) :
    execute env op code offset = (do perform env op code offset; return false) := by
  cases op <;> first | rfl | contradiction

def returned (code : Bytes) (offset : Nat) : Exec Value :=
  if readU8 code (offset + 1) == 1 then pop else pure .undefined

theorem execute_ret : execute env .ret code offset = returned code offset >>= finish := by
  unfold execute returned
  dsimp only
  split <;> rfl

theorem KeepsFrame.returned (code : Bytes) (offset : Nat) : KeepsFrame none (returned code offset) := by
  unfold Machine.returned
  split
  · exact .pop
  · exact .of_commutes fun _ _ => .pure _

variable {env : Env} {op : Opcode} {code : Bytes} {offset : Nat} {b : Bool} {e : Fault}

theorem finish_changes (hnamed : m.named? = none) (h : Stays none m m0) :
    EndsIn m (StepChanges m) (finish v m0) :=
  (finish_ends v m0).after h fun _ hf =>
    hf.elim (fun hf => .stays (h.trans hf).weaken) fun hf => .closes hnamed (hf.of_stays h)

theorem execute_changes (hfetch : m.fetch = .instruction op code offset) :
    EndsIn m (StepChanges m) (execute env op code offset (m.begun op offset)) := by
  have hnamed : m.named? = localOperand? op code offset := by rw [named?, hfetch]
  have hbegun : Stays none m (m.begun op offset) := .begun m op offset
  by_cases hs : op = .suspend
  · subst hs
    exact .stays hbegun.weaken
  by_cases hr : op = .ret
  · subst hr
    rw [execute_ret]
    exact ((KeepsFrame.returned code offset _).after hbegun fun _ => hbegun.trans).bind fun _ _ _ =>
      finish_changes hnamed
  rw [execute_eq env code offset hr hs]
  refine EndsIn.bind ?_ fun _ _ _ h => h
  by_cases hc : op = .call
  · subst hc
    refine (MayOpen.call env _ _ (m.begun .call offset)).after hbegun fun m' h => ?_
    rcases h with h | h
    · exact .stays (hbegun.trans h).weaken
    · exact .opens hnamed ⟨h.callers, h.base, h.locals⟩
  · refine (KeepsFrame.perform env code offset hc _).after hbegun fun m' h => .stays ?_
    rw [hnamed]
    exact hbegun.weaken.trans h

/-- How a step begins: it aborts at once, finds the end of the code or runs an instruction. -/
inductive StepBegins (env : Env) (m : Machine) : EStateM.Result Fault Machine Bool → Prop
  | aborts {e : Fault} (h : m.named? = none ∨ exceeded? env.limits (m.steps + 1) m.stack.size = some e) :
    StepBegins env m (.error e m.counted)
  | ends (h : m.named? = none) : StepBegins env m (finish .undefined m.counted)
  | runs {op : Opcode} {code : Bytes} {offset : Nat} (h : m.fetch = .instruction op code offset) :
    StepBegins env m (execute env op code offset (m.begun op offset))

theorem step_begins (env : Env) (m : Machine) : StepBegins env m (step env m) := by
  cases hex : exceeded? env.limits (m.steps + 1) m.stack.size with
  | some fault =>
    rw [step_of_exceeded hex]
    exact .aborts (.inr hex)
  | none =>
    have hcounted : m.counted.fetch = m.fetch := rfl
    rw [step_of_begun hex, dispatch, hcounted]
    cases hfetch : m.fetch with
    | nothing => exact .ends (by rw [named?, hfetch])
    | broken fault => exact .aborts (.inl (by rw [named?, hfetch]))
    | instruction op code offset => exact .runs hfetch

/-- **What a step does to the local variables.** One that aborts the run has touched none. -/
theorem step_ends (env : Env) (m : Machine) : EndsIn m (StepChanges m) (step env m) := by
  have hm : Stays none m m.counted := .of_eq rfl rfl rfl
  have hbegins := step_begins env m
  generalize step env m = r at hbegins
  cases hbegins with
  | aborts => exact hm
  | ends hnamed => exact finish_changes hnamed hm
  | runs hfetch => exact execute_changes hfetch

theorem step_changes (h : step env m = .ok b m') : StepChanges m m' := by
  have hends := step_ends env m
  rwa [h] at hends

theorem step_aborts (h : step env m = .error e m') : Stays none m m' := by
  have hends := step_ends env m
  rwa [h] at hends

/-- A step whose instruction names a local variable that does not exist aborts the run. -/
theorem step_needs (env : Env) (hnamed : m.named? = some (i, n)) (hi : m.locals[m.frame.localsBase + i]? = none) :
    ∃ e m', step env m = .error e m' ∧ (e = .invalidLocal i ∨ e = .stackUnderflow ∧ m.stack.size < n ∨
      exceeded? env.limits (m.steps + 1) m.stack.size = some e) := by
  have hbegins := step_begins env m
  generalize step env m = r at hbegins ⊢
  cases hbegins with
  | @aborts e h =>
    rcases h with h | h
    · rw [h] at hnamed
      cases hnamed
    · exact ⟨e, _, rfl, .inr (.inr h)⟩
  | ends h =>
    rw [h] at hnamed
    cases hnamed
  | runs hfetch =>
    rw [named?, hfetch] at hnamed
    rw [execute_eq env _ _ (by rintro rfl; cases hnamed) (by rintro rfl; cases hnamed)]
    obtain ⟨e, m', he, hcause⟩ := ((Needs.perform env hnamed).bind _) (m.begun ..) hi
    exact ⟨e, m', he, hcause.imp id .inl⟩

/-! ## Runs -/

/-- The functions of the frames after a step, given those before it. A function that is called is the one that the
machine knew when it made the call. -/
def calledAfter (m m' : Machine) (fs : List Routine) : List Routine :=
  if m.callers.size < m'.callers.size then m.heap.routineAt m'.frame.routine :: fs
  else fs.drop (m.callers.size - m'.callers.size)

/-- **The states that a run reaches**, each with the functions of its frames but the outermost, innermost first. -/
inductive RunReaches (env : Env) (start : Machine) : Machine → List Routine → Prop
  | start : RunReaches env start start []
  | next {m m' : Machine} {fs} (h : RunReaches env start m fs) (hn : Next env m m') :
    RunReaches env start m' (calledAfter m m' fs)

def roomOf : List Routine → Nat
  | [] => 0
  | f :: _ => f.room

theorem Regions.last {bases : List Nat} (h : Regions (base :: bases) fs n) : n = base + roomOf fs := by
  cases h <;> rfl

theorem Regions.pop {bases : List Nat} (h : Regions (base :: base' :: bases) fs n) :
    Regions (base' :: bases) (fs.drop 1) base := by
  cases h with
  | call below => exact below

theorem localBases_eq : m.localBases = m.frame.localsBase :: m.callers.toList.reverse.map (·.localsBase) := rfl

theorem Stays.bases (h : Stays o m m') : m'.localBases = m.localBases := by
  rw [localBases_eq, localBases_eq, h.base, h.callers]

theorem Opens.bases (h : Opens m m') : m'.localBases = m.locals.size :: m.localBases := by
  obtain ⟨f, hcallers, hf⟩ := h.callers
  simp [localBases_eq, hcallers, hf, h.base]

theorem Opens.size (h : Opens m m') : m'.callers.size = m.callers.size + 1 := by
  obtain ⟨f, hcallers, -⟩ := h.callers
  rw [hcallers, size_push]

theorem Closes.bases (h : Closes m m') : m.localBases = m.frame.localsBase :: m'.localBases := by
  simp [localBases_eq, h.callers]

theorem Closes.size (h : Closes m m') : m.callers.size = m'.callers.size + 1 := by
  rw [h.callers, size_push]

/-- **The step lemma**: regions stay regions. -/
theorem Regions.step (h : Regions m.localBases fs m.locals.size) (hc : StepChanges m m') :
    Regions m'.localBases (calledAfter m m' fs) m'.locals.size := by
  unfold calledAfter
  cases hc with
  | stays hs =>
    rw [hs.bases, hs.size, hs.callers, if_neg (Nat.lt_irrefl _), Nat.sub_self]
    exact h
  | opens _ ho =>
    obtain ⟨slots, hlocals, hsize⟩ := ho.locals
    rw [ho.bases, hlocals, size_append, hsize, ho.size, if_pos (Nat.lt_succ_self _)]
    exact .call h
  | closes _ hc =>
    have hlast : m.locals.size = m.frame.localsBase + roomOf fs := h.last
    have hsize : m'.locals.size = m.frame.localsBase := by
      rw [hc.locals, size_shrink]
      omega
    rw [hsize, hc.size, if_neg (by omega), Nat.add_sub_cancel_left]
    rw [hc.bases] at h
    exact h.pop

theorem RunReaches.regions {start : Machine} (h : RunReaches env start m fs)
    (hstart : Regions start.localBases [] start.locals.size) : Regions m.localBases fs m.locals.size := by
  induction h with
  | start => exact hstart
  | next _ hn ih => exact ih.step (step_changes hn)

/-- A step changes no slot below the region of the running frame. -/
theorem StepChanges.below (h : StepChanges m m') (hj : j < m.frame.localsBase) (hsize : j < m.locals.size) :
    m'.locals[j]? = m.locals[j]? := by
  cases h with
  | stays hs => exact hs.slots j fun i _ => by omega
  | opens _ ho =>
    obtain ⟨slots, hlocals, -⟩ := ho.locals
    rw [hlocals, getElem?_append_left hsize]
  | closes _ hc =>
    rw [hc.locals, getElem?_eq_getElem (by rw [size_shrink]; omega)]
    simp

/-- **Inside a call** that was made in the state `m`: the regions of `m` are as they were, and all others lie above
them. -/
structure Above (m q : Machine) : Prop where
  bases : ∃ above, q.localBases = above ++ m.locals.size :: m.localBases ∧ ∀ b ∈ above, m.locals.size ≤ b
  size : m.locals.size ≤ q.locals.size
  slots : ∀ j < m.locals.size, q.locals[j]? = m.locals[j]?

namespace Above

variable {q q' : Machine}

theorem base_le (h : Above m q) : m.locals.size ≤ q.frame.localsBase := by
  obtain ⟨above, hbases, habove⟩ := h.bases
  rw [localBases_eq] at hbases
  cases above with
  | nil => exact Nat.le_of_eq (List.cons.inj hbases).1.symm
  | cons b above => exact (List.cons.inj hbases).1 ▸ habove b List.mem_cons_self

theorem kept (h : Above m q) (hc : StepChanges q q') : ∀ j < m.locals.size, q'.locals[j]? = m.locals[j]? := by
  intro j hj
  have hbase := h.base_le
  have hsize := h.size
  rw [hc.below (by omega) (by omega)]
  exact h.slots j hj

/-- **The step lemma** of runs inside a call. -/
theorem next (h : Above m q) (hc : StepChanges q q') (hdeep : m.callers.size < q'.callers.size) : Above m q' := by
  have hbase := h.base_le
  have hsize := h.size
  obtain ⟨above, hbases, habove⟩ := h.bases
  cases hc with
  | stays hs => exact ⟨⟨above, hs.bases.trans hbases, habove⟩, hs.size ▸ hsize, h.kept (.stays hs)⟩
  | opens hn ho =>
    obtain ⟨slots, hlocals, -⟩ := ho.locals
    refine ⟨⟨q.locals.size :: above, by rw [ho.bases, hbases]; rfl, ?_⟩, ?_, h.kept (.opens hn ho)⟩
    · exact List.forall_mem_cons.mpr ⟨hsize, habove⟩
    · rw [hlocals, size_append]
      omega
  | closes hn hc =>
    have hlocals : m.locals.size ≤ q'.locals.size := by
      rw [hc.locals, size_shrink]
      omega
    rw [hc.bases] at hbases
    cases above with
    | nil =>
      -- the call itself would be over
      have hlength := congrArg List.length (List.cons.inj hbases).2
      simp [localBases_eq] at hlength
      omega
    | cons b above =>
      exact ⟨⟨above, (List.cons.inj hbases).2, fun b hb => habove b (List.mem_cons_of_mem _ hb)⟩, hlocals,
        h.kept (.closes hn hc)⟩

theorem inside (h : Above m q) (hdepth : m.callers.size = depth) (hr : Inside env depth q q') : Above m q' := by
  induction hr with
  | refl => exact h
  | tail _ hn ih => exact ih.next (step_changes hn.1) (hdepth ▸ hn.2)

/-- The frame that a call opened has been closed. -/
theorem restored (h : Above m q) (hc : StepChanges q q') (hdepth : q'.callers.size = m.callers.size) :
    q'.locals = m.locals ∧ q'.localBases = m.localBases := by
  obtain ⟨above, hbases, -⟩ := h.bases
  have hlength := congrArg List.length hbases
  simp only [localBases_eq, List.length_cons, List.length_map, List.length_reverse, length_toList,
    List.length_append] at hlength
  have hkept := h.kept hc
  cases hc with
  | stays hs =>
    rw [hs.callers] at hdepth
    omega
  | opens _ ho =>
    rw [ho.size] at hdepth
    omega
  | closes _ hc =>
    rw [hc.size] at hlength
    obtain rfl : above = [] := List.eq_nil_of_length_eq_zero (by omega)
    rw [hc.bases] at hbases
    obtain ⟨hbase, hrest⟩ := List.cons.inj hbases
    refine ⟨ext_getElem? fun j => ?_, hrest⟩
    by_cases hj : j < m.locals.size
    · exact hkept j hj
    · have hsize : q'.locals.size ≤ m.locals.size := by
        rw [hc.locals, size_shrink]
        omega
      rw [getElem?_eq_none (by omega), getElem?_eq_none (by omega)]

end Above

theorem Opens.above (h : Opens m m') : Above m m' := by
  obtain ⟨slots, hlocals, -⟩ := h.locals
  refine ⟨⟨[], h.bases, nofun⟩, ?_, fun j hj => ?_⟩
  · rw [hlocals, size_append]
    omega
  · rw [hlocals, getElem?_append_left hj]

/-- **Frames keep their local variables apart.** In a state with the functions `fs` of its frames:

* the local variables are the regions of the frames, one after the other;
* no step changes a slot below the region of the running frame, and one that aborts the run changes none;
* an instruction with a local variable inside the region names a slot that is there, and changes no other;
* one with a local variable outside of the region aborts the run;
* a return leaves the slots and the regions that were there before the call. -/
structure LocalsApart (env : Env) (m : Machine) (fs : List Routine) : Prop where
  regions : Regions m.localBases fs m.locals.size
  others : ∀ {b m'}, step env m = .ok b m' → ∀ j < m.frame.localsBase, m'.locals[j]? = m.locals[j]?
  aborted : ∀ {e m'}, step env m = .error e m' → m'.locals = m.locals
  inside : ∀ {i n}, m.named? = some (i, n) → i < roomOf fs → m.frame.localsBase + i < m.locals.size ∧
    ∀ {b m'}, step env m = .ok b m' → m'.locals.size = m.locals.size ∧
      ∀ j ≠ m.frame.localsBase + i, m'.locals[j]? = m.locals[j]?
  outside : ∀ {i n}, m.named? = some (i, n) → roomOf fs ≤ i → ∃ e m', step env m = .error e m' ∧
    m'.locals = m.locals ∧ (e = .invalidLocal i ∨ e = .stackUnderflow ∧ m.stack.size < n ∨
      exceeded? env.limits (m.steps + 1) m.stack.size = some e)
  returns : ∀ {m1 m2 m3}, Next env m m1 → m.callers.size < m1.callers.size → Inside env m.callers.size m1 m2 →
    Next env m2 m3 → m3.callers.size = m.callers.size → m3.locals = m.locals ∧ m3.localBases = m.localBases

theorem Regions.apart (h : Regions m.localBases fs m.locals.size) : LocalsApart env m fs where
  regions := h
  others hstep j hj := by
    have hlast : m.locals.size = m.frame.localsBase + roomOf fs := h.last
    exact (step_changes hstep).below hj (by omega)
  aborted hstep := (step_aborts hstep).locals
  inside {i n} hnamed hi := by
    have hlast : m.locals.size = m.frame.localsBase + roomOf fs := h.last
    refine ⟨by omega, fun hstep => ?_⟩
    cases step_changes hstep with
    | stays hs =>
      rw [hnamed] at hs
      exact ⟨hs.size, fun j hj => hs.slots j fun i' hi' => Option.some.inj hi' ▸ hj⟩
    | opens hother => rw [hother] at hnamed; cases hnamed
    | closes hother => rw [hother] at hnamed; cases hnamed
  outside {i n} hnamed hi := by
    have hlast : m.locals.size = m.frame.localsBase + roomOf fs := h.last
    obtain ⟨e, m', hstep, hcause⟩ := step_needs env hnamed (getElem?_eq_none (by omega))
    exact ⟨e, m', hstep, (step_aborts hstep).locals, hcause⟩
  returns {m1 _ _} hcall hdeep hinside hreturn hdepth := by
    have habove : Above m m1 := by
      cases step_changes hcall with
      | stays hs => rw [hs.callers] at hdeep; omega
      | opens _ ho => exact ho.above
      | closes _ hc => have := hc.size; omega
    exact (habove.inside rfl hinside).restored (step_changes hreturn) hdepth

/-- **In every state that a run of any program reaches, frames keep their local variables apart.** -/
theorem locals_apart {env : Env} {main : Ref} {limits : Limits.Run} {globals : Array Value} {heap : Heap} {m : Machine}
    {fs : List Routine} (h : RunReaches env (start main limits globals heap) m fs) : LocalsApart env m fs :=
  (h.regions .main).apart

/-- Does a run go on after a step? -/
private def goesOn : EStateM.Result Fault Machine Bool → Bool
  | .ok b _ => !b
  | .error _ _ => false

private theorem next_of_goesOn (h : goesOn (step env m)) : Next env m (stateOf (step env m)) := by
  unfold Next
  cases hstep : step env m with
  | error e m' => rw [hstep] at h; cases h
  | ok b m' =>
    rw [hstep] at h
    cases b with
    | true => cases h
    | false => rfl

/-- A program that calls a function with two local variables: at its start, before the call and after it. -/
private def pairEnv : Env := { constants := #[.function 1], host := fun _ _ => pure .undefined }

private def pairStart : Machine :=
  start 0 {} #[] { routines := #[{ code := #[Opcode.constant.byte, 0, 0, Opcode.call.byte, 0, 0] }, { locals := 2 }] }

private def beforePair : Machine := stateOf (step pairEnv pairStart)

private def inPair : Machine := stateOf (step pairEnv beforePair)

theorem pair_locals_apart : inPair.locals.size = 2 ∧ ∃ fs, LocalsApart pairEnv inPair fs := by
  have hbefore : Next pairEnv pairStart beforePair := next_of_goesOn (by decide +kernel)
  have hcall : Next pairEnv beforePair inPair := next_of_goesOn (by decide +kernel)
  exact ⟨by decide +kernel, _, locals_apart (.next (.next .start hbefore) hcall)⟩

end Machine

end Scripting
