import Scripting.Proofs.Machine.Lockstep
import Scripting.Proofs.Machine.Variables
/-!
# `Proofs.Machine.Metering` — what a step costs

A step is metered in four ways: it counts as an instruction, the stack must not be too high when it begins,
it may make an allocation, and it may open a frame. This module compares a step under limits with the same
step under limits that are out of the way (`Machine.slack`).

* `Machine.allocates` — how many allocations the next instruction makes, said of the instruction and its
  operands;
* `Charges depth free strict m n` — from `m`, the computation `strict` does what `free` does if there are `n`
  allocations left and at most `depth` frames are open at its end; otherwise it is stopped;
* `step_settles` — a whole step, with all four limits.

Most computations neither count anything nor open a frame (`Unmetered`): they commute with putting other
meters into the machine.
-/

namespace Scripting

open Machine Array Int64 Option

/-- Is the run aborted because a limit is reached? -/
def Fault.isLimit : Fault → Bool
  | stepLimit _ | stackOverflow | allocationLimit | callDepth _ => true
  | _ => false

namespace Machine

/-! ## Meters -/

def withBudget (left : Option Int64) (m : Machine) : Machine := { m with allocations := left }

/-- What limits are compared with: the allocations left, the frames that wait, and the instructions begun. -/
structure Meters where
  allocations : Option Int64
  callers : Array Frame
  steps : Nat

def meters (m : Machine) : Meters := { allocations := m.allocations, callers := m.callers, steps := m.steps }

def withMeters (k : Meters) (m : Machine) : Machine :=
  { m with allocations := k.allocations, callers := k.callers, steps := k.steps }

/-- Are there `n` allocations left? Without a budget there always are. -/
def Affords (left : Option Int64) (n : Nat) : Prop := n = 0 ∨ ∀ word, left = some word → (n : Int) ≤ word.toInt

/-- What is left after `n` allocations. -/
def spend (left : Option Int64) (n : Nat) : Option Int64 := left.map fun word => word - ofNat n

/-- No frame was opened, or at most `depth` are open. -/
def Allowed (depth : Nat) (m m' : Machine) : Prop :=
  m'.callers.size ≤ m.callers.size ∨ m'.callers.size + 1 ≤ depth

theorem affords_zero (left : Option Int64) : Affords left 0 := .inl rfl

theorem spend_zero (left : Option Int64) : spend left 0 = left := by
  cases left with
  | none => rfl
  | some word => exact congrArg some (Int64.sub_zero word)

/-- As long as a budget is not exceeded, no word overflows. -/
theorem toInt_sub_ofNat {n : Nat} (h : (n : Int) ≤ word.toInt) :
    (word - ofNat n).toInt = word.toInt - n := by
  have hhigh := word.toInt_lt
  have hn : (ofNat n).toInt = n := toInt_ofNat_of_lt (by omega)
  rw [toInt_sub, hn]
  exact Int.bmod_eq_of_le (by omega) (by omega)

theorem affords_add : Affords left (n + k) ↔ Affords left n ∧ Affords (spend left n) k := by
  cases left with
  | none => simp [Affords, spend]
  | some word =>
    by_cases hn : (n : Int) ≤ word.toInt
    · have hsub := toInt_sub_ofNat hn
      simp only [Affords, spend, map_some, some.injEq, forall_eq']
      omega
    · by_cases hzero : n = 0
      · subst hzero
        simp only [Affords, spend_zero, Nat.zero_add, true_or, true_and]
      · simp only [Affords, some.injEq, forall_eq']
        omega

theorem spend_add (left : Option Int64) (n k : Nat) : spend (spend left n) k = spend left (n + k) := by
  cases left with
  | none => rfl
  | some word =>
    simp only [spend, map_some, ofNat_add]
    rw [Int64.sub_sub]

/-- A budget that is not the least word stays so. -/
theorem spend_ne_least (h : left ≠ some minValue) (ha : Affords left n) :
    spend left n ≠ some minValue := by
  rcases ha with rfl | ha
  · rwa [spend_zero]
  · cases left with
    | none => exact nofun
    | some word =>
      intro heq
      have hword : word - ofNat n = minValue := some.inj heq
      have hle := ha word rfl
      have hsub := toInt_sub_ofNat hle
      have hleast : minValue.toInt = -9223372036854775808 := rfl
      rw [hword] at hsub
      omega

/-! ## Computations that are not metered -/

/-- The computation counts nothing and opens no frame. -/
def Unmetered {α : Type} (x : Exec α) : Prop := ∀ k, Commutes (withMeters k) x

namespace Unmetered

variable {α β : Type}

theorem pure (a : α) : Unmetered (pure a : Exec α) := fun _ => Commutes.pure a

theorem throw (e : Fault) : Unmetered (throw e : Exec α) := fun _ => Commutes.throw e

theorem bind (hx : Unmetered x) (hf : ∀ a, Unmetered (f a)) :
    Unmetered (x >>= f) := fun k => (hx k).bind fun a => hf a k

theorem discard (hx : Unmetered x) : Unmetered (Functor.discard x) :=
  fun k => (hx k).discard

/-- What leaves variables and counts alone is not metered. -/
theorem of_commutes (hx : ∀ w, Spares w x) : Unmetered x := by
  intro k m
  have hself : x m = onState (withVariables m.vars) (x m) := hx m.vars m
  let w : Variables := { m.vars with callers := k.callers, counts := some (k.allocations, k.steps) }
  have hother : x (m.withMeters k) = onState (withVariables w) (x m) := hx w m
  rw [hother]
  cases hr : x m with
  | ok a m' =>
    have hm' : m' = m'.withVariables m.vars := (EStateM.Result.ok.inj (hr ▸ hself)).2
    rw [hm']
    rfl
  | error e m' =>
    have hm' : m' = m'.withVariables m.vars := (EStateM.Result.error.inj (hr ▸ hself)).2
    rw [hm']
    rfl

/-! ### The heap and the stack -/

theorem onHeap (asFault : Heap → ε → Fault) (x : EStateM ε Heap α) : Unmetered (onHeap asFault x) := by
  intro k m
  have hheap : (m.withMeters k).heap = m.heap := rfl
  unfold Machine.onHeap
  dsimp only
  rw [hheap]
  cases x m.heap <;> rfl

theorem act (x : Action α) : Unmetered (act x) := onHeap _ x

theorem make (f : Heap → α × Heap) : Unmetered (make f) := act _

theorem readHeap (f : Heap → α) : Unmetered (readHeap f) := fun _ _ => rfl

theorem push (v : Value) : Unmetered (push v) := of_commutes fun _ => push_commutes v

theorem pop : Unmetered pop := of_commutes fun _ => pop_commutes

theorem popMany (n : Nat) : Unmetered (popMany n) := of_commutes fun _ => popMany_commutes n

/-! ### Variables -/

theorem localSlot (i : Nat) : Unmetered (localSlot i) := by
  intro k m
  have hslot : (m.withMeters k).locals[(m.withMeters k).frame.localsBase + i]? =
      m.locals[m.frame.localsBase + i]? := rfl
  unfold Machine.localSlot
  rw [hslot]
  cases m.locals[m.frame.localsBase + i]? <;> rfl

theorem setSlot (i : Nat) (slot : Slot) : Unmetered (setSlot i slot) := fun _ _ => rfl

theorem getLocal (i : Nat) : Unmetered (getLocal i) := (localSlot i).bind fun _ => readHeap _

theorem setLocal (i : Nat) (v : Value) : Unmetered (setLocal i v) := by
  refine (localSlot i).bind fun slot => ?_
  cases slot with
  | plain _ => exact setSlot i _
  | shared cell => exact act _

theorem defineLocal (i : Nat) (v : Value) : Unmetered (defineLocal i v) :=
  (localSlot i).discard.bind fun _ => setSlot i _

theorem shareLocal (i : Nat) : Unmetered (shareLocal i) := by
  refine (localSlot i).bind fun slot => ?_
  cases slot with
  | plain v => exact (make _).bind fun cell => (setSlot i _).bind fun _ => pure cell
  | shared cell => exact pure cell

theorem freeCell (i : Nat) : Unmetered (freeCell i) := by
  intro k m
  have hcell : ((m.withMeters k).frame.closure?.bind fun c =>
      ((m.withMeters k).heap.closureAt c).cells[i]?) =
      m.frame.closure?.bind fun c => (m.heap.closureAt c).cells[i]? := rfl
  unfold Machine.freeCell
  rw [hcell]
  cases m.frame.closure?.bind fun c => (m.heap.closureAt c).cells[i]? <;> rfl

theorem getFree (i : Nat) : Unmetered (getFree i) := (freeCell i).bind fun _ => readHeap _

theorem setFree (i : Nat) (v : Value) : Unmetered (setFree i v) := (freeCell i).bind fun _ => act _

theorem capture (cell : Ref) : Unmetered (capture cell) := fun _ _ => rfl

/-! ### Instructions -/

theorem constant (env : Env) (i : Nat) : Unmetered (constant env i) :=
  of_commutes fun _ => constant_commutes env i

theorem pairUp (vs : List Value) : Unmetered (pairUp vs) := of_commutes fun _ => pairUp_commutes vs

theorem assignSelected {read : Exec Value} (hread : Unmetered read) (selectors : Nat) :
    Unmetered (assignSelected read selectors) := by
  refine (popMany selectors).bind fun keys => pop.bind fun value => hread.bind fun target => ?_
  exact of_commutes fun _ => assignPart_commutes target value keys

theorem spreadLast (args : Nat) : Unmetered (spreadLast args) := of_commutes fun _ => spreadLast_commutes args

/-! ### What an unmetered computation keeps -/

variable {x : Exec α} {m m' : Machine} {a : α}

theorem meters_eq (hx : Unmetered x) (h : x m = .ok a m') : m'.meters = m.meters := by
  have hcommutes := hx m.meters m
  have hself : m.withMeters m.meters = m := rfl
  rw [hself, h] at hcommutes
  injection hcommutes with _ hm
  rw [hm]
  rfl

end Unmetered

theorem ok_of_bind {f : α → Exec β} (h : (x >>= f) m = .ok b m'') :
    ∃ a m', x m = .ok a m' ∧ f a m' = .ok b m'' := by
  have h : EStateM.bind x f m = .ok b m'' := h
  unfold EStateM.bind at h
  cases hx : x m with
  | error e m' => rw [hx] at h; cases h
  | ok a m' =>
    rw [hx] at h
    exact ⟨a, m', rfl, h⟩

/-- The computation opens no frame and ends none. -/
def Level {α : Type} (x : Exec α) : Prop := ∀ ⦃m a m'⦄, x m = .ok a m' → m'.callers = m.callers

theorem Unmetered.level (hx : Unmetered x) : Level x := fun _ _ _ h => congrArg Meters.callers (hx.meters_eq h)

theorem Level.bind {f : α → Exec β} (hx : Level x) (hf : ∀ a, Level (f a)) : Level (x >>= f) := by
  intro m b m'' h
  obtain ⟨a, m', hm, h⟩ := ok_of_bind h
  exact (hf a h).trans (hx hm)

theorem countAllocation_level : Level countAllocation := by
  intro m a m' h
  unfold countAllocation at h
  cases hleft : m.allocations with
  | none =>
    rw [hleft] at h
    cases h
    rfl
  | some left =>
    rw [hleft] at h
    dsimp only at h
    split at h
    · cases h
    · cases h
      rfl

theorem collectRest_level : Level (collectRest args fixed) :=
  (Unmetered.popMany _).level.bind fun _ => countAllocation_level.bind fun _ =>
    (Unmetered.make _).level.bind fun _ => (Unmetered.push _).level

theorem bindArguments_level : Level (bindArguments f args) := by
  unfold bindArguments
  split
  · dsimp only
    split
    · exact (Unmetered.throw _).level
    · exact collectRest_level.bind fun _ => (Unmetered.pure _).level
  · split
    · exact (Unmetered.pure _).level
    · exact (Unmetered.throw _).level

/-! ## What a computation costs -/

/-- **How a computation under limits ends**, beside the same computation without: alike, if `n` allocations
are left and the frames at its end are allowed; otherwise a limit stops it. -/
inductive Settles {α : Type} (depth : Nat) (left : Option Int64) (n : Nat) (m : Machine) :
    EStateM.Result Fault Machine α → EStateM.Result Fault Machine α → Prop
  | done {a : α} {m' : Machine} (free : m'.allocations = none) (steps : m'.steps = m.steps)
      (affords : Affords left n) (allowed : Allowed depth m m') :
      Settles depth left n m (.ok a m') (.ok a (m'.withBudget (spend left n)))
  | stopped {a : α} {m' q : Machine} {fault} (free : m'.allocations = none) (steps : m'.steps = m.steps)
      (short : ¬(Affords left n ∧ Allowed depth m m')) (limit : fault.isLimit = true) :
      Settles depth left n m (.ok a m') (.error fault q)
  | failed {fault fault'} {m' q : Machine} : Settles depth left n m (.error fault m') (.error fault' q)

theorem Settles.start (h : Settles depth left n m0 r r') (hsteps : m0.steps = m.steps)
    (hcallers : m0.callers = m.callers) : Settles depth left n m r r' := by
  have hallowed : ∀ m', Allowed depth m0 m' ↔ Allowed depth m m' := by
    intro m'
    unfold Allowed
    rw [hcallers]
  cases h with
  | done free steps affords allowed => exact .done free (steps.trans hsteps) affords ((hallowed _).mp allowed)
  | stopped free steps short limit =>
    exact .stopped free (steps.trans hsteps) (fun hall => short ⟨hall.1, (hallowed _).mpr hall.2⟩) limit
  | failed => exact .failed

/-- **From `m`, the computation makes `n` allocations.** Without limits it is `free`; with any budget and at
most `depth` frames it is `strict`. -/
def Charges {α : Type} (depth : Nat) (free strict : Exec α) (m : Machine) (n : Nat) : Prop :=
  m.allocations = none → ∀ left, left ≠ some minValue →
    Settles depth left n m (free m) (strict (m.withBudget left))

namespace Charges

variable {α β : Type} {depth n k : Nat} {m : Machine} {x x' : Exec α} {f f' : α → Exec β}

theorem raise (e : Fault) : Charges depth (throw e : Exec α) (throw e) m n := fun _ _ _ => .failed

theorem refuse (cause : String → Fault) (v : Value) :
    Charges depth (refuse cause v : Exec α) (refuse cause v) m n := fun _ _ _ => .failed

theorem of_unmetered (hx : Unmetered x) : Charges depth x x m 0 := by
  intro hfree left _
  have hcommutes : x (m.withBudget left) = onState (withMeters { m.meters with allocations := left }) (x m) :=
    hx { m.meters with allocations := left } m
  rw [hcommutes]
  cases h : x m with
  | error e m' => exact .failed
  | ok a m' =>
    have hmeters := hx.meters_eq h
    have hcallers : m'.callers = m.callers := congrArg Meters.callers hmeters
    have hstate : m'.withMeters { m.meters with allocations := left } = m'.withBudget (spend left 0) := by
      rw [spend_zero, ← hmeters]
      rfl
    show Settles _ _ _ _ _ (.ok a (m'.withMeters { m.meters with allocations := left }))
    rw [hstate]
    refine .done ?_ (congrArg Meters.steps hmeters) (affords_zero left) (.inl ?_)
    · exact (congrArg Meters.allocations hmeters).trans hfree
    · exact Nat.le_of_eq (congrArg size hcallers)

theorem bind (hx : Charges depth x x' m n) (hlevel : Level x)
    (hf : ∀ a m', x m = .ok a m' → Charges depth (f a) (f' a) m' k) :
    Charges depth (x >>= f) (x' >>= f') m (n + k) := by
  intro hfree left hleast
  have hsettles := hx hfree left hleast
  show Settles _ _ _ _ (EStateM.bind x f m) (EStateM.bind x' f' (m.withBudget left))
  unfold EStateM.bind
  generalize h : x m = p, x' (m.withBudget left) = q at hsettles
  cases hsettles with
  | failed => exact .failed
  | @done a m' free steps affords _ =>
    have hrest := (hf a m' h free (spend left n) (spend_ne_least hleast affords)).start steps (hlevel h)
    dsimp only
    generalize f a m' = r, f' a (m'.withBudget (spend left n)) = r' at hrest ⊢
    cases hrest with
    | done free' steps' affords' allowed' =>
      rw [spend_add]
      exact .done free' steps' (affords_add.mpr ⟨affords, affords'⟩) allowed'
    | stopped free' steps' short' limit' =>
      exact .stopped free' steps' (fun hall => short' ⟨(affords_add.mp hall.1).2, hall.2⟩) limit'
    | failed => exact .failed
  | @stopped a m' _ _ free steps short limit =>
    -- the first part has opened no frame, so it was the budget that stopped it
    have hshort : ¬Affords left n := fun ha => short ⟨ha, .inl (Nat.le_of_eq (congrArg size (hlevel h)))⟩
    have hstopped {m''} (hall : Affords left (n + k) ∧ Allowed depth m m'') : False :=
      hshort (affords_add.mp hall.1).1
    have hrest := (hf a m' h free none nofun).start steps (hlevel h)
    dsimp only
    generalize f a m' = r, f' a (m'.withBudget none) = r' at hrest ⊢
    cases hrest with
    | done free' steps' _ _ => exact .stopped free' steps' hstopped limit
    | stopped free' steps' _ _ => exact .stopped free' steps' hstopped limit
    | failed => exact .failed

theorem after (hx : Unmetered x) (hf : ∀ a m', x m = .ok a m' → Charges depth (f a) (f' a) m' k) :
    Charges depth (x >>= f) (x >>= f') m k := by
  have h := (of_unmetered hx).bind hx.level hf
  rwa [Nat.zero_add] at h

theorem answer (hx : Charges depth x x' m n) (b : β) :
    Charges depth (do let _ ← x; pure b) (do let _ ← x'; pure b) m n := by
  intro hfree left hleast
  have hsettles := hx hfree left hleast
  show Settles _ _ _ _ (EStateM.bind x (fun _ => pure b) m) (EStateM.bind x' (fun _ => pure b) (m.withBudget left))
  unfold EStateM.bind
  generalize x m = r, x' (m.withBudget left) = r' at hsettles
  cases hsettles with
  | done free steps affords allowed => exact .done free steps affords allowed
  | stopped free steps short limit => exact .stopped free steps short limit
  | failed => exact .failed

theorem countAllocation : Charges depth countAllocation countAllocation m 1 := by
  intro hfree left hleast
  have hfree' : Machine.countAllocation m = .ok () m := by
    unfold Machine.countAllocation
    rw [hfree]
  rw [hfree']
  cases left with
  | none => exact .done hfree rfl (.inr nofun) (.inl (Nat.le_refl _))
  | some word =>
    have hone : (1 : Int64).toInt = 1 := rfl
    have hlow := word.le_toInt
    have hword : word.toInt ≠ -9223372036854775808 := by
      intro heq
      exact hleast (congrArg some (toInt_inj.mp heq))
    have hsub : (word - 1).toInt = word.toInt - 1 := by
      have hhigh := word.toInt_lt
      rw [toInt_sub]
      exact Int.bmod_eq_of_le (by omega) (by omega)
    have hneg : word - 1 < 0 ↔ ¬Affords (some word) 1 := by
      rw [lt_iff_toInt_lt]
      simp only [Affords, some.injEq, forall_eq', toInt_zero]
      omega
    show Settles _ _ _ _ _ (if word - 1 < 0 then .error .allocationLimit _ else .ok () _)
    by_cases hlt : word - 1 < 0
    · rw [if_pos hlt]
      exact .stopped hfree rfl (fun hall => hneg.mp hlt hall.1) rfl
    · rw [if_neg hlt]
      exact .done hfree rfl (Classical.not_not.mp fun hn => hlt (hneg.mpr hn)) (.inl (Nat.le_refl _))

theorem once (hy : Unmetered y) :
    Charges depth (do Machine.countAllocation; y) (do Machine.countAllocation; y) m 1 :=
  countAllocation.bind countAllocation_level fun _ _ _ => of_unmetered hy

theorem pushNew (v : Value) : Charges depth (Machine.pushNew v) (Machine.pushNew v) m 1 := once (.push v)

theorem pushMade (f : Heap → Value × Heap) : Charges depth (do Machine.countAllocation; Machine.push (← make f))
    (do Machine.countAllocation; Machine.push (← make f)) m 1 := once ((Unmetered.make f).bind .push)

/-! ### Instructions -/

theorem applyBinary (code : Nat) : Charges depth (applyBinary code) (applyBinary code) m 1 := by
  unfold Machine.applyBinary
  cases Operator.ofCode? code with
  | none => exact raise _
  | some op =>
    refine after .pop fun rhs _ _ => after .pop fun lhs _ _ => ?_
    exact after (.onHeap _ _) fun v _ _ => pushNew v

theorem negate : Charges depth negate negate m 1 := by
  refine after .pop fun v _ _ => ?_
  cases v with
  | int n => exact pushNew _
  | float x => exact pushNew _
  | _ => exact refuse _ _

theorem complement : Charges depth complement complement m 1 := by
  refine after .pop fun v _ _ => ?_
  cases v with
  | int n => exact pushNew _
  | _ => exact refuse _ _

theorem makeArray (size : Nat) : Charges depth (Machine.makeArray size) (Machine.makeArray size) m 1 :=
  after (.popMany size) fun _ _ _ => pushMade _

theorem makeMap (size : Nat) : Charges depth (Machine.makeMap size) (Machine.makeMap size) m 1 :=
  after (.popMany size) fun vs _ _ => after (.pairUp vs) fun _ _ _ => pushMade _

theorem makeError : Charges depth Machine.makeError Machine.makeError m 1 :=
  after .pop fun _ _ _ => pushMade _

theorem slice : Charges depth slice slice m 1 := by
  refine after .pop fun high _ _ => after .pop fun low _ _ => after .pop fun target _ _ => ?_
  exact after (.onHeap _ _) fun v _ _ => pushNew v

theorem startIteration : Charges depth startIteration startIteration m 1 := by
  refine after .pop fun v _ _ => after (.act _) fun iterator? _ _ => ?_
  cases iterator? with
  | none => exact refuse _ v
  | some iterator => exact pushNew iterator

theorem makeClosure (env env' : Env) (henv : env'.constants = env.constants) (i cells : Nat) :
    Charges depth (makeClosure env i cells) (makeClosure env' i cells) m 1 := by
  have hconstant : constant env' i = constant env i := by
    unfold constant
    rw [henv]
  unfold Machine.makeClosure
  rw [hconstant]
  refine after (.constant env i) fun v _ _ => ?_
  cases v with
  | function routine => exact after (fun _ _ => onState_ite rfl rfl) fun cells _ _ => pushMade _
  | _ => exact raise _

end Charges

/-! ## Allocations of an instruction -/

/-- The allocations of freezing a value: only a container that can be changed is copied. -/
def freezeAllocates : Value → Nat
  | .array .mutable _ | .map .mutable _ => 1
  | _ => 0

/-- The allocations of calling a value: the result of a native function is new, and so is the array of the
remaining arguments of a function that takes any number of them. -/
def callAllocates (h : Heap) : Value → Nat
  | .builtin _ | .host _ => 1
  | .function r => (h.routineAt r).variadic.toNat
  | .closure c => (h.routineAt (h.closureAt c).routine).variadic.toNat
  | _ => 0

/-- **The allocations of an instruction** that runs to its end. Of a call, `args` is the number of arguments. -/
def opAllocates (m : Machine) (args : Nat) : Opcode → Nat
  | .binaryOp | .minus | .complement | .array | .map | .error | .slice | .iterInit | .closure => 1
  | .immutable => (m.stack.back?.map freezeAllocates).getD 0
  | .call => (m.stack[m.stack.size - args - 1]?.map (callAllocates m.heap)).getD 0
  | _ => 0

def allocates (m : Machine) : Nat :=
  match fetch m with
  | .instruction op code offset => opAllocates m (Code.readU8 code (offset + 1)) op
  | _ => 0

namespace Charges

variable {α β : Type} {depth n k : Nat} {m : Machine}

theorem freeze : Charges depth Machine.freeze Machine.freeze m ((m.stack.back?.map freezeAllocates).getD 0) := by
  refine after .pop fun v m' hv => ?_
  have htop : m.stack.back? = some v := by
    unfold pop at hv
    cases hback : m.stack.back? with
    | none => rw [hback] at hv; cases hv
    | some w => rw [hback] at hv; cases hv; rfl
  have hpush : Unmetered (do push (← act v.freeze)) := (Unmetered.act _).bind .push
  rw [htop]
  cases v with
  | array kind r =>
    cases kind with
    | mutable => exact once hpush
    | frozen => exact of_unmetered ((Unmetered.pure ()).bind fun _ => hpush)
  | map kind r =>
    cases kind with
    | mutable => exact once hpush
    | frozen => exact of_unmetered ((Unmetered.pure ()).bind fun _ => hpush)
  | _ => exact of_unmetered ((Unmetered.pure ()).bind fun _ => hpush)

/-! ### Calls -/

theorem callNative (f : List Value → Action Value) (args : Nat) :
    Charges depth (callNative f args) (callNative f args) m 1 := by
  refine after (.popMany args) fun _ _ _ => after Unmetered.pop.discard fun _ _ _ => ?_
  exact after (.act _) fun v _ _ => pushNew v

theorem collectRest (args fixed : Nat) :
    Charges depth (Machine.collectRest args fixed) (Machine.collectRest args fixed) m 1 :=
  after (.popMany _) fun _ _ _ => pushMade _

theorem bindArguments (f : Routine) (args : Nat) :
    Charges depth (bindArguments f args) (bindArguments f args) m f.variadic.toNat := by
  unfold Machine.bindArguments
  cases f.variadic with
  | true =>
    by_cases hfew : args < f.params - 1
    · rw [if_pos hfew]
      exact raise _
    · rw [if_neg hfew]
      exact (collectRest args _).bind collectRest_level fun _ _ _ => of_unmetered (.pure _)
  | false =>
    by_cases heq : args = f.params
    · rw [if_pos heq]
      exact of_unmetered (.pure _)
    · rw [if_neg heq]
      exact raise _

theorem openFrame {free limits : Limits.Run} (hfree : m.callers.size + 2 ≤ free.callDepth) (routine : Ref)
    (closure? : Option Ref) (locals args : Nat) :
    Charges limits.callDepth
      (do if free.callDepth ≤ (← get).callers.size + 1 then throw (.callDepth free.callDepth)
          openFrame routine closure? locals args)
      (do if limits.callDepth ≤ (← get).callers.size + 1 then throw (.callDepth limits.callDepth)
          openFrame routine closure? locals args) m 0 := by
  intro hnone left _
  have hcallers : (m.withBudget left).callers = m.callers := rfl
  rw [openFrame_checked, openFrame_checked, if_neg (by omega), hcallers]
  by_cases hdeep : limits.callDepth ≤ m.callers.size + 1
  · rw [if_pos hdeep]
    refine .stopped hnone rfl (fun hall => ?_) rfl
    have hallowed : (m.callers.push m.frame).size ≤ m.callers.size ∨
        (m.callers.push m.frame).size + 1 ≤ limits.callDepth := hall.2
    rw [size_push] at hallowed
    omega
  · rw [if_neg hdeep]
    have hdone : Machine.openFrame routine closure? locals args (m.withBudget left) =
        onState (Machine.withBudget (spend left 0)) (Machine.openFrame routine closure? locals args m) := by
      rw [spend_zero]
      rfl
    rw [hdone]
    refine .done hnone rfl (affords_zero left) (.inr ?_)
    rw [size_push]
    omega

theorem callRoutine (hfree : m.callers.size + 2 ≤ free.callDepth) (routine : Ref) (closure? : Option Ref)
    (args : Nat) :
    Charges limits.callDepth (callRoutine free routine closure? args)
      (callRoutine limits routine closure? args) m (m.heap.routineAt routine).variadic.toNat := by
  refine after (.readHeap _) fun f m' hf => ?_
  cases hf
  refine (bindArguments _ args).bind (k := 0) bindArguments_level fun args' m' hargs => ?_
  have hcallers : m'.callers = m.callers := bindArguments_level hargs
  exact openFrame (by rw [hcallers]; exact hfree) routine closure? _ args'

variable {env env' : Env}

theorem callBelow (hhost : env'.host = env.host) (hfree : m.callers.size + 2 ≤ env.limits.callDepth)
    (args : Nat) :
    Charges env'.limits.callDepth (Scripting.callBelow env args) (Scripting.callBelow env' args) m
      ((m.stack[m.stack.size - args - 1]?.map (callAllocates m.heap)).getD 0) := by
  unfold Scripting.callBelow
  rw [hhost]
  refine after (.of_commutes fun _ => calleeBelow_commutes args) fun v m' hv => ?_
  obtain ⟨hcallee, rfl⟩ : m.stack[m.stack.size - args - 1]? = some v ∧ m' = m := by
    unfold calleeBelow at hv
    cases hback : m.stack[m.stack.size - args - 1]? with
    | none => rw [hback] at hv; cases hv
    | some w => rw [hback] at hv; cases hv; exact ⟨rfl, rfl⟩
  rw [hcallee]
  cases v with
  | function routine => exact callRoutine hfree routine none args
  | closure c =>
    refine after (.readHeap _) fun closure m' hc => ?_
    cases hc
    exact callRoutine hfree _ (some c) args
  | builtin b => exact callNative b.call args
  | host r => exact after (.readHeap _) fun name m' _ => callNative _ args
  | _ => exact refuse _ _

end Charges

/-- Spreading the last argument leaves the callee where it is. -/
theorem spreadOut_callee {spread : Bool} (hsize : args + 1 ≤ m.stack.size)
    (h : spreadOut args spread m = .ok args' m') :
    m'.heap = m.heap ∧ args' + 1 ≤ m'.stack.size ∧
      m'.stack[m'.stack.size - args' - 1]? = m.stack[m.stack.size - args - 1]? := by
  unfold spreadOut at h
  split at h
  · rename_i hspread
    have hargs : args ≠ 0 := by
      rw [Bool.and_eq_true, bne_iff_ne] at hspread
      exact hspread.2
    obtain ⟨last, m1, hpop, h⟩ := ok_of_bind h
    obtain ⟨items?, m2, hitems, h⟩ := ok_of_bind h
    have hm : m2 = { m with stack := m.stack.pop } := by
      unfold pop at hpop
      cases hback : m.stack.back? with
      | none => rw [hback] at hpop; cases hpop
      | some v => rw [hback] at hpop; cases hpop; cases hitems; rfl
    cases items? with
    | none => cases h
    | some items =>
      cases h
      subst hm
      refine ⟨rfl, ?_, ?_⟩
      · rw [size_append, size_pop]
        omega
      have hindex : (m.stack.pop ++ items).size - (args - 1 + items.size) - 1 = m.stack.size - args - 1 := by
        rw [size_append, size_pop]
        omega
      rw [hindex, getElem?_append_left (by rw [size_pop]; omega), getElem?_pop,
        if_pos (by omega)]
  · cases h
    exact ⟨rfl, hsize, rfl⟩

theorem spreadOut_unmetered : Unmetered (spreadOut args spread) := by
  unfold spreadOut
  split
  · exact .spreadLast args
  · exact .pure args

namespace Charges

variable {env env' : Env} {m : Machine}

theorem call (hhost : env'.host = env.host) (hfree : m.callers.size + 2 ≤ env.limits.callDepth) (args : Nat)
    (spread : Bool) :
    Charges env'.limits.callDepth (call env args spread) (call env' args spread) m
      ((m.stack[m.stack.size - args - 1]?.map (callAllocates m.heap)).getD 0) := by
  intro hnone left hleast
  have hstack : (m.withBudget left).stack = m.stack := rfl
  by_cases hsize : m.stack.size < args + 1
  · rw [call_underflow env args spread m hsize, call_underflow env' args spread _ (hstack ▸ hsize)]
    exact .failed
  · rw [call_eq env args spread m hsize, call_eq env' args spread _ (hstack ▸ hsize)]
    refine after spreadOut_unmetered (fun args' m' h => ?_) hnone left hleast
    obtain ⟨hheap, -, hcallee⟩ := spreadOut_callee (Nat.le_of_not_lt hsize) h
    rw [← hheap, ← hcallee]
    have hcallers : m'.callers = m.callers := spreadOut_unmetered.level h
    exact callBelow hhost (by rw [hcallers]; exact hfree) args'

/-! ### Whole instructions -/

theorem perform (hconstants : env'.constants = env.constants) (hhost : env'.host = env.host)
    (hfree : m.callers.size + 2 ≤ env.limits.callDepth) (op : Opcode) (code : Bytes) (offset : Nat) :
    Charges env'.limits.callDepth (perform env op code offset) (perform env' op code offset) m
      (opAllocates m (Code.readU8 code (offset + 1)) op) := by
  have hconstant (i : Nat) : constant env' i = constant env i := by
    unfold constant
    rw [hconstants]
  cases op with
  | constant =>
    show Charges _ _ (do push (← constant env' _)) m 0
    rw [hconstant]
    exact of_unmetered ((Unmetered.constant env _).bind .push)
  | binaryOp => exact applyBinary _
  | minus => exact negate
  | complement => exact complement
  | array => exact makeArray _
  | map => exact makeMap _
  | error => exact makeError
  | immutable => exact freeze
  | slice => exact slice
  | call => exact call hhost hfree _ _
  | getLocal => exact of_unmetered ((Unmetered.getLocal _).bind .push)
  | setLocal => exact of_unmetered (Unmetered.pop.bind (.setLocal _))
  | defineLocal => exact of_unmetered (Unmetered.pop.bind (.defineLocal _))
  | setSelLocal => exact of_unmetered (.assignSelected (.getLocal _) _)
  | getLocalPtr => exact of_unmetered ((Unmetered.shareLocal _).bind .capture)
  | getFree => exact of_unmetered ((Unmetered.getFree _).bind .push)
  | setFree => exact of_unmetered (Unmetered.pop.bind (.setFree _))
  | setSelFree => exact of_unmetered (.assignSelected (.getFree _) _)
  | getFreePtr => exact of_unmetered ((Unmetered.freeCell _).bind .capture)
  | closure => exact makeClosure env env' hconstants _ _
  | currentFuncPtr =>
    have hcurrent : Unmetered currentFunction := .of_commutes fun _ => currentFunction_commutes
    exact of_unmetered (hcurrent.bind fun _ => (Unmetered.make _).bind .capture)
  | iterInit => exact startIteration
  | _ => exact of_unmetered (.of_commutes fun _ => perform_commutes env code offset rfl nofun)

theorem finish (v : Value) : Charges depth (finish v) (finish v) m 0 := by
  intro hnone left _
  have hdone : Machine.finish v (m.withBudget left) =
      onState (Machine.withBudget (spend left 0)) (Machine.finish v m) := by
    have hcallers : (m.withBudget left).callers = m.callers := rfl
    rw [spend_zero]
    unfold Machine.finish
    rw [hcallers]
    cases m.callers.back? <;> rfl
  rw [hdone]
  unfold Machine.finish
  cases m.callers.back? with
  | none => exact .done hnone rfl (affords_zero left) (.inl (Nat.le_refl _))
  | some caller =>
    have hpop : m.callers.pop.size ≤ m.callers.size := by simp
    exact .done hnone rfl (affords_zero left) (.inl hpop)

theorem execute (hconstants : env'.constants = env.constants) (hhost : env'.host = env.host)
    (hfree : m.callers.size + 2 ≤ env.limits.callDepth) (op : Opcode) (code : Bytes) (offset : Nat) :
    Charges env'.limits.callDepth (execute env op code offset) (execute env' op code offset) m
      (opAllocates m (Code.readU8 code (offset + 1)) op) := by
  have hperform := perform (m := m) hconstants hhost hfree op code offset
  cases op with
  | suspend => exact of_unmetered (.pure true)
  | ret =>
    unfold Machine.execute
    by_cases hone : (Code.readU8 code (offset + 1) == 1) = true
    · rw [if_pos hone]
      exact after (k := 0) .pop fun v _ _ => finish v
    · rw [if_neg hone]
      exact finish .undefined
  | _ => exact hperform.answer false

end Charges

/-! ## Steps -/

/-- Limits that the next instruction cannot reach. -/
def slack (m : Machine) : Limits.Run :=
  { callDepth := m.callers.size + 2, stackSize := m.stack.size, steps := none, allocations := none }

def freeStep (env : Env) (m : Machine) : EStateM.Result Fault Machine Bool := step { env with limits := m.slack } m

/-- **The limits let a step pass** that leads from `m` to `m'`, with `left` allocations left. -/
structure Passes (limits : Limits.Run) (left : Option Int64) (m m' : Machine) : Prop where
  steps : ∀ most, limits.steps = some most → m.steps + 1 ≤ most
  height : m.stack.size ≤ limits.stackSize
  allocations : Affords left m.allocates
  depth : Allowed limits.callDepth m m'

/-- No limit is exceeded exactly if the step is not one too many and the stack is not too high. -/
theorem exceeded?_eq_none_iff {steps height : Nat} : exceeded? limits steps height = none ↔
    (∀ most, limits.steps = some most → steps ≤ most) ∧ height ≤ limits.stackSize := by
  have hheight : (if limits.stackSize < height then some Fault.stackOverflow else none) = none ↔
      height ≤ limits.stackSize := by simp
  unfold exceeded?
  cases limits.steps with
  | none => exact hheight.trans (and_iff_right nofun).symm
  | some most =>
    by_cases hmany : most < steps
    · have hfilter : (some most).filter (fun max => max < steps) = some most := by simpa using hmany
      rw [hfilter]
      exact ⟨nofun, fun h => absurd (h.1 most rfl) (Nat.not_le.mpr hmany)⟩
    · have hfilter : (some most).filter (fun max => max < steps) = none := by simpa using hmany
      rw [hfilter]
      refine hheight.trans (and_iff_right ?_).symm
      rintro _ ⟨⟩
      exact Nat.not_lt.mp hmany

theorem exceeded?_isLimit {steps height : Nat} (h : exceeded? limits steps height = some fault) :
    fault.isLimit = true := by
  unfold exceeded? at h
  split at h
  · cases h
    rfl
  · split at h <;> cases h
    rfl

theorem step_of_begun (h : exceeded? env.limits (m.steps + 1) m.stack.size = none) :
    step env m = dispatch env m.counted := by
  rw [step_eq]
  show EStateM.bind _ _ m = _
  rw [EStateM.bind, countStep_eq, h]

theorem step_of_exceeded (h : exceeded? env.limits (m.steps + 1) m.stack.size = some fault) :
    step env m = .error fault m.counted := by
  rw [step_eq]
  show EStateM.bind _ _ m = _
  rw [EStateM.bind, countStep_eq, h]

theorem freeStep_eq : freeStep env m = dispatch { env with limits := m.slack } m.counted :=
  step_of_begun (exceeded?_eq_none_iff.mpr ⟨nofun, Nat.le_refl _⟩)

theorem Charges.dispatch (env env' : Env) (hconstants : env'.constants = env.constants)
    (hhost : env'.host = env.host) (hfree : m.callers.size + 2 ≤ env.limits.callDepth) :
    Charges env'.limits.callDepth (Scripting.dispatch env) (Scripting.dispatch env') m m.allocates := by
  intro hnone left hleast
  have hfetch : fetch (m.withBudget left) = fetch m := rfl
  unfold Scripting.dispatch allocates
  rw [hfetch]
  cases fetch m with
  | nothing => exact finish .undefined hnone left hleast
  | broken fault => exact .failed
  | instruction op code offset =>
    exact (execute (m := { m with frame := { m.frame with current := offset, next := offset + op.length } })
      hconstants hhost hfree op code offset hnone left hleast).start rfl rfl

/-- **A step under limits** does what it does without limits, or is stopped by one. -/
theorem step_settles (limits : Limits.Run) (hnone : m.allocations = none)
    (hleast : left ≠ some minValue) (h : freeStep env m = .ok ends m') :
    m'.allocations = none ∧ m'.steps = m.steps + 1 ∧
      (Passes limits left m m' ∧
          step { env with limits } (m.withBudget left) = .ok ends (m'.withBudget (spend left m.allocates)) ∨
        ¬Passes limits left m m' ∧ ∃ fault q, fault.isLimit = true ∧
          step { env with limits } (m.withBudget left) = .error fault q) := by
  have hcharges := Charges.dispatch { env with limits := m.slack } { env with limits } (m := m.counted) rfl rfl
    (Nat.le_refl _)
  have hsettles := hcharges hnone left hleast
  rw [← freeStep_eq, h] at hsettles
  have hkeeps : m'.allocations = none ∧ m'.steps = m.counted.steps := by
    generalize dispatch { env with limits } (m.counted.withBudget left) = r at hsettles
    cases hsettles <;> exact ⟨‹_›, ‹_›⟩
  refine ⟨hkeeps.1, hkeeps.2, ?_⟩
  cases hexceeded : exceeded? limits (m.steps + 1) m.stack.size with
  | some fault =>
    refine .inr ⟨fun hp => ?_, fault, _, exceeded?_isLimit hexceeded, step_of_exceeded hexceeded⟩
    rw [exceeded?_eq_none_iff.mpr ⟨hp.steps, hp.height⟩] at hexceeded
    cases hexceeded
  | none =>
    obtain ⟨hsteps, hheight⟩ := exceeded?_eq_none_iff.mp hexceeded
    have hstep : step { env with limits } (m.withBudget left) =
        dispatch { env with limits } (m.counted.withBudget left) := step_of_begun hexceeded
    rw [hstep]
    cases hend : dispatch { env with limits } (m.counted.withBudget left) with
    | ok b q =>
      rw [hend] at hsettles
      cases hsettles with
      | done _ _ affords allowed => exact .inl ⟨⟨hsteps, hheight, affords, allowed⟩, rfl⟩
    | error fault q =>
      rw [hend] at hsettles
      cases hsettles with
      | stopped _ _ short limit =>
        exact .inr ⟨fun hp => short ⟨hp.allocations, hp.depth⟩, fault, q, limit, rfl⟩

end Machine

end Scripting
