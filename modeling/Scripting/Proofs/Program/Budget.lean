import Scripting.Compile.Unit
import Scripting.Proofs.Machine.Metering
/-!
# `Proofs.Program.Budget` — what a run uses decides which limits it keeps

A run without limits (`Program.runFreely`) is run step by step under limits that the step cannot reach, and
what it uses is added up (`Usage`): instructions, allocations, the most operands on the stack when an
instruction begins, and the most frames. A run under limits ends well exactly if the run without limits uses
no more than they allow, and is then the same run. There is one exception in favour of the program: the first
frame is always there, and a budget is compared only when something is allocated.

The induction is on the fuel, with the step of `Machine.step_settles`. A run in the middle has counters of its
own, so what it proves is about the instructions begun and the allocations left there (`Usage.Fits`).
-/

namespace Scripting

open Generator

namespace Machine

variable {env : Env} {files : FileSet} {m m1 m' : Machine} {fuel fuel' extra : Nat}

/-! ## Fuel -/

/-- **More fuel never changes the outcome of a run that is over.** -/
theorem runFor_add (h : (runFor env files fuel m).1 ≠ .unfinished) :
    runFor env files (fuel + extra) m = runFor env files fuel m := by
  induction fuel generalizing m with
  | zero => exact absurd rfl h
  | succ fuel ih =>
    rw [Nat.succ_add]
    unfold runFor at h ⊢
    split
    · rfl
    · next hstep =>
      rw [hstep] at h
      exact ih h
    · rfl

/-- Two runs that are over are the same run. -/
theorem runFor_unique (h : (runFor env files fuel m).1 ≠ .unfinished)
    (h' : (runFor env files fuel' m).1 ≠ .unfinished) : runFor env files fuel m = runFor env files fuel' m := by
  rcases Nat.le_total fuel fuel' with hle | hle
  · obtain ⟨extra, rfl⟩ := Nat.exists_eq_add_of_le hle
    exact (runFor_add h).symm
  · obtain ⟨extra, rfl⟩ := Nat.exists_eq_add_of_le hle
    exact runFor_add h'

/-! ## Usage -/

/-- What a run uses. -/
structure Usage where
  steps : Nat := 0
  allocations : Nat := 0
  height : Nat := 0
  depth : Nat
  deriving DecidableEq, Repr

/-- Nothing is used but the frames that are there. -/
def Usage.idle (m : Machine) : Usage := { depth := m.callers.size + 1 }

/-- What the instruction at `m` uses, and the rest of the run. -/
def Usage.after (m : Machine) (rest : Usage) : Usage :=
  { steps := rest.steps + 1
    allocations := m.allocates + rest.allocations
    height := max m.stack.size rest.height
    depth := max (m.callers.size + 1) rest.depth }

/-- Run at most `fuel` instructions without limits, and say what they use. -/
def runFreely (env : Env) (files : FileSet) : (fuel : Nat) → Machine → (Outcome × Machine) × Usage
  | 0, m => ((.unfinished, m), .idle m)
  | fuel + 1, m =>
    match freeStep env m with
    | .ok true m' => ((.finished, m'), .after m (.idle m'))
    | .ok false m' =>
      let (final, rest) := runFreely env files fuel m'
      (final, .after m rest)
    | .error fault m' => ((.failed { fault, trace := m'.trace files }, m'), .after m (.idle m'))

/-- **The usage keeps the limits.** -/
structure Usage.Within (u : Usage) (limits : Limits.Run) : Prop where
  steps : ∀ most, limits.steps = some most → u.steps ≤ most
  allocations : ∀ most, limits.allocations = some most → u.allocations = 0 ∨ (u.allocations : Int) ≤ most.toInt
  height : u.height ≤ limits.stackSize
  depth : u.depth = 1 ∨ u.depth ≤ limits.callDepth

/-- The usage keeps what is left of the limits at `m`, with `left` allocations left. -/
structure Usage.Fits (u : Usage) (limits : Limits.Run) (left : Option Int64) (m : Machine) : Prop where
  steps : ∀ most, limits.steps = some most → m.steps + u.steps ≤ most
  allocations : Affords left u.allocations
  height : u.height ≤ limits.stackSize
  depth : u.depth ≤ max 1 limits.callDepth

/-- At the start of a program, what is left of the limits is the limits. -/
theorem Usage.fits_start {u : Usage} {limits : Limits.Run} (hsteps : m.steps = 0) (hdepth : 1 ≤ u.depth) :
    u.Fits limits limits.allocations m ↔ u.Within limits := by
  constructor
  · rintro ⟨steps, allocations, height, depth⟩
    refine ⟨fun most h => ?_, fun most h => allocations.imp_right fun ha => ha most h, height, by omega⟩
    have := steps most h
    omega
  · rintro ⟨steps, allocations, height, depth⟩
    refine ⟨fun most h => ?_, ?_, height, by omega⟩
    · have := steps most h
      omega
    · by_cases hzero : u.allocations = 0
      · exact .inl hzero
      · exact .inr fun most h => (allocations most h).resolve_left hzero

theorem runFreely_depth (env : Env) (files : FileSet) (fuel : Nat) (m : Machine) :
    m.callers.size + 1 ≤ (runFreely env files fuel m).2.depth := by
  cases fuel with
  | zero => exact Nat.le_refl _
  | succ fuel =>
    unfold runFreely
    split <;> exact Nat.le_max_left ..

variable {limits : Limits.Run} {left : Option Int64} {depth : Nat} {rest : Usage} {ends : Bool}

/-- Frames are allowed after a step exactly if they are below the limit; the first one always is. -/
theorem allowed_iff (h : m.callers.size + 1 ≤ max 1 depth) :
    Allowed depth m m' ↔ m'.callers.size + 1 ≤ max 1 depth := by
  unfold Allowed
  omega

/-- What is left of the limits fits the usage exactly if the step passes and the rest fits what it leaves. -/
theorem Usage.fits_after (hsteps : m'.steps = m.steps + 1)
    (hdepth : m.callers.size + 1 ≤ max 1 limits.callDepth) (hrest : m'.callers.size + 1 ≤ rest.depth) :
    (Usage.after m rest).Fits limits left m ↔
      Passes limits left m m' ∧ rest.Fits limits (spend left m.allocates) m' := by
  constructor
  · rintro ⟨steps, allocations, height, depth⟩
    obtain ⟨hnow, hlater⟩ := affords_add.mp allocations
    simp only [Usage.after] at steps height depth
    refine ⟨⟨fun most h => ?_, by omega, hnow, (allowed_iff hdepth).mpr (by omega)⟩,
      fun most h => ?_, hlater, by omega, by omega⟩
    · have := steps most h
      omega
    · have := steps most h
      omega
  · rintro ⟨⟨_, height, hnow, _⟩, ⟨steps', hlater, height', depth'⟩⟩
    refine ⟨fun most h => ?_, affords_add.mpr ⟨hnow, hlater⟩, Nat.max_le.mpr ⟨height, height'⟩,
      Nat.max_le.mpr ⟨hdepth, depth'⟩⟩
    have := steps' most h
    simp only [Usage.after]
    omega

/-- Nothing more is used after a step that passes. -/
theorem Usage.fits_idle (hpasses : Passes limits left m m') (hsteps : m'.steps = m.steps + 1)
    (hdepth : m.callers.size + 1 ≤ max 1 limits.callDepth) :
    (Usage.idle m').Fits limits (spend left m.allocates) m' := by
  refine ⟨fun most h => ?_, affords_zero _, Nat.zero_le _, (allowed_iff hdepth).mp hpasses.depth⟩
  rw [hsteps]
  exact hpasses.steps most h

/-! ## Runs -/

/-- **How a run under limits ends** beside one without that is over and has used `u`: alike, if the usage
fits; otherwise a limit stops it. -/
inductive Concludes (limits : Limits.Run) (left : Option Int64) (m m' : Machine) (u : Usage) :
    Outcome × Machine → Prop
  | finished (fits : u.Fits limits left m) :
      Concludes limits left m m' u (.finished, m'.withBudget (spend left u.allocations))
  | stopped {e q} (short : ¬u.Fits limits left m) (limit : e.fault.isLimit = true) :
      Concludes limits left m m' u (.failed e, q)

/-- One step more at the front: it passes and the rest goes on with what it leaves, or it is stopped. -/
theorem Concludes.after (hnone : m.allocations = none) (hleast : left ≠ some Int64.minValue)
    (hdepth : m.callers.size + 1 ≤ max 1 limits.callDepth) (hstep : freeStep env m = .ok ends m1)
    (hrest : m1.callers.size + 1 ≤ rest.depth)
    (hlater : Passes limits left m m1 → Concludes limits (spend left m.allocates) m1 m' rest
      (if ends then (.finished, m1.withBudget (spend left m.allocates))
        else runFor { env with limits } files fuel (m1.withBudget (spend left m.allocates)))) :
    Concludes limits left m m' (.after m rest) (runFor { env with limits } files (fuel + 1) (m.withBudget left)) := by
  obtain ⟨_, hsteps, ⟨hpasses, hrun⟩ | ⟨hshort, fault, q, hlimit, hrun⟩⟩ := step_settles limits hnone hleast hstep
  · have hfirst : runFor { env with limits } files (fuel + 1) (m.withBudget left) =
        if ends then (.finished, m1.withBudget (spend left m.allocates))
          else runFor { env with limits } files fuel (m1.withBudget (spend left m.allocates)) := by
      cases ends <;> simp [runFor, hrun]
    have hconcludes := hlater hpasses
    rw [← hfirst] at hconcludes
    have hfits : (Usage.after m rest).Fits limits left m ↔ rest.Fits limits (spend left m.allocates) m1 :=
      (Usage.fits_after hsteps hdepth hrest).trans (and_iff_right hpasses)
    cases hend : runFor { env with limits } files (fuel + 1) (m.withBudget left) with
    | mk outcome q =>
      rw [hend] at hconcludes
      cases hconcludes with
      | finished fits =>
        rw [spend_add]
        exact .finished (hfits.mpr fits)
      | stopped short limit => exact .stopped (fun h => short (hfits.mp h)) limit
  · simp only [runFor, hrun]
    exact .stopped (fun hfits => hshort ((Usage.fits_after hsteps hdepth hrest).mp hfits).1) hlimit

/-- **A run under limits** is the run without limits, or a limit stops it. -/
theorem runFor_concludes (hnone : m.allocations = none) (hleast : left ≠ some Int64.minValue)
    (hdepth : m.callers.size + 1 ≤ max 1 limits.callDepth) (h : (runFreely env files fuel m).1.1 = .finished) :
    Concludes limits left m (runFreely env files fuel m).1.2 (runFreely env files fuel m).2
      (runFor { env with limits } files fuel (m.withBudget left)) := by
  induction fuel generalizing m left with
  | zero => cases h
  | succ fuel ih =>
    cases hstep : freeStep env m with
    | error fault q =>
      simp only [runFreely, hstep] at h
      cases h
    | ok ends m1 =>
      obtain ⟨hnone1, hsteps, _⟩ := step_settles limits hnone hleast hstep
      cases ends with
      | true =>
        -- the last step: nothing is used after it
        simp only [runFreely, hstep]
        refine .after hnone hleast hdepth hstep (Nat.le_refl _) fun hpasses => ?_
        have hidle : Concludes limits (spend left m.allocates) m1 m1 (.idle m1) _ :=
          .finished (Usage.fits_idle hpasses hsteps hdepth)
        rwa [Usage.idle, spend_zero] at hidle
      | false =>
        simp only [runFreely, hstep] at h ⊢
        refine .after hnone hleast hdepth hstep (runFreely_depth env files fuel m1) fun hpasses => ?_
        exact ih hnone1 (spend_ne_least hleast hpasses.allocations) ((allowed_iff hdepth).mp hpasses.depth) h

/-- The instructions of a run without limits are those it counts. -/
theorem runFreely_steps (hnone : m.allocations = none) (h : (runFreely env files fuel m).1.1 = .finished) :
    (runFreely env files fuel m).1.2.steps = m.steps + (runFreely env files fuel m).2.steps := by
  induction fuel generalizing m with
  | zero => cases h
  | succ fuel ih =>
    cases hstep : freeStep env m with
    | error fault q =>
      simp only [runFreely, hstep] at h
      cases h
    | ok ends m1 =>
      obtain ⟨hnone1, hsteps, _⟩ := step_settles {} hnone (show none ≠ some Int64.minValue from nofun) hstep
      cases ends with
      | true =>
        simp only [runFreely, hstep]
        exact hsteps
      | false =>
        simp only [runFreely, hstep] at h ⊢
        rw [ih hnone1 h, hsteps]
        exact Nat.add_right_comm ..

end Machine

/-! ## Programs -/

/-- What is left of a run that ended so. -/
def Machine.Result.ofRun (final : Outcome × Machine) : Machine.Result :=
  { outcome := final.1, globals := final.2.globals, steps := final.2.steps, heap := final.2.heap }

open Machine

namespace Program

/-- **Run a program without limits** on global variables, and say what it uses. -/
def runFreely (p : Program) (host : String → List Value → Action Value) (globals : Array Value) (heap : Heap)
    (fuel : Nat) : Machine.Result × Usage :=
  let env : Machine.Env := { constants := p.constants, limits := {}, host }
  let (final, usage) := Machine.runFreely env p.files fuel ((start p.main {} globals heap).withBudget none)
  (.ofRun final, usage)

variable {p : Program} {host : String → List Value → Action Value} {globals : Array Value} {heap : Heap}
  {limits : Limits.Run} {fuel fuel' : Nat}

theorem run_eq : p.run limits host globals heap fuel = .ofRun (runFor
    { constants := p.constants, limits, host } p.files fuel
    (((start p.main {} globals heap).withBudget none).withBudget limits.allocations)) := rfl

theorem run_unique (h : (p.run limits host globals heap fuel).outcome ≠ .unfinished)
    (h' : (p.run limits host globals heap fuel').outcome ≠ .unfinished) :
    p.run limits host globals heap fuel = p.run limits host globals heap fuel' := by
  exact congrArg Result.ofRun (runFor_unique h h')

/-- With the fuel of the run without limits, the run under limits is over too. -/
theorem run_settles (hfree : (p.runFreely host globals heap fuel).1.outcome = .finished)
    (hleast : limits.allocations ≠ some Int64.minValue) :
    (p.runFreely host globals heap fuel).2.Within limits ∧
        p.run limits host globals heap fuel = (p.runFreely host globals heap fuel).1 ∨
      ¬(p.runFreely host globals heap fuel).2.Within limits ∧
        ∃ e, (p.run limits host globals heap fuel).outcome = .failed e ∧ e.fault.isLimit = true := by
  let env : Machine.Env := { constants := p.constants, limits := {}, host }
  let m := (start p.main {} globals heap).withBudget none
  have hwithin : (Machine.runFreely env p.files fuel m).2.Fits limits limits.allocations m ↔ _ :=
    Usage.fits_start rfl (runFreely_depth env p.files fuel m)
  have hfinished : (Machine.runFreely env p.files fuel m).1.1 = .finished := hfree
  have hconcludes : Concludes limits limits.allocations m _ _ _ :=
    runFor_concludes rfl hleast (Nat.le_max_left ..) hfinished
  rw [run_eq]
  cases hrun : runFor { env with limits } p.files fuel (m.withBudget limits.allocations) with
  | mk outcome q =>
    rw [hrun] at hconcludes
    cases hconcludes with
    | finished fits =>
      left
      refine ⟨hwithin.mp fits, ?_⟩
      rw [← hfree]
      rfl
    | stopped short limit =>
      right
      exact ⟨fun h => short (hwithin.mpr h), _, rfl, limit⟩

/-- **Limits are exact, and cannot be seen otherwise.** Take a program whose run without limits finishes, and
limits of which the budget is not the least word. Under the limits the program finishes exactly if the run
without limits uses no more than they allow; every run under them that finishes is the run without limits, in
its globals, its heap and its steps; and if the limits do not suffice, one of them stops the run. -/
theorem run_finishes_iff_within (limits : Limits.Run)
    (hfree : (p.runFreely host globals heap fuel).1.outcome = .finished)
    (hleast : limits.allocations ≠ some Int64.minValue) :
    ((∃ fuel', (p.run limits host globals heap fuel').outcome = .finished) ↔
        (p.runFreely host globals heap fuel).2.Within limits) ∧
      (∀ fuel', (p.run limits host globals heap fuel').outcome = .finished →
        p.run limits host globals heap fuel' = (p.runFreely host globals heap fuel).1) ∧
      (p.runFreely host globals heap fuel).1.steps = (p.runFreely host globals heap fuel).2.steps ∧
      (¬(p.runFreely host globals heap fuel).2.Within limits →
        ∃ e, (p.run limits host globals heap fuel).outcome = .failed e ∧ e.fault.isLimit = true) := by
  have hsteps : (p.runFreely host globals heap fuel).1.steps = (p.runFreely host globals heap fuel).2.steps :=
    (runFreely_steps rfl hfree).trans (Nat.zero_add _)
  rcases run_settles hfree hleast with ⟨hwithin, hrun⟩ | ⟨hshort, e, hrun, hlimit⟩
  · have hover : (p.run limits host globals heap fuel).outcome = .finished := by rw [hrun, hfree]
    refine ⟨⟨fun _ => hwithin, fun _ => ⟨fuel, hover⟩⟩, fun fuel' h => ?_, hsteps, fun h => absurd hwithin h⟩
    rw [run_unique (by simp [h]) (show (p.run limits host globals heap fuel).outcome ≠ .unfinished by simp [hover]),
      hrun]
  · -- a run that a limit stops is over, so no run finishes
    have hnone (fuel' : Nat) : (p.run limits host globals heap fuel').outcome ≠ .finished := by
      intro h
      have hsame := run_unique (show (p.run limits host globals heap fuel').outcome ≠ .unfinished by simp [h])
        (show (p.run limits host globals heap fuel).outcome ≠ .unfinished by simp [hrun])
      rw [hsame, hrun] at h
      cases h
    exact ⟨⟨fun ⟨fuel', h⟩ => absurd h (hnone fuel'), fun h => absurd h hshort⟩,
      fun fuel' h => absurd h (hnone fuel'), hsteps, fun _ => ⟨e, hrun, hlimit⟩⟩

/-- `f := func(a) { return [a] }`, then `x := f(1)`. -/
def wrappingBody : List Stmt := [
  .assign .none [.ident .none "f"] .define [.func .none [⟨.none, "a"⟩] false [
    .ret .none (some (.array .none [.ident .none "a"]))]],
  .assign .none [.ident .none "x"] .define [.call .none (.ident .none "f") [.int .none 1] false]]

/-- The call needs a second frame and the array an allocation: the program finishes exactly if there are both. -/
theorem wrapping_finishes_iff : ∃ p g, compile {} Dict.empty wrappingBody {} = (.ok p, g) ∧
    (p.runFreely (fun _ _ => pure .undefined) #[] g.heap 10).1.outcome = .finished ∧
    ∀ depth budget, budget ≠ Int64.minValue →
      ((∃ fuel, (p.run { callDepth := depth, stackSize := 2, steps := some 10, allocations := some budget }
          (fun _ _ => pure .undefined) #[] g.heap fuel).outcome = .finished) ↔ 2 ≤ depth ∧ 1 ≤ budget.toInt) := by
  have hsome : (compile {} Dict.empty wrappingBody {}).1.toOption.any (fun p =>
      let free := p.runFreely (fun _ _ => pure .undefined) #[]
        (compile {} Dict.empty wrappingBody {}).2.heap 10
      free.1.outcome = .finished ∧ free.2 = { steps := 10, allocations := 1, height := 2, depth := 2 }) := by
    decide +kernel
  rcases hcompile : compile {} Dict.empty wrappingBody {} with ⟨e | p, g⟩
  · rw [hcompile] at hsome
    cases hsome
  · rw [hcompile] at hsome
    obtain ⟨hfree, husage⟩ := of_decide_eq_true hsome
    refine ⟨p, g, rfl, hfree, fun depth budget hleast => ?_⟩
    have hlimits := (run_finishes_iff_within
      { callDepth := depth, stackSize := 2, steps := some 10, allocations := some budget } hfree
      (by simpa using hleast)).1
    rw [hlimits, husage]
    constructor
    · rintro ⟨_, hallocations, _, hdepth⟩
      have := hallocations budget rfl
      simp at this hdepth
      exact ⟨hdepth, this⟩
    · rintro ⟨hdepth, hbudget⟩
      refine ⟨?_, ?_, Nat.le_refl _, .inr hdepth⟩
      · rintro _ ⟨⟩
        exact Nat.le_refl _
      · rintro _ ⟨⟩
        exact .inr hbudget

end Program

end Scripting
