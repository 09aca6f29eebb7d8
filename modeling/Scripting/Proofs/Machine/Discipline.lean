import Mathlib.Logic.Relation
import Scripting.Proofs.Machine.Lockstep
/-!
# `Proofs.Machine.Discipline` — the stack discipline of a run

A program that is linked with itself keeps a stack discipline. The height of the operand stack above the
base of the running frame is a matter of the function and the offset alone (`Disciplined.height`), and
a return finds below the frame what the call left there (`Disciplined.return_restores`): no step changes
what lies below a frame as long as the frame is there (`Disciplined.below_eq`).
-/

namespace Scripting

open Code Machine Relation Array List

variable {env : Env} {shape : Ref → Nat → Option Shape} {m m' m1 m2 m3 : Machine}

namespace Machine

/-- One step of a run that goes on after it. -/
def Next (env : Env) (m m' : Machine) : Prop := step env m = .ok false m'

/-- The bases of all frames, outermost first. -/
def bases (m : Machine) : Array Nat := (m.callers.push m.frame).map (·.stackBase)

/-- What lies on the stack below the frame at a depth; the outermost frame has depth 0. -/
def below (m : Machine) (depth : Nat) : List Value := m.stack.toList.take (m.bases.getD depth 0)

/-- The steps of a run while there are more than `depth` callers. -/
def Inside (env : Env) (depth : Nat) : Machine → Machine → Prop :=
  ReflTransGen fun m m' => Next env m m' ∧ depth < m'.callers.size

end Machine

/-- **A run of a program that is linked with itself**, between two steps. -/
def Disciplined (env : Env) (shape : Ref → Nat → Option Shape) (m : Machine) : Prop :=
  ∃ W0 W c σ, Linked W0 id env env shape ∧ W0.Le W ∧ Twins W (W0.mirror shape) m m ∧ Running W shape c σ m

/-- The height of the operand stack at an offset of a function. -/
def heightAt (shape : Ref → Nat → Option Shape) (routine : Ref) (offset : Nat) : Nat :=
  ((shape routine offset).getD .empty).slots.length

namespace Chain

variable {routines : Array Routine} {fs : List Frame} {low : List Value} {locals : Nat}

theorem base_le (h : Chain routines shape fs low locals) : ∀ f ∈ fs, f.stackBase ≤ low.length := by
  induction h with
  | nil => intro f hf; cases hf
  | cons _ _ base _ _ ih =>
    intro f hf
    rw [length_append]
    rcases mem_cons.mp hf with rfl | hf
    · omega
    · have := ih f hf
      omega

end Chain

namespace Running

variable {W : World} {c : Site} {σ : Shape}

theorem bases_eq (h : Running W shape c σ m) : m.bases = (c.callers.map (·.stackBase)).push c.frame.stackBase := by
  rw [bases, h.place.callers, h.place.frame, map_push]

theorem base_le (h : Running W shape c σ m) (depth : Nat) : m.bases.getD depth 0 ≤ c.low.length := by
  have hall : ∀ b ∈ m.bases, b ≤ c.low.length := by
    intro b hb
    rw [h.bases_eq, mem_push] at hb
    rcases hb with hb | rfl
    · obtain ⟨f, hf, rfl⟩ := mem_map.mp hb
      exact h.sound.callers.base_le f (by simpa using hf)
    · exact Nat.le_of_eq h.sound.base
  rw [getD_eq_getD_getElem?]
  cases hb : m.bases[depth]? with
  | none => exact Nat.zero_le _
  | some b => exact hall b (mem_of_getElem? hb)

theorem below_eq (h : Running W shape c σ m) (hs : m'.stack.toList = c.low ++ top)
    (hb : m'.bases.getD depth 0 = m.bases.getD depth 0) : m'.below depth = m.below depth := by
  obtain ⟨vs, hst, -⟩ := h.place.stack
  have hle := h.base_le depth
  rw [below, below, hb, hs, hst, take_append_of_le_length hle, take_append_of_le_length hle]

theorem below_self (h : Running W shape c σ m) : m.below m.callers.size = c.low := by
  obtain ⟨vs, hst, -⟩ := h.place.stack
  have hbase : m.bases.getD m.callers.size 0 = c.low.length := by
    rw [h.bases_eq, h.place.callers, getD_push, size_map, if_pos rfl, h.sound.base]
  rw [below, hbase, hst, take_left]

end Running

namespace Move

variable {W W' : World} {c c' : Site} {σ σ' : Shape}

/-- **A step changes nothing below a frame that is there before and after it.** -/
theorem below_eq (hmove : Move m m' c c') (h : Running W shape c σ m) (h' : Running W' shape c' σ' m')
    (hd : depth ≤ m.callers.size) (hd' : depth ≤ m'.callers.size) : m'.below depth = m.below depth := by
  obtain ⟨vs, hst, -⟩ := h'.place.stack
  rw [h.place.callers] at hd
  rw [h'.place.callers] at hd'
  cases hmove with
  | stay callers base low =>
    refine h.below_eq (low ▸ hst) ?_
    rw [h.bases_eq, h'.bases_eq, callers, base]
  | @enter f vs' _ _ callers base low stack count length =>
    rw [low, List.append_assoc] at hst
    refine h.below_eq hst ?_
    rw [h.bases_eq, h'.bases_eq, callers, map_push, base, getD_push _ c'.frame.stackBase,
      if_neg (by rw [size_push, size_map]; omega)]
  | leave callers low stack =>
    refine h.below_eq stack ?_
    rw [h.bases_eq, h'.bases_eq, callers, map_push, getD_push _ c.frame.stackBase,
      if_neg (by rw [size_push, size_map]; omega)]

end Move

namespace Disciplined

variable (h : Disciplined env shape m)

include h

theorem step_cases (hn : Next env m m') : Disciplined env shape m' ∧
    ∃ (W : World) (c c' : Site) (σ σ' : Shape), Running W shape c σ m ∧ Running W shape c' σ' m' ∧ Move m m' c c' := by
  obtain ⟨W0, W, c, σ, hL, hle, ht, hrun⟩ := h
  have hshape : shape m.frame.routine m.frame.next ≠ none := by
    rw [hrun.place.frame, hrun.shaped]
    nofun
  have hsafe := step_safely hL hle ht hrun
  have htwins := step_twins hL hle ht hshape
  rw [hn] at hsafe htwins
  cases hsafe with
  | ok hs =>
    cases hs with
    | @moved c' σ' _ hmove hrun' =>
      cases htwins with
      | ok _ htwins =>
        obtain ⟨W', hle', ht'⟩ := htwins
        exact ⟨⟨W0, W', c', σ', hL, hle.trans hle', ht', hrun'.mono hle'⟩, W, c, c', σ, σ', hrun, hrun', hmove⟩

theorem next (hn : Next env m m') : Disciplined env shape m' := (h.step_cases hn).1

theorem reach (hr : ReflTransGen (Next env) m m') : Disciplined env shape m' := by
  induction hr with
  | refl => exact h
  | tail _ hn ih => exact ih.next hn

/-- **The height of the operand stack is known from the function and the offset.** -/
theorem height : m.stack.size = m.frame.stackBase + heightAt shape m.frame.routine m.frame.next := by
  obtain ⟨-, W, c, σ, -, -, -, hrun⟩ := h
  obtain ⟨vs, hst, hk⟩ := hrun.place.stack
  have hlen := congrArg length hst
  simp only [length_append, length_reverse, ← hk.length_eq] at hlen
  simp only [heightAt, hrun.place.frame, hrun.shaped, hrun.sound.base]
  exact hlen

/-- The operand stack is empty where the run ends. -/
theorem height_suspend (hf : m.fetch = .instruction .suspend code offset) :
    heightAt shape m.frame.routine m.frame.next = 0 := by
  obtain ⟨W0, W, c, σ, hL, hle, ht, hrun⟩ := h
  obtain ⟨free, s, hb, -⟩ := hrun.sound.known c.frame (mem_push.mpr (.inr rfl))
  rw [hle.body_eq, ← hrun.place.frame] at hb
  have hshaped := hrun.shaped
  rw [← hrun.place.frame] at hshaped
  have hleft : m.heap.routineAt m.frame.routine = W0.left.getD m.frame.routine {} := by
    rw [← hle.left_eq, ← ht.heap.left]
    rfl
  rw [heightAt, hshaped]
  cases hL.placed hb hshaped with
  | done hend =>
    rw [fetch_of_end (hleft ▸ hend)] at hf
    cases hf
  | @code i _ hi _ hgo =>
    rw [← hleft] at hi
    rw [fetch_of_stands hi] at hf
    injection hf with hop
    cases hgo with
    | effect he => exact absurd hop he.inv.1.2
    | suspend => rfl
    | @decide kind => cases kind <;> cases hop
    | _ => cases hop

theorem below_inside (hd : depth < m.callers.size) (hin : Inside env depth m m') :
    depth < m'.callers.size ∧ Disciplined env shape m' ∧ m'.below (depth + 1) = m.below (depth + 1) := by
  induction hin with
  | refl => exact ⟨hd, h, rfl⟩
  | @tail b c _ hn ih =>
    obtain ⟨hb, hdb, hbelow⟩ := ih
    obtain ⟨-, W, s, s', σ, σ', hrun, hrun', hmove⟩ := hdb.step_cases hn.1
    exact ⟨hn.2, hdb.next hn.1, (hmove.below_eq hrun hrun' hb hn.2).trans hbelow⟩

/-- **A return leaves the stack of the caller as it was before callee and arguments were pushed, plus one
result.** -/
theorem return_restores (hcall : Next env m m1)
    (hdeeper : m.callers.size < m1.callers.size) (hin : Inside env m.callers.size m1 m2)
    (hret : Next env m2 m3) (hback : m3.callers.size = m.callers.size) :
    ∃ args v, m.argumentCount? = some args ∧ args < m.stack.size ∧
      m3.stack = (m.stack.shrink (m.stack.size - (args + 1))).push v := by
  obtain ⟨hdeep, hd2, hbelow⟩ := (h.next hcall).below_inside hdeeper hin
  obtain ⟨-, W, c, c1, σ, σ1, hrun, hrun1, hmove⟩ := h.step_cases hcall
  obtain ⟨-, V, d, d1, τ, τ1, hrun2, hrun3, hleave⟩ := hd2.step_cases hret
  -- the first step opened a frame
  cases hmove with
  | stay callers =>
    rw [hrun.place.callers, hrun1.place.callers, callers] at hdeeper
    exact absurd hdeeper (Nat.lt_irrefl _)
  | leave callers =>
    rw [hrun.place.callers, hrun1.place.callers, callers, size_push] at hdeeper
    omega
  | @enter f vs top args callers base low stack count length =>
    -- the last one closed it
    cases hleave with
    | stay callers2 =>
      rw [hrun2.place.callers] at hdeep
      rw [hrun3.place.callers, callers2] at hback
      omega
    | enter callers2 =>
      rw [hrun2.place.callers] at hdeep
      rw [hrun3.place.callers, callers2, size_push] at hback
      omega
    | @leave ws v callers2 low2 stack2 =>
      have hsize1 : m1.callers.size = m.callers.size + 1 := by
        rw [hrun.place.callers, hrun1.place.callers, callers, size_push]
      have hsize2 : m2.callers.size = m.callers.size + 1 := by
        rw [← hback, hrun2.place.callers, hrun3.place.callers, callers2, size_push]
      have hlow : d.low = c1.low := by
        rw [← hrun2.below_self, ← hrun1.below_self, hsize1, hsize2, hbelow]
      have hsize : m.stack.size = c1.low.length + (args + 1) := by
        have := congrArg List.length stack
        simpa [length] using this
      refine ⟨args, v, count, by omega, ?_⟩
      apply toList_inj.mp
      rw [stack2, hlow, toList_push, toList_shrink, stack, hsize, Nat.add_sub_cancel, take_left]

theorem depth_le (hn : Next env m m') :
    m'.callers.size ≤ m.callers.size + 1 ∧ m.callers.size ≤ m'.callers.size + 1 := by
  obtain ⟨-, W, c, c', σ, σ', hrun, hrun', hmove⟩ := h.step_cases hn
  rw [hrun.place.callers, hrun'.place.callers]
  cases hmove with
  | stay callers => rw [callers]; omega
  | enter callers => rw [callers, size_push]; omega
  | leave callers => rw [callers, size_push]; omega

/-- Every frame above a depth was opened by a call, and has been there ever since. -/
theorem exists_call (hd : m.callers.size ≤ depth)
    (hr : ReflTransGen (Next env) m m2) (hd2 : depth < m2.callers.size) :
    ∃ m0 m1, ReflTransGen (Next env) m m0 ∧ m0.callers.size = depth ∧ Next env m0 m1 ∧
      depth < m1.callers.size ∧ Inside env depth m1 m2 := by
  induction hr with
  | refl => omega
  | @tail b c hb hn ih =>
    by_cases hdb : depth < b.callers.size
    · obtain ⟨m0, m1, hr0, hsize, hcall, hd1, hin⟩ := ih hdb
      exact ⟨m0, m1, hr0, hsize, hcall, hd1, hin.tail ⟨hn, hd2⟩⟩
    · have := ((h.reach hb).depth_le hn).1
      exact ⟨b, c, hb, by omega, hn, hd2, .refl⟩

end Disciplined

/-- **The stack discipline of all runs from a state.** -/
structure StackSafe (env : Env) (start : Machine) : Prop where
  /-- The height of the operand stack above the base of the running frame depends on the function and the
  offset of the next instruction, and it is zero where the program suspends. -/
  height : ∃ height : Ref → Nat → Nat, ∀ m, ReflTransGen (Next env) start m →
    m.stack.size = m.frame.stackBase + height m.frame.routine m.frame.next ∧
      ∀ code offset, m.fetch = .instruction .suspend code offset → height m.frame.routine m.frame.next = 0
  /-- A return goes back to a call, and leaves the stack as it was before callee and arguments were pushed,
  plus one result. -/
  returns : ∀ m m', ReflTransGen (Next env) start m → Next env m m' → m'.callers.size < m.callers.size →
    ∃ caller callee args v, ReflTransGen (Next env) start caller ∧ Next env caller callee ∧
      Inside env m'.callers.size callee m ∧ caller.callers.size = m'.callers.size ∧
      caller.argumentCount? = some args ∧ args < caller.stack.size ∧
      m'.stack = (caller.stack.shrink (caller.stack.size - (args + 1))).push v

theorem Disciplined.stackSafe (h : Disciplined env shape m) (hm : m.callers = #[]) : StackSafe env m where
  height := ⟨heightAt shape, fun m' hr => ⟨(h.reach hr).height, fun _ _ hf => (h.reach hr).height_suspend hf⟩⟩
  returns := by
    intro m2 m3 hr hret hlt
    obtain ⟨m0, m1, hr0, hsize, hcall, hd1, hin⟩ := h.exists_call (hm ▸ Nat.zero_le _) hr hlt
    obtain ⟨args, v, hcount, hargs, hstack⟩ := (h.reach hr0).return_restores hcall (by omega)
      (by rw [hsize]; exact hin) hret hsize.symm
    exact ⟨m0, m1, args, v, hr0, hcall, hin, hsize, hcount, hargs, hstack⟩

end Scripting
