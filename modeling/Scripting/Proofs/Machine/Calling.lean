import Scripting.Proofs.Machine.Safe
/-!
# `Proofs.Machine.Calling` — calls and returns

A call of a native function leaves its result in place of callee and arguments. A call of a compiled
function opens a frame above what lies below the callee (`Entered`), and a return ends the frame and
leaves the result there (`finish_safely`). During a call, the callee counts as part of the stack below the
frame (`Site.over`): whatever becomes of the arguments, it stays where it is.
-/

namespace Scripting

open Machine List

variable {H : Heap → Prop} {h0 : Heap} {c : Site} {ks xs : List Kind} {v : Value}

/-! ## Arguments -/

/-- The site with a callee on top of what lies below the operands. -/
def Site.over (c : Site) (callee : Value) : Site := { c with low := c.low ++ [callee] }

theorem At.under (h : At H (c.over v) ⟨xs, p⟩ m) : At H c ⟨xs ++ [.any], p⟩ m := by
  obtain ⟨us, hs, hxu⟩ := h.stack
  refine { h with captures := h.captures, stack := ⟨us ++ [v], ?_, ?_⟩ }
  · rw [hs, reverse_append, Site.over, append_assoc]
    rfl
  · exact rel_append hxu (.cons (Kind.any_has v) .nil)

/-- `a` arguments on top of the stack, whatever their kinds. -/
def Arguments (H : Heap → Prop) (c : Site) (a : Nat) (m : Machine) : Prop :=
  ∃ xs : List Kind, xs.length = a ∧ At H c ⟨xs, 0⟩ m

theorem pushAll_safely (items : Array Value) :
    Safely (At H c ⟨ks, 0⟩) (modify fun m => { m with stack := m.stack ++ items } : Exec Unit)
      fun _ => At H c ⟨replicate items.size .any ++ ks, 0⟩ := by
  intro m h
  obtain ⟨vs, hs, hks⟩ := h.stack
  refine .ok { h with stack := ⟨items.toList.reverse ++ vs, by simp [hs], rel_append ?_ hks⟩ }
  have hall : ∀ us : List Value, Forall₂ Kind.Has (replicate us.length .any) us := by
    intro us
    induction us with
    | nil => exact .nil
    | cons u us ih => exact .cons (Kind.any_has u) ih
  simpa using hall items.toList.reverse

theorem spreadLast_safely (hne : xs ≠ []) :
    Safely (At H c ⟨xs, 0⟩) (spreadLast xs.length) (Arguments H c) := by
  cases xs with
  | nil => exact absurd rfl hne
  | cons x xs =>
    refine pop_bind fun v => readHeap_bind fun o => ?_
    cases o with
    | none => exact refuse_safely fun _ => rfl
    | some items =>
      refine (pushAll_safely items).bind fun _ => .pure fun m h => ⟨_, ?_, h⟩
      simp only [length_append, length_replicate, length_cons]
      omega

theorem collectRest_safely : Safely (At H c ⟨xs, 0⟩) (collectRest xs.length fixed)
    fun _ => At AnyHeap c ⟨.any :: xs.drop (xs.length - fixed), 0⟩ := by
  have hsplit : xs = xs.take (xs.length - fixed) ++ xs.drop (xs.length - fixed) := by
    rw [take_append_drop]
  intro m h
  rw [hsplit] at h
  exact ((popMany_safely (by simp)).bind fun _ => .assume fun _ => pushMade_safely _) h

theorem bindArguments_safely :
    Safely (At H c ⟨xs, 0⟩) (bindArguments f xs.length) (Arguments AnyHeap c) := by
  unfold bindArguments
  split
  · by_cases hlt : xs.length < f.params - 1
    · simp only [hlt]
      exact .throw rfl
    · simp only [hlt]
      refine collectRest_safely.bind fun _ => .pure fun m h => ⟨_, ?_, h⟩
      simp only [length_cons, length_drop]
      omega
  · by_cases heq : xs.length = f.params
    · simp only [heq]
      exact .pure fun m h => ⟨xs, heq, h.anyHeap⟩
    · simp only [heq]
      exact .throw rfl

/-! ## Compiled functions -/

/-- The compiled function that a call of a value runs, perhaps through a closure. -/
inductive Runs (h : Heap) : Value → Ref → Option Ref → Prop
  | function (r : Ref) : Runs h (.function r) r none
  | closure (r : Ref) : Runs h (.closure r) (h.closureAt r).routine (some r)

/-- **A frame has been opened** for a value that was called at the site `c`, on top of what lies below
the callee. -/
def Entered (h0 : Heap) (v : Value) (c : Site) (m : Machine) : Prop :=
  ∃ (frame : Frame) (locals : Nat), Runs h0 v frame.routine frame.closure? ∧ frame.next = 0 ∧
    frame.localsBase = c.locals ∧ frame.stackBase = c.low.length ∧
    c.locals + (h0.routineAt frame.routine).locals ≤ locals ∧
    At AnyHeap ⟨frame, c.callers.push c.frame, locals, c.low⟩ .empty m

theorem openFrame_safely (hrun : Runs h0 v r closure?) {locals : Nat} (hl : locals = (h0.routineAt r).locals) :
    Safely (Arguments H (c.over v) a) (openFrame r closure? locals a) fun _ => Entered h0 v c := by
  rintro m ⟨xs, hxs, h⟩
  obtain ⟨us, hs, hxu⟩ := h.stack
  have hul : us.length = a := by rw [← hxu.length_eq, hxs]
  have hsize : m.stack.size = c.low.length + 1 + a := by
    have hlen := congrArg length hs
    simpa only [Site.over, length_append, length_cons, length_nil, length_reverse, hul,
      Array.length_toList] using hlen
  have hbase : m.stack.size - a - 1 = c.low.length := by omega
  refine .ok ⟨⟨r, closure?, 0, 0, m.locals.size, c.low.length⟩, c.locals + a + (locals - a), hrun, rfl, h.locals,
    rfl, by dsimp only; omega, ?_⟩
  simp only [hbase]
  refine { h with
    heap := trivial, frame := rfl, callers := ?_, locals := ?_, captures := h.captures, stack := ⟨[], ?_, .nil⟩ }
  · simp only [h.callers, h.frame, Site.over]
  · have hlocals : m.locals.size = c.locals := h.locals
    simp only [Array.size_append, Array.size_map, Array.size_extract, Array.size_replicate]
    omega
  · simp [hs, Site.over]

theorem openFrame_checked (limits : Limits.Run) (f : Ref) (closure? : Option Ref) (locals args : Nat)
    (q : Machine) :
    (do if limits.callDepth ≤ (← get).callers.size + 1 then throw (.callDepth limits.callDepth)
        openFrame f closure? locals args : Exec Unit) q =
      if limits.callDepth ≤ q.callers.size + 1 then .error (.callDepth limits.callDepth) q
      else openFrame f closure? locals args q := by
  rw [get_bind]
  by_cases hlt : limits.callDepth ≤ q.callers.size + 1
  · rw [if_pos hlt, if_pos hlt]
    rfl
  · rw [if_neg hlt, if_neg hlt]

theorem callRoutine_safely (hrun : Runs h0 v r closure?) :
    Safely (At (· = h0) (c.over v) ⟨xs, 0⟩) (callRoutine limits r closure? xs.length)
      fun _ => Entered h0 v c := by
  refine (readHeap_safely _).bind fun f => .assume fun hf => ?_
  obtain ⟨_, rfl, rfl⟩ := hf
  refine bindArguments_safely.bind fun a m h => ?_
  rw [openFrame_checked]
  split
  · exact .error rfl
  · exact openFrame_safely hrun rfl h

/-! ## Calls -/

theorem callNative_safely :
    Safely (At H (c.over v) ⟨xs, 0⟩) (callNative f xs.length) fun _ => At AnyHeap c ⟨[.any], 0⟩ := by
  have hcallee : Safely (At H (c.over v) ⟨[], 0⟩) (discard pop) fun _ => At H c ⟨[], 0⟩ :=
    (pop_safely.discard fun _ _ h => h.2).weaken (fun _ h => h.under) fun _ _ h => h
  intro m h
  rw [← append_nil xs] at h
  exact ((popMany_safely rfl).bind fun us => .assume fun _ => hcallee.bind fun _ => (act_safely _).bind fun _ =>
    pushNew_any) h

theorem calleeBelow_safely : Safely (At H (c.over v) ⟨xs, 0⟩) (calleeBelow xs.length) fun w m =>
    w = v ∧ At H (c.over v) ⟨xs, 0⟩ m := by
  intro m h
  obtain ⟨us, hs, hxu⟩ := h.stack
  have hm : m.stack = (c.low ++ v :: us.reverse).toArray := by
    apply Array.toList_inj.mp
    simpa [Site.over] using hs
  have hlow : m.stack.size - xs.length - 1 = c.low.length := by
    rw [hm, hxu.length_eq]
    simp only [size_toArray, length_append, length_cons, length_reverse]
    omega
  have hget : m.stack[c.low.length]? = some v := by simp [hm]
  simp only [calleeBelow, hlow, hget]
  exact .ok ⟨rfl, h⟩

/-- After a call: the result is there, or a frame has been opened. -/
def Called (h0 : Heap) (v : Value) (c : Site) (m : Machine) : Prop :=
  At AnyHeap c ⟨[.any], 0⟩ m ∨ Entered h0 v c m

/-- The arguments spread out, and their number. -/
def spreadOut (args : Nat) (spread : Bool) : Exec Nat :=
  if spread && args != 0 then spreadLast args else pure args

/-- Call the function below arguments that have been spread out. -/
def callBelow (env : Env) (args : Nat) : Exec Unit := do
  match ← calleeBelow args with
  | .function routine => callRoutine env.limits routine none args
  | .closure c =>
    let closure ← readHeap (·.closureAt c)
    callRoutine env.limits closure.routine (some c) args
  | .builtin b => callNative b.call args
  | .host r =>
    let name ← readHeap (·.hostAt r)
    callNative (env.host name) args
  | v => refuse .notCallable v

theorem call_eq (env : Env) (args : Nat) (spread : Bool) (m : Machine) (h : ¬m.stack.size < args + 1) :
    call env args spread m = (spreadOut args spread >>= callBelow env) m := by
  unfold call spreadOut
  rw [get_bind, if_neg h]
  split <;> rfl

theorem call_underflow (env : Env) (args : Nat) (spread : Bool) (m : Machine) (h : m.stack.size < args + 1) :
    call env args spread m = .error .stackUnderflow m := by
  unfold call
  rw [get_bind, if_pos h]
  rfl

theorem callBelow_safely :
    Safely (Arguments (· = h0) (c.over v) a) (callBelow env a) fun _ => Called h0 v c := by
  rintro m ⟨xs, rfl, h⟩
  refine (calleeBelow_safely.bind fun w => .assume fun hw => ?_) h
  subst hw
  have hnative {H : Heap → Prop} (f : List Value → Action Value) :
      Safely (At H (c.over w) ⟨xs, 0⟩) (callNative f xs.length) fun _ => Called h0 w c :=
    callNative_safely.weaken (fun _ h => h) fun _ _ h => .inl h
  have hroutine {r : Ref} {closure? : Option Ref} (hrun : Runs h0 w r closure?) :
      Safely (At (· = h0) (c.over w) ⟨xs, 0⟩) (callRoutine env.limits r closure? xs.length)
        fun _ => Called h0 w c :=
    (callRoutine_safely hrun).weaken (fun _ h => h) fun _ _ h => .inr h
  cases w with
  | function r => exact hroutine (.function r)
  | closure r =>
    refine (readHeap_safely _).bind fun f => .assume fun hf => ?_
    obtain ⟨_, rfl, rfl⟩ := hf
    exact hroutine (.closure r)
  | builtin b => exact hnative _
  | host r => exact readHeap_bind fun _ => hnative _
  | _ => exact refuse_safely fun _ => rfl

theorem call_safely (env : Env) (spread : Bool) :
    Safely (At (· = h0) (c.over v) ⟨xs, 0⟩) (call env xs.length spread) fun _ => Called h0 v c := by
  intro m h
  have hspread : Safely (At (· = h0) (c.over v) ⟨xs, 0⟩) (spreadOut xs.length spread)
      (Arguments (· = h0) (c.over v)) := by
    unfold spreadOut
    split
    · rename_i hs
      refine spreadLast_safely ?_
      rintro rfl
      simp at hs
    · exact .pure fun m h => ⟨xs, rfl, h⟩
  have hlt : ¬m.stack.size < xs.length + 1 := by
    obtain ⟨us, hs, hxu⟩ := h.stack
    have hlen := congrArg length hs
    simp only [Site.over, length_append, length_cons, Array.length_toList, length_reverse,
      ← hxu.length_eq] at hlen
    omega
  rw [call_eq env _ _ m hlt]
  exact (hspread.bind fun a => callBelow_safely) h

/-! ## Returns -/

theorem finish_last (hc : c.callers = #[]) : Safely (At H c ⟨ks, 0⟩) (finish v) fun b _ => b = true := by
  intro m h
  simp only [finish, h.callers, hc]
  exact .ok rfl

/-- **A return leaves the stack of the caller as it was below the callee, plus the result.** -/
theorem finish_safely {callers : Array Frame} (hc : c.callers = callers.push caller)
    (hlow : c.low = low ++ vs.reverse) (hk : Forall₂ Kind.Has ls vs)
    (hs : c.frame.stackBase = c.low.length) (hl : c.frame.localsBase ≤ c.locals) :
    Safely (At H c ⟨ks, 0⟩) (finish v) fun b m => b = false ∧ m.stack.toList = c.low ++ [v] ∧
      At AnyHeap ⟨caller, callers, c.frame.localsBase, low⟩ ⟨.any :: ls, 0⟩ m := by
  intro m h
  obtain ⟨us, hst, -⟩ := h.stack
  simp only [finish, h.callers, hc, Array.back?_push, Array.pop_push]
  have hstack : ((m.stack.shrink m.frame.stackBase).push v).toList = c.low ++ [v] := by
    simp only [Array.toList_push, Array.toList_shrink, h.frame, hs, hst, take_left]
  refine .ok ⟨rfl, hstack, {
    heap := trivial, frame := rfl, callers := rfl, locals := ?_, captures := h.captures
    stack := ⟨v :: vs, ?_, .cons (Kind.any_has v) hk⟩ }⟩
  · simp only [Array.size_shrink, h.locals, h.frame]
    omega
  · rw [hstack, hlow]
    simp

end Scripting
