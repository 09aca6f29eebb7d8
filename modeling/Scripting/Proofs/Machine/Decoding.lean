import Scripting.Machine.Step
import Scripting.Proofs.Code.Renumber
/-!
# `Proofs.Machine.Decoding` — instructions as the machine reads them

The machine reads operands in place, at offsets that are fixed for each opcode. `carryOut` says what an instruction
does in terms of the operands that it has, wherever it stands. The machine does just that (`execute_eq_obey`), so
assembling, decoding, running and patching agree on what the code of a function is (`assembled_code_agrees`).
-/

namespace Scripting

open Code Instruction

namespace Machine

/-- **What an instruction does with its operands**, other than those that end a function. -/
def carryOut (env : Env) (i : Instruction) : Exec Unit :=
  match i.op, i.operands with
  | .constant, [k] => do push (← constant env k)
  | .pop, [] => discard pop
  | .true, [] => push (.bool true)
  | .false, [] => push (.bool false)
  | .null, [] => push .undefined
  | .equal, [] => compareEqual true
  | .notEqual, [] => compareEqual false
  | .binaryOp, [code] => applyBinary code
  | .minus, [] => negate
  | .complement, [] => complement
  | .not, [] => logicalNot
  | .jump, [target] => jump target
  | .jumpFalsy, [target] => jumpFalsy target
  | .andJump, [target] => jumpDecided false target
  | .orJump, [target] => jumpDecided true target
  | .array, [n] => makeArray n
  | .map, [n] => makeMap n
  | .error, [] => makeError
  | .immutable, [] => freeze
  | .index, [] => index
  | .slice, [] => slice
  | .call, [args, spread] => call env args (spread == 1)
  | .getGlobal, [i] => do push (← getGlobal i)
  | .setGlobal, [i] => do setGlobal i (← pop)
  | .setSelGlobal, [i, selectors] => assignSelected (getGlobal i) selectors
  | .getLocal, [i] => do push (← getLocal i)
  | .setLocal, [i] => do setLocal i (← pop)
  | .defineLocal, [i] => do defineLocal i (← pop)
  | .setSelLocal, [i, selectors] => assignSelected (getLocal i) selectors
  | .getLocalPtr, [i] => do capture (← shareLocal i)
  | .getFree, [i] => do push (← getFree i)
  | .setFree, [i] => do setFree i (← pop)
  | .setSelFree, [i, selectors] => assignSelected (getFree i) selectors
  | .getFreePtr, [i] => do capture (← freeCell i)
  | .getBuiltin, [i] => pushBuiltin i
  | .closure, [k, captures] => makeClosure env k captures
  | .currentFunc, [] => do push (← currentFunction)
  | .currentFuncPtr, [] => do
    let callee ← currentFunction
    capture (← make (·.newCell callee))
  | .iterInit, [] => startIteration
  | .iterNext, [] => iterationNext
  | .iterKey, [] => iterationPart Value.iterKey
  | .iterValue, [] => iterationPart Value.iterValue
  | _, _ => pure ()

/-- **What an instruction does**; answers whether it ends the run. -/
def obey (env : Env) : Instruction → Exec Bool
  | ⟨.suspend, _⟩ => return true
  | ⟨.ret, [n]⟩ => do
    let v ← if n == 1 then pop else pure .undefined
    finish v
  | i => do
    carryOut env i
    return false

/-- **The machine finds the operands** where they stand. -/
theorem execute_eq_obey {code : Bytes} (hi : Stands code.toList o i) : execute env i.op code o = obey env i := by
  obtain ⟨op, operands⟩ := i
  have hread : readOperands code op.widths (o + 1) = operands := hi.operands
  subst hread
  cases op <;> rfl

end Machine

open Machine

/-! ## Steps -/

variable {m : Machine} {i : Instruction} {env : Env} {code : Bytes}

theorem fetch_of_stands (h : Stands (m.heap.routineAt m.frame.routine).code.toList m.frame.next i) :
    m.fetch = .instruction i.op (m.heap.routineAt m.frame.routine).code m.frame.next := by
  have hlt := h.lt_size
  have hend := Nat.not_lt.mpr h.in_bounds
  simp only [fetch, hlt, dif_pos, h.opcode hlt, hend, if_false]

theorem fetch_of_end (h : (m.heap.routineAt m.frame.routine).code.size = m.frame.next) : m.fetch = .nothing := by
  simp [fetch, h]

/-- The machine when it has fetched an instruction of this length. -/
def Machine.past (m : Machine) (length : Nat) : Machine :=
  { m with frame := { m.frame with current := m.frame.next, next := m.frame.next + length } }

/-- What a step does once it has been counted. -/
def dispatch (env : Env) : Exec Bool := fun m =>
  match m.fetch with
  | .nothing => finish .undefined m
  | .broken fault => .error fault m
  | .instruction op code offset =>
    execute env op code offset { m with frame := { m.frame with current := offset, next := offset + op.length } }

theorem step_eq (env : Env) (m : Machine) : step env m = (do countStep env.limits; dispatch env) m := by
  show _ = EStateM.bind _ _ m
  unfold step EStateM.bind
  cases countStep env.limits m <;> rfl

def Machine.counted (m : Machine) : Machine := { m with steps := m.steps + 1 }

/-- The limit that is exceeded with this number of steps and this height of the stack. -/
def exceeded? (limits : Limits.Run) (steps height : Nat) : Option Fault :=
  match limits.steps.filter (· < steps) with
  | some max => some (.stepLimit max)
  | none => if limits.stackSize < height then some .stackOverflow else none

theorem countStep_eq (limits : Limits.Run) (m : Machine) : countStep limits m =
    match exceeded? limits (m.steps + 1) m.stack.size with
    | some fault => .error fault m.counted
    | none => .ok () m.counted := by
  unfold countStep exceeded?
  cases limits.steps with
  | none => dsimp only [Option.filter]; split <;> rfl
  | some max =>
    by_cases hmax : max < m.steps + 1
    · simp [Option.filter, hmax, counted]
    · simp only [Option.filter, hmax, if_false]
      split <;> rfl

/-- **Within the limits, a step obeys the instruction** that stands where the machine is. -/
theorem step_eq_obey (hwithin : exceeded? env.limits (m.steps + 1) m.stack.size = none)
    (hi : Stands (m.heap.routineAt m.frame.routine).code.toList m.frame.next i) :
    step env m = obey env i (m.counted.past i.op.length) := by
  have hfetch : m.counted.fetch = _ := fetch_of_stands hi
  rw [step_eq]
  show EStateM.bind _ _ m = _
  unfold EStateM.bind
  rw [countStep_eq, hwithin]
  simp only [dispatch, hfetch]
  exact congrFun (execute_eq_obey hi) (m.counted.past i.op.length)

/-! ## Listings -/

open Fragment

/-- **Where an instruction of a listing stands.** -/
theorem located_split {is : List Instruction} (hfits : ∀ i ∈ is, i.Fits)
    (hl : located o is = before ++ (p, i) :: after) : ∃ js ks, is = js ++ i :: ks ∧ before = located o js ∧
      p = o + (assembleAll js).length ∧ after = located (p + i.op.length) ks := by
  induction before generalizing o is with
  | nil =>
    cases is with
    | nil => cases hl
    | cons j is =>
      cases hl
      exact ⟨[], is, rfl, rfl, rfl, rfl⟩
  | cons b before ih =>
    cases is with
    | nil => cases hl
    | cons j is =>
      rw [located, List.cons_append, List.cons.injEq] at hl
      obtain ⟨rfl, hl⟩ := hl
      obtain ⟨js, ks, rfl, rfl, rfl, hafter⟩ := ih (fun i hi => hfits i (List.mem_cons_of_mem _ hi)) hl
      refine ⟨j :: js, ks, rfl, rfl, ?_, hafter⟩
      rw [assembleAll_cons, List.length_append, length_assemble (hfits j List.mem_cons_self).1,
        Nat.add_assoc]

/-- The instruction with another first operand. -/
def Instruction.withFirst (i : Instruction) (v : Nat) : Instruction := { i with operands := v :: i.operands.tail }

/-- Does the first operand have two bytes that are filled in after the instruction has been written? -/
def Opcode.isPatched (op : Opcode) : Bool := op.isJump || op == .constant || op == .closure

theorem widths_of_isPatched {op : Opcode} (hp : op.isPatched = true) : ∃ ws, op.widths = 2 :: ws := by
  cases op <;> first | exact ⟨_, rfl⟩ | cases hp

/-- **Patching replaces the first operand** and nothing else. -/
theorem patchU16_assembled {is js : List Instruction} (hi : i.Fits) (hp : i.op.isPatched = true) (v : Nat) :
    (patchU16 (assembleAll (is ++ i :: js)).toArray ((assembleAll is).length + 1) v).toList =
      assembleAll (is ++ i.withFirst v :: js) := by
  obtain ⟨op, operands⟩ := i
  obtain ⟨ws, hw⟩ := widths_of_isPatched hp
  obtain ⟨hlen, -⟩ := hi
  rw [hw] at hlen
  cases operands with
  | nil => cases hlen
  | cons k ks =>
    have hcode : (assembleAll (is ++ ⟨op, k :: ks⟩ :: js)).toArray.toList = assembleAll is ++
        op.byte :: UInt8.ofNat (k / 256) :: UInt8.ofNat k ::
          ((ws.zip ks).flatMap (fun p => operandBytes p.1 p.2) ++ assembleAll js) := by
      simp [assemble, hw, operandBytes]
    rw [patchU16_word hcode]
    simp [assemble, withFirst, hw, operandBytes]

theorem fits_withFirst (hi : i.Fits) (hp : i.op.isPatched = true) (hv : v ≤ 65535) : (i.withFirst v).Fits := by
  obtain ⟨op, operands⟩ := i
  obtain ⟨ws, hw⟩ := widths_of_isPatched hp
  obtain ⟨hlen, hfit⟩ := hi
  cases operands with
  | nil => rw [hw] at hlen; cases hlen
  | cons k ks =>
    refine ⟨hlen, fun p hmem => ?_⟩
    simp only [withFirst, hw, List.zip_cons_cons, List.mem_cons] at hmem hfit
    rcases hmem with rfl | hmem
    · exact hv
    · exact hfit p (.inr hmem)

/-- **Assembling, decoding, running and patching agree.** For instructions whose operands fit, decoding the code
gives them back, each with the number of bytes before it. A machine that comes to one of these offsets, and exceeds no
limit, does what the decoded instruction says with the decoded operands, and is then at the next of the offsets, or at
the end. And patching the first operand of a jump, of a constant or of a closure gives that instruction the new
operand, and leaves all other instructions and all offsets as they are. -/
theorem assembled_code_agrees {is : List Instruction} (hfits : ∀ i ∈ is, i.Fits)
    (hcode : code.toList = assembleAll is) :
    decode code = located 0 is ∧
    (∀ before o i after, decode code = before ++ (o, i) :: after → ∀ (env : Env) (m : Machine),
      (m.heap.routineAt m.frame.routine).code = code → m.frame.next = o →
      exceeded? env.limits (m.steps + 1) m.stack.size = none →
      step env m = obey env i (m.counted.past i.op.length) ∧
        (m.counted.past i.op.length).frame.next = (after.head?.map (·.1)).getD code.size) ∧
    ∀ o i, (o, i) ∈ decode code → i.op.isPatched = true → ∀ v ≤ 65535,
      decode (patchU16 code (o + 1) v) = (decode code).map fun a => if a.1 = o then (o, i.withFirst v) else a := by
  have hdecode : decode code = located 0 is := @decodeFrom_of code is [] 0 hcode rfl hfits
  have hsplit {before o i after} (hl : decode code = before ++ (o, i) :: after) := located_split hfits (hdecode ▸ hl)
  refine ⟨hdecode, fun before o i after hl env m hm ho hwithin => ?_, fun o i hmem hp v hv => ?_⟩
  · obtain ⟨js, ks, rfl, -, ho', rfl⟩ := hsplit hl
    have hlisted : Listed code.toList 0 (js ++ i :: ks) := ⟨⟨[], [], by simp [hcode], rfl⟩, hfits⟩
    have hstands := hlisted.right.head
    rw [← ho', ← ho] at hstands
    refine ⟨step_eq_obey hwithin (hm ▸ hstands), ?_⟩
    have hnext : (m.counted.past i.op.length).frame.next = o + i.op.length := by rw [← ho]; rfl
    rw [hnext]
    cases ks with
    | cons k ks => rfl
    | nil =>
      -- the last instruction ends where the code ends
      have hsize := congrArg List.length hcode
      have hlen := length_assemble (hfits i (by simp)).1
      simp only [Array.length_toList, assembleAll_append, assembleAll_cons, assembleAll_nil, List.length_append,
        List.append_nil, hlen] at hsize
      show _ = code.size
      omega
  · obtain ⟨before, after, hl⟩ := List.append_of_mem hmem
    obtain ⟨js, ks, rfl, rfl, ho, rfl⟩ := hsplit hl
    simp only [Nat.zero_add] at ho
    have hjs j (hj : j ∈ js) : j.Fits := hfits j (List.mem_append_left _ hj)
    have hi : i.Fits := hfits i (by simp)
    have hks j (hj : j ∈ ks) : j.Fits := hfits j (List.mem_append_right _ (List.mem_cons_of_mem _ hj))
    have hpatched := @patchU16_assembled i js ks hi hp v
    have hcode' : code = (assembleAll (js ++ i :: ks)).toArray := by rw [← hcode]
    rw [← hcode', ← ho] at hpatched
    have hfits' : ∀ j ∈ js ++ i.withFirst v :: ks, j.Fits := by
      intro j hj
      rcases List.mem_append.mp hj with hj | hj
      · exact hjs j hj
      · rcases List.mem_cons.mp hj with rfl | hj
        · exact fits_withFirst hi hp hv
        · exact hks j hj
    have hdecode' : decode (patchU16 code (o + 1) v) = located 0 (js ++ i.withFirst v :: ks) :=
      @decodeFrom_of _ _ [] 0 hpatched rfl hfits'
    -- no other instruction is at the same offset
    have hbefore : ∀ a ∈ located 0 js, (if a.1 = o then (o, i.withFirst v) else a) = a := by
      intro a ha
      have := offset_of_mem_located hjs ha
      exact if_neg (by omega)
    have hafter : ∀ a ∈ located (o + i.op.length) ks, (if a.1 = o then (o, i.withFirst v) else a) = a := by
      intro a ha
      have := offset_of_mem_located hks ha
      have := i.op.length_pos
      exact if_neg (by omega)
    rw [hdecode', located_append _ _ hjs, hl, List.map_append, List.map_cons, List.map_congr_left hbefore,
      List.map_congr_left hafter, List.map_id', List.map_id', if_pos rfl, Nat.zero_add, ← ho]
    rfl

/-- Instructions of all lengths. -/
def sampleCode : List Instruction :=
  [⟨.constant, [300]⟩, ⟨.closure, [513, 2]⟩, ⟨.setSelGlobal, [258, 3]⟩, ⟨.jumpFalsy, [0]⟩, ⟨.call, [2, 1]⟩, ⟨.pop, []⟩,
    ⟨.ret, [1]⟩]

/-- They are read back, and a jump among them can be given its target. -/
theorem sampleCode_agrees : (∀ i ∈ sampleCode, i.Fits) ∧
    decode (assembleAll sampleCode).toArray = [(0, ⟨.constant, [300]⟩), (3, ⟨.closure, [513, 2]⟩),
      (7, ⟨.setSelGlobal, [258, 3]⟩), (11, ⟨.jumpFalsy, [0]⟩), (14, ⟨.call, [2, 1]⟩), (17, ⟨.pop, []⟩),
      (18, ⟨.ret, [1]⟩)] ∧
    decode (patchU16 (assembleAll sampleCode).toArray 12 40000) = [(0, ⟨.constant, [300]⟩), (3, ⟨.closure, [513, 2]⟩),
      (7, ⟨.setSelGlobal, [258, 3]⟩), (11, ⟨.jumpFalsy, [40000]⟩), (14, ⟨.call, [2, 1]⟩), (17, ⟨.pop, []⟩),
      (18, ⟨.ret, [1]⟩)] := by
  have hfits : ∀ i ∈ sampleCode, i.Fits := by decide
  obtain ⟨hdecode, -, hpatch⟩ := @assembled_code_agrees (assembleAll sampleCode).toArray sampleCode hfits rfl
  have hpatched := hpatch 11 ⟨.jumpFalsy, [0]⟩ (by rw [hdecode]; decide) rfl 40000 (by decide)
  rw [hdecode] at hpatched
  exact ⟨hfits, hdecode, hpatched⟩

end Scripting
