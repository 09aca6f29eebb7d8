import Scripting.Proofs.Machine.Calling
import Scripting.Proofs.Machine.Decoding
import Scripting.Proofs.Machine.Mirror
/-!
# `Proofs.Machine.Reflection` — runs of code that corresponds

Code corresponds if the same instructions stand at places that correspond, with constants, jump targets and
functions that do (`Mirror.Sound`). Then two machines that correspond do so after each instruction
(`step_reflects`), and two whole runs end alike (`runFor_reflects`).

A step may open or close a frame, and it may make a closure; from then on the renaming knows that closure
(`Renaming.Growth`).
-/

namespace Scripting

open Code Machine InStep List Array

variable {ρ ρ' ρ'' : Renaming} {μ : Mirror} {r s : Ref} {v w : Value} {env env' : Env}

/-! ## Growing renamings -/

/-- `ρ'` is `ρ` with more pairs of closures, which both sides made at the same time. -/
def Renaming.Growth (ρ ρ' : Renaming) : Prop :=
  ∃ refs, ρ' = { ρ with refs } ∧ (∀ {t r s}, ρ.refs t r s → refs t r s) ∧ ∀ {t r s}, refs t r s →
      ρ.refs t r s ∨ (t = .closures ∧ r + ρ.right.closures.size = s + ρ.left.closures.size)

namespace Renaming.Growth

theorem refl (ρ : Renaming) : ρ.Growth ρ := ⟨ρ.refs, rfl, id, .inl⟩

theorem trans (h : ρ.Growth ρ') (h' : ρ'.Growth ρ'') : ρ.Growth ρ'' := by
  obtain ⟨refs, rfl, hr, hnew⟩ := h
  obtain ⟨refs', rfl, hr', hnew'⟩ := h'
  exact ⟨refs', rfl, fun h => hr' (hr h), fun h => (hnew' h).elim hnew .inr⟩

theorem le (h : ρ.Growth ρ') : ρ.Le ρ' := by
  obtain ⟨refs, rfl, hr, -⟩ := h
  exact ⟨hr, id, id, rfl⟩

theorem body (h : ρ.Growth ρ') : ρ'.body = ρ.body := by
  obtain ⟨refs, rfl, -⟩ := h
  rfl

theorem left (h : ρ.Growth ρ') : ρ'.left = ρ.left := by
  obtain ⟨refs, rfl, -⟩ := h
  rfl

theorem right (h : ρ.Growth ρ') : ρ'.right = ρ.right := by
  obtain ⟨refs, rfl, -⟩ := h
  rfl

theorem changeable (h : ρ.Growth ρ') : ρ'.changeable = ρ.changeable := by
  obtain ⟨refs, rfl, -⟩ := h
  rfl

end Renaming.Growth

theorem Renaming.growth_withClosure (h : r + ρ.right.closures.size = s + ρ.left.closures.size) :
    ρ.Growth (ρ.withClosure r s) := by
  refine ⟨_, rfl, .inl, fun hr => hr.imp id ?_⟩
  rintro ⟨rfl, rfl, rfl⟩
  exact ⟨rfl, h⟩

theorem Slot.Renamed.mono (hle : ρ.Le ρ') (h : Slot.Renamed ρ a b) : Slot.Renamed ρ' a b := by
  cases h with
  | plain hv => exact .plain (hle.value hv)
  | shared hr hf => exact .shared (hle.refs hr) (hle.changeable hf)

theorem Frame.Renamed.mono (hle : ρ.Le ρ') (h : Frame.Renamed ρ μ f g) : Frame.Renamed ρ' μ f g := by
  refine { h with closure := ?_, callee := hle.value h.callee }
  have hc := h.closure
  generalize f.closure? = o, g.closure? = o' at hc ⊢
  cases hc with
  | none => exact .none
  | some hr => exact .some (hle.refs hr)

theorem Mirrored.grow (hle : ρ.Le ρ') (h : Mirrored ρ μ r s m n) (hj : ρ'.Joins H K) :
    Mirrored ρ' μ r s { m with heap := H } { n with heap := K } where
  left := h.left
  right := h.right
  heap := hj
  globals := hle.values h.globals
  stack := hle.values h.stack
  locals := h.locals.imp fun _ _ => Slot.Renamed.mono hle
  captures := h.captures.imp fun _ _ => hle.refs
  captured c hc := hle.changeable (h.captured c hc)
  frame := h.frame.mono hle
  callers := h.callers.imp fun _ _ => Frame.Renamed.mono hle
  steps := h.steps
  allocations := h.allocations

/-! ## Computations that leave the frame -/

/-- Machines that correspond, in whatever frames and with whatever closures. -/
def Onward (ρ : Renaming) (μ : Mirror) (m n : Machine) : Prop := ∃ ρ' r s, ρ.Growth ρ' ∧ Mirrored ρ' μ r s m n

/-- Both end with results in `R` or with the same fault, and with machines in `J`. -/
inductive Reflects (J : Machine → Machine → Prop) {α β : Type} (R : α → β → Prop) :
    EStateM.Result Fault Machine α → EStateM.Result Fault Machine β → Prop
  | ok {a b} {m n : Machine} (result : R a b) (machines : J m n) : Reflects J R (.ok a m) (.ok b n)
  | error {e} {m n : Machine} (machines : J m n) : Reflects J R (.error e m) (.error e n)

theorem Mirrored.onward (h : Mirrored ρ μ r s m n) : Onward ρ μ m n := ⟨ρ, r, s, .refl ρ, h⟩

/-- **What an instruction leads to**: machines that correspond, or what a call of the host makes of such. -/
structure Admits (ρ : Renaming) (μ : Mirror) (env : Env) (J : Machine → Machine → Prop) : Prop where
  onward : ∀ {m n}, Onward ρ μ m n → J m n
  host : ∀ {r s m n} (name : String) (args : Nat), Mirrored ρ μ r s m n →
    Reflects J Eq (callNative (env.host name) args m) (callNative (env.host name) args n)

theorem Admits.mirrored (ha : Admits ρ μ env J) (h : Mirrored ρ μ r s m n) : J m n := ha.onward h.onward

section

variable {α β α' β' : Type} {R : α → β → Prop} {S : α' → β' → Prop}

theorem EndsInStep.reflects_grow (hJ : ∀ {m n}, Onward ρ μ m n → J m n) (hg : ρ.Growth ρ')
    (h : EndsInStep ρ' μ r s R p q) : Reflects J R p q := by
  cases h with
  | ok hr hm => exact .ok hr (hJ ⟨ρ', r, s, hg, hm⟩)
  | error hm => exact .error (hJ ⟨ρ', r, s, hg, hm⟩)

theorem EndsInStep.reflects (h : EndsInStep ρ μ r s R p q) : Reflects (Onward ρ μ) R p q :=
  h.reflects_grow id (.refl ρ)

theorem Reflects.imp (hR : ∀ a b, R a b → R' a b) (h : Reflects J R p q) : Reflects J R' p q := by
  cases h with
  | ok hr hm => exact .ok (hR _ _ hr) hm
  | error hm => exact .error hm

theorem InStep.reflects_bind (hJ : ∀ {m n}, Onward ρ μ m n → J m n) (hx : InStep ρ μ r s R x y)
    (hm : Mirrored ρ μ r s m n) (hf : ∀ a b m n, R a b → Mirrored ρ μ r s m n → Reflects J S (f a m) (g b n)) :
    Reflects J S ((x >>= f) m) ((y >>= g) n) := by
  show Reflects J S (EStateM.bind x f m) (EStateM.bind y g n)
  unfold EStateM.bind
  have hxy := hx hm
  generalize x m = p at hxy ⊢
  generalize y n = q at hxy ⊢
  cases hxy with
  | ok hr hm' => exact hf _ _ _ _ hr hm'
  | error hm' => exact .error (hJ hm'.onward)

theorem Reflects.bind_pure {x : Exec α} {y : Exec β} (h : Reflects J R (x m) (y n)) (hab : S a b) :
    Reflects J S ((x >>= fun _ => pure a) m) ((y >>= fun _ => pure b) n) := by
  show Reflects J S (EStateM.bind x _ m) (EStateM.bind y _ n)
  unfold EStateM.bind
  generalize x m = p at h ⊢
  generalize y n = q at h ⊢
  cases h with
  | ok _ hm => exact .ok hab hm
  | error hm => exact .error hm

end

/-! ## Code that corresponds -/

/-- Functions that are called alike. -/
structure Routine.CalledAlike (f g : Routine) : Prop where
  locals : g.locals = f.locals
  params : g.params = f.params
  variadic : g.variadic = f.variadic

/-- Constants that correspond, or the same number without a constant. -/
inductive ConstantsAlike (ρ : Renaming) (env env' : Env) (i j : Nat) : Prop
  | found {v w : Value} (left : env.constants[i]? = some v) (right : env'.constants[j]? = some w)
    (renamed : Renamed ρ v w)
  | missing (left : env.constants[i]? = none) (right : env'.constants[j]? = none) (same : j = i)

/-- Functions among the constants that correspond and capture `k` variables, or the same number without a
function. -/
inductive FunctionsAlike (ρ : Renaming) (env env' : Env) (k i j : Nat) : Prop
  | found {r s : Ref} (left : env.constants[i]? = some (.function r))
    (right : env'.constants[j]? = some (.function s)) (body : ρ.body k r s)
  | missing (left : env.constants[i]? = none) (right : env'.constants[j]? = none) (same : j = i)
  | other {v w : Value} (left : env.constants[i]? = some v) (right : env'.constants[j]? = some w)
    (none_left : ∀ r, v ≠ .function r) (none_right : ∀ r, w ≠ .function r) (same : j = i)

/-- Operands of an instruction that correspond. -/
def OperandsAlike (ρ : Renaming) (μ : Mirror) (env env' : Env) (r s : Ref) (op : Opcode) (code : Bytes) (o : Nat)
    (code' : Bytes) (o' : Nat) : Prop :=
  match op with
  | .constant => ConstantsAlike ρ env env' (readU16 code (o + 1)) (readU16 code' (o' + 1))
  | .closure =>
    readU8 code' (o' + 3) = readU8 code (o + 3) ∧
      FunctionsAlike ρ env env' (readU8 code (o + 3)) (readU16 code (o + 1)) (readU16 code' (o' + 1))
  | .jump | .jumpFalsy | .andJump | .orJump => μ.place r (readU16 code (o + 1)) s (readU16 code' (o' + 1))
  | op => readOperands code' op.widths (o' + 1) = readOperands code op.widths (o + 1)

/-- What the machines find at places that correspond. -/
inductive FetchedAlike (ρ : Renaming) (μ : Mirror) (env env' : Env) (r s : Ref) (o o' : Nat) :
    Fetched → Fetched → Prop
  | nothing : FetchedAlike ρ μ env env' r s o o' .nothing .nothing
  | broken (fault : Fault) : FetchedAlike ρ μ env env' r s o o' (.broken fault) (.broken fault)
  | instruction (op : Opcode) {code code' : Bytes} (next : μ.place r (o + op.length) s (o' + op.length))
    (operands : OperandsAlike ρ μ env env' r s op code o code' o') :
    FetchedAlike ρ μ env env' r s o o' (.instruction op code o) (.instruction op code' o')

/-- What stands at an offset of some code. -/
def fetchAt (code : Bytes) (offset : Nat) : Fetched :=
  if h : offset < code.size then
    match Opcode.ofByte? code[offset] with
    | none => .broken (.invalidOpcode code[offset].toNat)
    | some op =>
      if code.size < offset + op.length then .broken (.truncated op)
      else .instruction op code offset
  else .nothing

theorem fetch_eq_fetchAt : fetch m = fetchAt (m.heap.routineAt m.frame.routine).code m.frame.next := rfl

/-- **Two programs whose code corresponds.** -/
structure Mirror.Sound (μ : Mirror) (ρ : Renaming) (env env' : Env) : Prop where
  limits : env'.limits = env.limits
  host : env'.host = env.host
  start : ∀ {k r s}, ρ.body k r s → μ.place r 0 s 0 ∧ Routine.CalledAlike (ρ.left.routineAt r) (ρ.right.routineAt s)
  code : ∀ {r o s o'}, μ.place r o s o' → ¬μ.stop r o →
    FetchedAlike ρ μ env env' r s o o' (fetchAt (ρ.left.routineAt r).code o) (fetchAt (ρ.right.routineAt s).code o')

theorem Mirror.Sound.grow (hg : ρ.Growth ρ') (h : μ.Sound ρ env env') : μ.Sound ρ' env env' where
  limits := h.limits
  host := h.host
  start := by
    rw [hg.body, hg.left, hg.right]
    exact h.start
  code := by
    intro r o s o' hp hs
    rw [hg.left, hg.right]
    have hc := h.code hp hs
    generalize fetchAt (ρ.left.routineAt r).code o = x, fetchAt (ρ.right.routineAt s).code o' = y at hc ⊢
    cases hc with
    | nothing => exact .nothing
    | broken fault => exact .broken fault
    | instruction op next operands =>
      refine .instruction op next ?_
      cases op with
      | constant =>
        cases (operands : ConstantsAlike ..) with
        | found left right hv => exact .found left right (hg.le.value hv)
        | missing left right same => exact .missing left right same
      | closure =>
        refine ⟨operands.1, ?_⟩
        cases operands.2 with
        | found left right hb => exact .found left right (hg.le.body hb)
        | missing left right same => exact .missing left right same
        | other left right hl hr same => exact .other left right hl hr same
      | _ => exact operands

/-! ## Calls -/

section

variable {m n : Machine}

theorem bindArguments_inStep (hfg : f.CalledAlike g) :
    InStep ρ μ r s Eq (bindArguments f args) (bindArguments g args) := by
  unfold bindArguments
  rw [hfg.variadic, hfg.params]
  split
  · by_cases hlt : args < f.params - 1
    · simp only [hlt]
      exact .throw _
    · simp only [hlt]
      exact (InStep.collectRest ..).bind fun _ _ _ => .pure rfl
  · split
    · exact .pure rfl
    · exact .throw _

theorem openFrame_reflects (ha : Admits ρ μ env J) (hm : Mirrored ρ μ r s m n) (hstart : μ.place r' 0 s' 0)
    (hc : Option.Rel (ρ.refs .closures) c c')
    (hcallee : Renamed ρ (Frame.callee { routine := r', closure? := c })
      (Frame.callee { routine := s', closure? := c' })) (locals args : Nat) :
    Reflects J Eq (openFrame r' c locals args m) (openFrame s' c' locals args n) := by
  have hlocals : n.locals.size = m.locals.size := by simpa using hm.locals.length_eq.symm
  refine .ok rfl (ha.mirrored (r := r') (s := s') { hm with
    left := rfl, right := rfl, stack := ?_, locals := ?_, frame := ?_, callers := ?_ })
  · simp only [hm.stack_size]
    exact shrink_rel hm.stack _
  · simp only [hm.stack_size, toList_append, toList_map]
    refine rel_append (rel_append hm.locals ?_) ?_
    · have hargs := extract_rel hm.stack (m.stack.size - args) m.stack.size
      exact rel_map (fun _ _ hv => Slot.Renamed.plain hv) hargs
    · exact forall₂_same.mpr fun u hu => (eq_of_mem_replicate hu) ▸ .plain .undefined
  · exact { next := hstart, current := hstart, closure := hc, callee := hcallee
            localsBase := hlocals, stackBase := by simp only [hm.stack_size] }
  · simp only [toList_push]
    exact rel_append hm.callers (.cons hm.frame .nil)

theorem Mirrored.routineAt_left (hm : Mirrored ρ μ r s m n) (q : Ref) : m.heap.routineAt q = ρ.left.routineAt q := by
  simp only [Heap.routineAt, hm.heap.left.routines]

theorem Mirrored.routineAt_right (hm : Mirrored ρ μ r s m n) (q : Ref) :
    n.heap.routineAt q = ρ.right.routineAt q := by
  simp only [Heap.routineAt, hm.heap.right.routines]

theorem callRoutine_reflects (hs : μ.Sound ρ env env') (ha : Admits ρ μ env J) (hm : Mirrored ρ μ r s m n)
    (hb : ρ.body k r' s')
    (hc : Option.Rel (ρ.refs .closures) c c')
    (hcallee : Renamed ρ (Frame.callee { routine := r', closure? := c })
      (Frame.callee { routine := s', closure? := c' })) :
    Reflects J Eq (callRoutine env.limits r' c args m) (callRoutine env'.limits s' c' args n) := by
  obtain ⟨hstart, hcalled⟩ := hs.start hb
  have hread : InStep ρ μ r s (fun f g => f = ρ.left.routineAt r' ∧ g = ρ.right.routineAt s')
      (readHeap (·.routineAt r')) (readHeap (·.routineAt s')) :=
    fun m n hm => .ok ⟨hm.routineAt_left r', hm.routineAt_right s'⟩ hm
  refine hread.reflects_bind ha.onward hm fun f g m n hfg hm => ?_
  obtain ⟨rfl, rfl⟩ := hfg
  refine (bindArguments_inStep hcalled).reflects_bind ha.onward hm ?_
  rintro args _ m n rfl hm
  rw [openFrame_checked, openFrame_checked, hs.limits, hcalled.locals, hm.callers_size]
  split
  · exact .error (ha.mirrored hm)
  · exact openFrame_reflects ha hm hstart hc hcallee _ args

theorem callBelow_reflects (hs : μ.Sound ρ env env') (ha : Admits ρ μ env J) (hm : Mirrored ρ μ r s m n)
    : Reflects J Eq (callBelow env args m) (callBelow env' args n) := by
  refine (InStep.calleeBelow args).reflects_bind ha.onward hm fun v w m n hv hm => ?_
  have hrefuse := InStep.refuse (R := @Eq Unit) .notCallable hv hm
  cases hv with
  | function hb => exact callRoutine_reflects hs ha hm hb .none (.function hb)
  | closure hr =>
    have hc := hm.heap.closure hr
    exact callRoutine_reflects hs ha hm hc.body (.some hr) (.closure hr)
  | builtin b => exact (callNative (fun hu => b.call_renamed hu) args hm).reflects_grow ha.onward (.refl ρ)
  | host q =>
    refine reflects_bind (R := Eq) ha.onward (readHeap fun _ _ hj => (hj.hostAt q).symm) hm ?_
    rintro name _ m n rfl hm
    rw [hs.host]
    exact ha.host name args hm
  | _ => exact hrefuse.reflects_grow ha.onward (.refl ρ)

/-- **A call.** -/
theorem call_reflects (hs : μ.Sound ρ env env') (ha : Admits ρ μ env J) (hm : Mirrored ρ μ r s m n)
    : Reflects J Eq (call env args spread m) (call env' args spread n) := by
  by_cases hlt : m.stack.size < args + 1
  · rw [call_underflow env args spread m hlt, call_underflow env' args spread n (hm.stack_size ▸ hlt)]
    exact .error (ha.mirrored hm)
  · rw [call_eq env args spread m hlt, call_eq env' args spread n (hm.stack_size ▸ hlt)]
    have hspread : InStep ρ μ r s Eq (spreadOut args spread) (spreadOut args spread) := by
      unfold spreadOut
      split
      · exact .spreadLast args
      · exact .pure rfl
    refine hspread.reflects_bind ha.onward hm ?_
    rintro args _ m n rfl hm
    exact callBelow_reflects hs ha hm

/-- **A return.** -/
theorem finish_reflects (ha : Admits ρ μ env J) (hm : Mirrored ρ μ r s m n) (hv : Renamed ρ v w) :
    Reflects J Eq (finish v m) (finish w n) := by
  have hback := back?_rel hm.callers
  unfold finish
  generalize hf : m.callers.back? = f, hg : n.callers.back? = g at hback ⊢
  cases hback with
  | none => exact .ok rfl (ha.mirrored hm)
  | @some f g hcaller =>
    refine .ok rfl (ha.mirrored (r := f.routine) (s := g.routine) { hm with
      left := rfl, right := rfl, stack := ?_, locals := ?_, frame := hcaller
      callers := pop_rel hm.callers })
    · simp only [toList_push, hm.frame.stackBase]
      exact rel_append (shrink_rel hm.stack _) (.cons hv .nil)
    · simp only [hm.frame.localsBase]
      exact shrink_rel hm.locals _

end

/-! ## Closures -/

/-- Cells for closures that correspond. -/
def CellsFor (ρ : Renaming) (k : Nat) (cs ds : Array Ref) : Prop :=
  cs.size = k ∧ Forall₂ (ρ.refs .cells) cs.toList ds.toList ∧ ∀ c ∈ cs, ρ.changeable .cells c

theorem takeCells_inStep : InStep ρ μ r s (CellsFor ρ k) (takeCells k) (takeCells k) := by
  intro m n hm
  have hsize : n.captures.size = m.captures.size := by simpa using hm.captures.length_eq.symm
  unfold takeCells
  rw [hsize]
  split
  · exact .error hm
  · refine .ok ⟨?_, extract_rel hm.captures .., fun c hc => ?_⟩
      { hm with captures := shrink_rel hm.captures _, captured := fun c hc => ?_ }
    · simp only [size_extract]
      omega
    · refine hm.captured c (mem_toList_iff.mp ?_)
      have hmem := mem_toList_iff.mpr hc
      rw [toList_extract] at hmem
      exact mem_of_mem_drop (mem_of_mem_take hmem)
    · refine hm.captured c (mem_toList_iff.mp ?_)
      have hmem := mem_toList_iff.mpr hc
      rw [toList_shrink] at hmem
      exact mem_of_mem_take hmem

theorem makeClosure_notFunction (h : env.constants[i]? = some v) (hv : ∀ r, v ≠ .function r) :
    makeClosure env i k m = .error (.notFunction i) m := by
  unfold makeClosure constant
  rw [h]
  cases v with
  | function r => exact absurd rfl (hv r)
  | _ => rfl

/-- **A closure is made**, and is known from then on. -/
theorem makeClosure_reflects (ha : Admits ρ μ env J) (hf : FunctionsAlike ρ env env' k i j)
    (hm : Mirrored ρ μ r s m n) : Reflects J Eq (makeClosure env i k m) (makeClosure env' j k n) := by
  cases hf with
  | missing left right same =>
    subst same
    unfold makeClosure constant
    rw [left, right]
    exact .error (ha.mirrored hm)
  | other left right hl hr same =>
    subst same
    rw [makeClosure_notFunction left hl, makeClosure_notFunction right hr]
    exact .error (ha.mirrored hm)
  | @found r' s' left right hb =>
    unfold makeClosure
    rw [constant_of_some left, constant_of_some right]
    show Reflects J Eq ((takeCells k >>= _) m) ((takeCells k >>= _) n)
    refine takeCells_inStep.reflects_bind ha.onward hm fun cs ds m n hcs hm => ?_
    refine countAllocation.reflects_bind ha.onward hm fun _ _ m n _ hm => ?_
    obtain ⟨hv, hj⟩ := hm.heap.newClosure (c := ⟨r', cs⟩) (d := ⟨s', ds⟩) ⟨hcs.1 ▸ hb, hcs.2.1, hcs.2.2⟩
    have hg := Renaming.growth_withClosure hm.heap.pace
    exact (push hv (hm.grow hg.le hj)).reflects_grow ha.onward hg

/-! ## Instructions -/

section

variable {m n : Machine} {code code' : Bytes} {o o' : Nat}

theorem operand_byte (h : readOperands code' (1 :: ws) (o' + 1) = readOperands code (1 :: ws) (o + 1)) :
    readU8 code' (o' + 1) = readU8 code (o + 1) := (cons.inj h).1

theorem operand_word (h : readOperands code' (2 :: ws) (o' + 1) = readOperands code (2 :: ws) (o + 1)) :
    readU16 code' (o' + 1) = readU16 code (o + 1) := (cons.inj h).1

theorem second_byte {w : Nat} (h : readOperands code' [w, 1] (o' + 1) = readOperands code [w, 1] (o + 1)) :
    readU8 code' (o' + 1 + w) = readU8 code (o + 1 + w) := (cons.inj (cons.inj h).2).1

theorem constant_inStep (h : ConstantsAlike ρ env env' i j) :
    InStep ρ μ r s (Renamed ρ) (constant env i) (constant env' j) := by
  unfold constant
  cases h with
  | found left right hv =>
    rw [left, right]
    exact .pure hv
  | missing left right same =>
    subst same
    rw [left, right]
    exact .throw _

/-- **One instruction**, other than those that end a function. -/
theorem perform_reflects (hs : μ.Sound ρ env env') (ha : Admits ρ μ env J) (hm : Mirrored ρ μ r s m n)
    (h : OperandsAlike ρ μ env env' r s op code o code' o') :
    Reflects J Anything (perform env op code o m) (perform env' op code' o' n) := by
  have hstep {α β : Type} {R : α → β → Prop} {x : Exec α} {y : Exec β} (hx : InStep ρ μ r s R x y) :
      Reflects J Anything (x m) (y n) := ((hx hm).reflects_grow ha.onward (.refl ρ)).imp fun _ _ _ => trivial
  cases op with
  | constant => exact hstep ((constant_inStep h).bind fun _ _ hv => .push hv)
  | pop => exact hstep pop.discard
  | true => exact hstep (.push (.bool _))
  | false => exact hstep (.push (.bool _))
  | null => exact hstep (.push .undefined)
  | equal => exact hstep (.compareEqual _)
  | notEqual => exact hstep (.compareEqual _)
  | binaryOp =>
    simp only [perform, operand_byte h]
    exact hstep (.applyBinary _)
  | minus => exact hstep .negate
  | complement => exact hstep .complement
  | not => exact hstep .logicalNot
  | jump => exact hstep (.jump h)
  | jumpFalsy => exact hstep (.jumpFalsy h)
  | andJump => exact hstep (.jumpDecided _ h)
  | orJump => exact hstep (.jumpDecided _ h)
  | array =>
    simp only [perform, operand_word h]
    exact hstep (.makeArray _)
  | map =>
    simp only [perform, operand_word h]
    exact hstep (.makeMap _)
  | error => exact hstep .makeError
  | immutable => exact hstep .freeze
  | index => exact hstep .index
  | slice => exact hstep .slice
  | call =>
    simp only [perform, operand_byte h, second_byte h]
    exact (call_reflects hs ha hm).imp fun _ _ _ => trivial
  | getGlobal =>
    simp only [perform, operand_word h]
    exact hstep ((InStep.getGlobal _).bind fun _ _ hv => .push hv)
  | setGlobal =>
    simp only [perform, operand_word h]
    exact hstep (pop.bind fun _ _ hv => .setGlobal _ hv)
  | setSelGlobal =>
    simp only [perform, operand_word h, second_byte h]
    exact hstep (.assignSelected (.getGlobal _) _)
  | getLocal =>
    simp only [perform, operand_byte h]
    exact hstep ((InStep.getLocal _).bind fun _ _ hv => .push hv)
  | setLocal =>
    simp only [perform, operand_byte h]
    exact hstep (pop.bind fun _ _ hv => .setLocal _ hv)
  | defineLocal =>
    simp only [perform, operand_byte h]
    exact hstep (pop.bind fun _ _ hv => .defineLocal _ hv)
  | setSelLocal =>
    simp only [perform, operand_byte h, second_byte h]
    exact hstep (.assignSelected (.getLocal _) _)
  | getLocalPtr =>
    simp only [perform, operand_byte h]
    exact hstep ((InStep.shareLocal _).bind fun _ _ hc => .capture hc)
  | getFree =>
    simp only [perform, operand_byte h]
    exact hstep ((InStep.getFree _).bind fun _ _ hv => .push hv)
  | setFree =>
    simp only [perform, operand_byte h]
    exact hstep (pop.bind fun _ _ hv => .setFree _ hv)
  | setSelFree =>
    simp only [perform, operand_byte h, second_byte h]
    exact hstep (.assignSelected (.getFree _) _)
  | getFreePtr =>
    simp only [perform, operand_byte h]
    exact hstep ((InStep.freeCell _).bind fun _ _ hc => .capture hc)
  | getBuiltin =>
    simp only [perform, operand_byte h]
    exact hstep (.pushBuiltin _)
  | closure =>
    simp only [perform, h.1]
    exact (makeClosure_reflects ha h.2 hm).imp fun _ _ _ => trivial
  | currentFunc => exact hstep (currentFunction.bind fun _ _ hv => .push hv)
  | currentFuncPtr =>
    exact hstep (currentFunction.bind fun _ _ hv => (newCell hv).bind fun _ _ hc => .capture hc)
  | iterInit => exact hstep .startIteration
  | iterNext => exact hstep .iterationNext
  | iterKey => exact hstep (.iterationPart iterKey_renamed)
  | iterValue => exact hstep (.iterationPart iterValue_renamed)
  | ret => exact .ok trivial (ha.mirrored hm)
  | suspend => exact .ok trivial (ha.mirrored hm)

theorem execute_reflects (hs : μ.Sound ρ env env') (ha : Admits ρ μ env J) (hm : Mirrored ρ μ r s m n)
    (h : OperandsAlike ρ μ env env' r s op code o code' o') :
    Reflects J Eq (execute env op code o m) (execute env' op code' o' n) := by
  have hperform := (perform_reflects hs ha hm h).bind_pure (S := @Eq Bool) (a := false) (b := false) rfl
  cases op with
  | suspend => exact .ok rfl (ha.mirrored hm)
  | ret =>
    simp only [execute, operand_byte h]
    split
    · exact pop.reflects_bind ha.onward hm fun _ _ _ _ hv hm => finish_reflects ha hm hv
    · exact finish_reflects ha hm .undefined
  | _ => exact hperform

theorem Mirrored.counted (hm : Mirrored ρ μ r s m n) : Mirrored ρ μ r s m.counted n.counted :=
  { hm with steps := congrArg (· + 1) hm.steps }

theorem Mirrored.fetch_left (hm : Mirrored ρ μ r s m n) :
    fetch m = fetchAt (ρ.left.routineAt r).code m.frame.next := by
  rw [fetch_eq_fetchAt, hm.routineAt_left, hm.left]

theorem Mirrored.fetch_right (hm : Mirrored ρ μ r s m n) :
    fetch n = fetchAt (ρ.right.routineAt s).code n.frame.next := by
  rw [fetch_eq_fetchAt, hm.routineAt_right, hm.right]

theorem Mirrored.advance (hm : Mirrored ρ μ r s m n) (hcurrent : μ.place r o s o') (hnext : μ.place r p s p') :
    Mirrored ρ μ r s { m with frame := { m.frame with current := o, next := p } }
      { n with frame := { n.frame with current := o', next := p' } } := by
  refine { hm with frame := { hm.frame with next := ?_, current := ?_ } }
  · simp only [hm.left, hm.right]
    exact hnext
  · simp only [hm.left, hm.right]
    exact hcurrent

/-- **One step of both machines.** -/
theorem step_reflects (hs : μ.Sound ρ env env') (ha : Admits ρ μ env J) (hm : Mirrored ρ μ r s m n)
    (hstop : ¬μ.stop r m.frame.next) : Reflects J Eq (step env m) (step env' n) := by
  have hm' := hm.counted
  unfold step
  rw [countStep_eq, countStep_eq, hs.limits, hm.stack_size, hm.steps]
  cases exceeded? env.limits (m.steps + 1) m.stack.size with
  | some fault => exact .error (ha.mirrored hm')
  | none =>
    dsimp only
    rw [hm'.fetch_left, hm'.fetch_right]
    have hplace := hm'.frame.next
    rw [hm'.left, hm'.right] at hplace
    have hcode := hs.code hplace hstop
    generalize fetchAt (ρ.left.routineAt r).code m.counted.frame.next = x,
      fetchAt (ρ.right.routineAt s).code n.counted.frame.next = y at hcode ⊢
    cases hcode with
    | nothing => exact finish_reflects ha hm' .undefined
    | broken fault => exact .error (ha.mirrored hm')
    | instruction op next operands => exact execute_reflects hs ha (hm'.advance hplace next) operands

end

/-! ## Runs -/

theorem Onward.of_growth (hg : ρ.Growth ρ') (h : Onward ρ' μ m n) : Onward ρ μ m n := by
  obtain ⟨ρ'', r, s, hg', hm⟩ := h
  exact ⟨ρ'', r, s, hg.trans hg', hm⟩

/-- Both runs end alike: finished, with the same fault, or not at all within the fuel. -/
inductive EndsAlike (ρ : Renaming) (μ : Mirror) (files files' : FileSet) :
    Outcome × Machine → Outcome × Machine → Prop
  | finished {m n : Machine} (machines : Onward ρ μ m n) : EndsAlike ρ μ files files' (.finished, m) (.finished, n)
  | failed {fault} {m n : Machine} (machines : Onward ρ μ m n) :
    EndsAlike ρ μ files files' (.failed { fault, trace := m.trace files }, m)
      (.failed { fault, trace := n.trace files' }, n)
  | unfinished {m n : Machine} (machines : Onward ρ μ m n) :
    EndsAlike ρ μ files files' (.unfinished, m) (.unfinished, n)

/-- **Runs of code that corresponds end alike**, after the same number of steps. -/
theorem runFor_reflects (hs : μ.Sound ρ env env') (hhost : ParametricHost env.host)
    (hstop : ∀ r o, ¬μ.stop r o) (files files' : FileSet) (fuel : Nat) : ∀ {m n : Machine}, Onward ρ μ m n →
      EndsAlike ρ μ files files' (runFor env files fuel m) (runFor env' files' fuel n) := by
  induction fuel with
  | zero => exact fun h => .unfinished h
  | succ fuel ih =>
    intro m n h
    obtain ⟨ρ', r, s, hg, hm⟩ := h
    have ha : Admits ρ' μ env (Onward ρ' μ) :=
      ⟨id, fun name args hm => (callNative (fun hu => hhost ρ' name _ _ hu) args hm).reflects⟩
    have hstep := step_reflects (hs.grow hg) ha hm (hstop _ _)
    unfold runFor
    generalize step env m = p, step env' n = q at hstep ⊢
    cases hstep with
    | error hm' => exact .failed (hm'.of_growth hg)
    | @ok b _ _ _ hb hm' =>
      subst hb
      cases b with
      | true => exact .finished (hm'.of_growth hg)
      | false => exact ih (hm'.of_growth hg)

end Scripting
