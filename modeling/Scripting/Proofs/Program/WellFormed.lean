import Scripting.Proofs.Compile.Flow
import Scripting.Proofs.Compile.Parts
import Scripting.Proofs.Program.Safety
/-!
# `Proofs.Program.WellFormed` — compiled functions are well formed

`Routine.WellFormed` is what a reader of the bytes of a function can check without running it: the bytes
split into instructions with all their operands, jumps lead to instructions, every number that stands for a
variable, a constant, a built-in function or an operator stands for one, and a closure is made right after
the cells that it captures have been taken.

`compiled_wellFormed` proves it of the main code of a compiled program and of every function among its
constants. Two accounts of the same code come together here. That the jumps are right follows from how the
code was put together (`Builds.jumpsLand`). Everything else is read off the shapes of the operand stack: an
instruction with an effect refers only to what there is (`Effect.admits`), and the cells that wait for a closure
are counted along the code (`Typed.pairs`).
-/

namespace Scripting

open Code

/-! ## Kinds of instructions -/

namespace Opcode

/-- The instructions that refer to a local variable, by their first operand. -/
def isLocal : Opcode → Bool
  | .getLocal | .setLocal | .defineLocal | .setSelLocal | .getLocalPtr => Bool.true
  | _ => Bool.false

/-- The instructions that refer to a captured variable, by their first operand. -/
def isFree : Opcode → Bool
  | .getFree | .setFree | .setSelFree | .getFreePtr => Bool.true
  | _ => Bool.false

/-- The instructions that take a cell for the next closure. -/
def isCapture : Opcode → Bool
  | .getLocalPtr | .getFreePtr | .currentFuncPtr => Bool.true
  | _ => Bool.false

/-- The instructions that refer to something by a number. -/
def refers : Opcode → Bool
  | .constant | .closure | .binaryOp | .getBuiltin => Bool.true
  | op => op.isLocal || op.isFree

end Opcode

/-! ## What a reader can check -/

/-- The number of instructions at the end of a list that take cells. -/
def capturesAtEnd (before : List (Nat × Instruction)) : Nat := (before.reverse.takeWhile (·.2.op.isCapture)).length

/-- **A well-formed function**, in a program with these constants. -/
structure Routine.WellFormed (pool : Array Value) (h : Heap) (r : Routine) : Prop where
  /-- The bytes are those of the instructions, one after the other. -/
  splits : r.code.toList = Fragment.assembleAll ((decode r.code).map Prod.snd)
  /-- Every instruction has all its operands. -/
  fits : ∀ p ∈ decode r.code, p.2.Fits
  jumps : JumpsLand r.code
  constants : ∀ p ∈ decode r.code, p.2.op = .constant → ∃ k, p.2.operands = [k] ∧ k < pool.size
  /-- A closure is made of a function that captures as many variables as cells have just been taken. -/
  closures : ∀ before p after, decode r.code = before ++ p :: after → p.2.op = .closure →
    ∃ k f, p.2.operands = [k, capturesAtEnd before] ∧ pool[k]? = some (.function f) ∧
      (h.routineAt f).free.length = capturesAtEnd before
  locals : ∀ p ∈ decode r.code, p.2.op.isLocal = true → ∃ i rest, p.2.operands = i :: rest ∧ i < r.locals
  free : ∀ p ∈ decode r.code, p.2.op.isFree = true → ∃ i rest, p.2.operands = i :: rest ∧ i < r.free.length
  operators : ∀ p ∈ decode r.code, p.2.op = .binaryOp → ∃ c, p.2.operands = [c] ∧ (Operator.ofCode? c).isSome
  builtins : ∀ p ∈ decode r.code, p.2.op = .getBuiltin → ∃ i, p.2.operands = [i] ∧ (Builtin.ofIndex? i).isSome

/-! ## What typed code refers to -/

/-- An instruction refers only to what a signature allows. -/
structure Sig.Admits (Λ : Sig) (i : Instruction) : Prop where
  constants : i.op = .constant → ∃ k κ, i.operands = [k] ∧ Λ.constant k κ
  closures : i.op = .closure → ∃ k n, i.operands = [k, n] ∧ Λ.closure k n
  locals : i.op.isLocal = true → ∃ n rest, i.operands = n :: rest ∧ n < Λ.locals
  free : i.op.isFree = true → ∃ n rest, i.operands = n :: rest ∧ n < Λ.free
  operators : i.op = .binaryOp → ∃ c, i.operands = [c] ∧ (Operator.ofCode? c).isSome
  builtins : i.op = .getBuiltin → ∃ n, i.operands = [n] ∧ (Builtin.ofIndex? n).isSome

variable {Λ : Sig} {i : Instruction} {f : Fragment} {σ τ : Shape}

theorem refers_of_isLocal {op : Opcode} (h : op.isLocal = true) : op.refers = true := by
  cases op <;> first | rfl | cases h

theorem refers_of_isFree {op : Opcode} (h : op.isFree = true) : op.refers = true := by
  cases op <;> first | rfl | cases h

theorem isFree_of_isLocal {op : Opcode} (h : op.isLocal = true) : op.isFree = false := by
  cases op <;> first | rfl | cases h

theorem Sig.Admits.of_refers (h : i.op.refers = false) : Λ.Admits i := by
  obtain ⟨op, operands⟩ := i
  constructor
  case locals =>
    intro hl
    rw [refers_of_isLocal hl] at h
    cases h
  case free =>
    intro hf
    rw [refers_of_isFree hf] at h
    cases h
  all_goals
    rintro rfl
    cases h

theorem Sig.Admits.of_local (h : op.isLocal = true) (hn : n < Λ.locals) : Λ.Admits ⟨op, n :: rest⟩ := by
  constructor
  case locals => exact fun _ => ⟨n, rest, rfl, hn⟩
  case free =>
    intro hf
    rw [isFree_of_isLocal h] at hf
    cases hf
  all_goals
    rintro rfl
    cases h

theorem Sig.Admits.of_free (h : op.isFree = true) (hn : n < Λ.free) : Λ.Admits ⟨op, n :: rest⟩ := by
  constructor
  case locals =>
    intro hl
    rw [isFree_of_isLocal hl] at h
    cases h
  case free => exact fun _ => ⟨n, rest, rfl, hn⟩
  all_goals
    rintro rfl
    cases h

theorem refers_of_isJump {op : Opcode} (h : op.isJump = true) : op.refers = false := by
  cases op <;> first | rfl | cases h

theorem refers_of_takes? {op : Opcode} (h : op.takes? = some n) : op.refers = false := by
  cases op <;> first | rfl | cases h

/-- **An instruction with an effect refers only to what there is.** -/
theorem Effect.admits (h : Effect Λ i σ τ) : Λ.Admits i := by
  cases h with
  | operation h => exact .of_refers (refers_of_takes? h)
  | pop => exact .of_refers rfl
  | array => exact .of_refers rfl
  | map => exact .of_refers rfl
  | call => exact .of_refers rfl
  | @constant k κ σ h =>
    refine ⟨fun _ => ⟨k, κ, rfl, h⟩, ?_, ?_, ?_, ?_, ?_⟩
    all_goals
      intro hop
      cases hop
  | @closure k n σ h =>
    refine ⟨?_, fun _ => ⟨k, n, rfl, h⟩, ?_, ?_, ?_, ?_⟩
    all_goals
      intro hop
      cases hop
  | @binary c κ κ' σ h =>
    refine ⟨?_, ?_, ?_, ?_, fun _ => ⟨c, rfl, h⟩, ?_⟩
    all_goals
      intro hop
      cases hop
  | load h =>
    unfold Sig.Loads at h
    split at h
    · exact .of_refers rfl
    · exact .of_local rfl h
    · exact .of_free rfl h
    · rename_i n
      refine ⟨?_, ?_, ?_, ?_, ?_, fun _ => ⟨n, rfl, h⟩⟩
      all_goals
        intro hop
        cases hop
    · exact h.elim
  | store h =>
    unfold Sig.Stores at h
    split at h
    · exact .of_refers rfl
    · exact .of_local rfl h
    · exact .of_local rfl h
    · exact .of_free rfl h
    · exact h.elim
  | storePart h =>
    unfold Sig.StoresPart at h
    split at h
    · exact .of_refers rfl
    · exact .of_local rfl h.1
    · exact .of_free rfl h.1
    · exact h.elim
  | capture h =>
    unfold Sig.Captures at h
    split at h
    · exact .of_local rfl h
    · exact .of_free rfl h
    · exact .of_refers rfl
    · exact h.elim

/-- **Typed code refers only to what there is.** -/
theorem Typed.admits (h : Typed Λ f σ τ) : ∀ i ∈ f.ops, Λ.Admits i := by
  induction h with
  | nil | exit =>
    intro i hi
    cases hi
  | op h => exact List.forall_mem_singleton.mpr h.admits
  | ret | retValue | suspend => exact List.forall_mem_singleton.mpr (.of_refers rfl)
  | seq _ _ iha ihb => exact List.forall_mem_append.mpr ⟨iha, ihb⟩
  | skip _ ih => exact ih
  | decide _ _ ih => exact ih
  | fork _ _ _ ihy ihn => exact List.forall_mem_append.mpr ⟨ihy, ihn⟩
  | @loop tested back test body post κ _ _ _ iht ihb ihp =>
    refine List.forall_mem_append.mpr ⟨List.forall_mem_append.mpr ⟨?_, ihb⟩, ?_⟩
    · cases tested with
      | true => exact iht rfl
      | false =>
        intro i hi
        cases hi
    · cases back with
      | true => exact ihp rfl
      | false =>
        intro i hi
        cases hi

/-! ## Cells that wait for a closure -/

/-- The number of cells that wait after an instruction, if `n` did before. -/
def waiting (n : Nat) (i : Instruction) : Nat := if i.op.isCapture then n + 1 else 0

/-- A closure takes exactly the `n` cells that wait. -/
def Instruction.TakesWaiting (n : Nat) (i : Instruction) : Prop := i.op = .closure → ∃ k, i.operands = [k, n]

/-- Along the instructions, with `n` cells waiting at the start and `m` at the end, every closure takes
exactly those that wait. -/
inductive Pairs : Nat → List Instruction → Nat → Prop
  | nil {n} : Pairs n [] n
  | cons {n m i is} (hi : i.TakesWaiting n) (his : Pairs (waiting n i) is m) : Pairs n (i :: is) m

theorem Pairs.append (h : Pairs n is m) (h' : Pairs m js k) : Pairs n (is ++ js) k := by
  induction h with
  | nil => exact h'
  | cons hi _ ih => exact .cons hi (ih h')

theorem Pairs.other (h : i.op ≠ .closure) (hc : i.op.isCapture = false) : Pairs n [i] 0 := by
  refine .cons (fun hop => absurd hop h) ?_
  rw [waiting, hc]
  exact .nil

theorem Pairs.jump (h : j.isJump = true) : Pairs n [⟨j, operands⟩] 0 := by
  refine .other ?_ ?_
  · rintro rfl
    cases h
  · cases j <;> first | rfl | cases h

theorem Pairs.closure_takes (h : Pairs n (before ++ i :: after) m) : i.TakesWaiting (before.foldl waiting n) := by
  induction before generalizing n with
  | nil =>
    cases h with
    | cons hi _ => exact hi
  | cons j before ih =>
    cases h with
    | cons _ hrest => exact ih hrest

theorem foldl_waiting : (before.map Prod.snd).foldl waiting 0 = capturesAtEnd before := by
  -- the count is decided by the last instructions, so the induction is on the reversed list
  obtain ⟨ps, rfl⟩ : ∃ ps, before = ps.reverse := ⟨before.reverse, (List.reverse_reverse _).symm⟩
  induction ps with
  | nil => rfl
  | cons p ps ih =>
    rw [List.reverse_cons, List.map_append, List.foldl_append, ih]
    show waiting (capturesAtEnd ps.reverse) p.2 = _
    unfold waiting capturesAtEnd
    rw [List.reverse_append, List.reverse_singleton, List.singleton_append, List.takeWhile_cons]
    split
    · rw [List.length_cons]
    · rfl

theorem Effect.pairs (h : Effect Λ i σ τ) : Pairs σ.pending [i] τ.pending := by
  cases h with
  | @operation op xs σ h =>
    refine .other ?_ ?_
    · rintro rfl
      cases h
    · cases op <;> first | rfl | cases h
  | pop | constant | binary | array | map | call =>
    refine .other ?_ rfl
    intro hop
    cases hop
  | load h =>
    unfold Sig.Loads at h
    split at h
    case h_5 => exact h.elim
    all_goals
      refine .other ?_ rfl
      intro hop
      cases hop
  | store h =>
    unfold Sig.Stores at h
    split at h
    case h_5 => exact h.elim
    all_goals
      refine .other ?_ rfl
      intro hop
      cases hop
  | storePart h =>
    unfold Sig.StoresPart at h
    split at h
    case h_4 => exact h.elim
    all_goals
      refine .other ?_ rfl
      intro hop
      cases hop
  | capture h =>
    unfold Sig.Captures at h
    split at h
    case h_4 => exact h.elim
    all_goals
      refine .cons ?_ .nil
      intro hop
      cases hop
  | closure h => exact .cons (fun _ => ⟨_, rfl⟩) .nil

/-- **In typed code every closure takes the cells that wait for it.** -/
theorem Typed.pairs (h : Typed Λ f σ τ) (s : Nat) (t : Exit → Nat) : Pairs σ.pending (f.code s t) τ.pending := by
  induction h generalizing s t with
  | nil => exact .nil
  | op h => exact h.pairs
  | ret | retValue | suspend =>
    refine .other ?_ rfl
    intro hop
    cases hop
  | seq _ _ iha ihb => exact (iha ..).append (ihb _ _)
  | skip _ ih =>
    have hjump (o : List Nat) : Pairs 0 [⟨.jumpFalsy, o⟩] 0 := .jump rfl
    exact (hjump _).append (ih ..)
  | @decide kind body κ σ hk _ ih =>
    have hjump (o : List Nat) : Pairs 0 [⟨kind.op, o⟩] 0 := .jump (Fragment.isJump_skip kind)
    exact (hjump _).append (ih ..)
  | @fork yes no join κ σ τ hj _ _ ihy ihn =>
    have htest (o : List Nat) : Pairs 0 [⟨.jumpFalsy, o⟩] 0 := .jump rfl
    have hjoin : Pairs 0 (if join then [⟨.jump, [Fragment.noStart yes join s + no.size]⟩] else []) 0 := by
      cases join with
      | true => exact .jump rfl
      | false => exact .nil
    exact (((htest _).append (ihy ..)).append hjoin).append (ihn _ _)
  | @loop tested back test body post κ _ _ _ iht ihb ihp =>
    have htest : Pairs 0 (if tested then test.code s t ++
        [⟨.jumpFalsy, [Fragment.loopEnd tested test body back post s]⟩] else []) 0 := by
      cases tested with
      | true => exact (iht rfl s t).append (.jump rfl)
      | false => exact .nil
    have hpost (o : Nat) : Pairs 0 (if back then post.code o t ++ [⟨.jump, [s]⟩] else []) 0 := by
      cases back with
      | true => exact (ihp rfl o t).append (.jump rfl)
      | false => exact .nil
    exact (htest.append (ihb ..)).append (hpost _)
  | exit => exact .jump rfl

/-! ## Functions -/

namespace Generator

open Fragment

variable {O : Origin} {p : Program} {h : Heap}

/-- **A function with typed code whose jumps lead to instructions is well formed.** -/
theorem Compiled.wellFormed (hc : Compiled O p h) (hr : Made O h n r) (hj : JumpsLand (h.routineAt r).code) :
    (h.routineAt r).WellFormed p.constants h := by
  obtain ⟨f, hasm, ht⟩ := hc.checked.code hr
  have hasm : Assembled f (h.routineAt r).code := hasm
  have hsnd : (decode (h.routineAt r).code).map Prod.snd = f.code 0 open₀ := by
    rw [hasm.decode_eq, map_snd_located]
  have hmem {q : Nat × Instruction} (hq : q ∈ decode (h.routineAt r).code) : q.2 ∈ f.code 0 open₀ := by
    rw [← hsnd]
    exact List.mem_map_of_mem hq
  have hadmits {q : Nat × Instruction} (hq : q ∈ decode (h.routineAt r).code) :
      (constantSig p.constants (Made O h) (h.routineAt r).locals n).Admits q.2 := by
    rcases mem_code _ (hmem hq) with hjump | hop
    · exact .of_refers (refers_of_isJump hjump)
    · exact ht.admits q.2 hop
  constructor
  · rw [hsnd]
    exact hasm.code
  · intro q hq
    exact hasm.fits q.2 (hmem hq)
  · exact hj
  · intro q hq hop
    obtain ⟨k, κ, heq, v, hv, -⟩ := (hadmits hq).constants hop
    exact ⟨k, heq, (Array.getElem?_eq_some_iff.mp hv).1⟩
  · intro before q after heq hop
    have hpairs : Pairs 0 ((before ++ q :: after).map Prod.snd) 0 := by
      rw [← heq, hsnd]
      exact ht.pairs 0 open₀
    rw [List.map_append] at hpairs
    obtain ⟨k, htakes⟩ := hpairs.closure_takes hop
    rw [foldl_waiting] at htakes
    obtain ⟨k', n', heq', f', hf', hmade⟩ := (hadmits (heq ▸ by simp)).closures hop
    rw [htakes] at heq'
    cases heq'
    exact ⟨k, f', htakes, hf', hmade.free⟩
  · intro q hq hop
    exact (hadmits hq).locals hop
  · intro q hq hop
    rw [hr.free]
    exact (hadmits hq).free hop
  · intro q hq hop
    exact (hadmits hq).operators hop
  · intro q hq hop
    exact (hadmits hq).builtins hop

/-! ## Programs -/

/-- **Compiled programs are well formed.** Whatever the program and its modules, if it compiles on a table with
only the root open and the standard built-ins, then its main code and every function among its constants are
well formed, and the main code uses no local and no captured variable. -/
theorem compiled_wellFormed {files : FileSet} {modules : ModuleMap} {body : List Stmt} {g g' : Generator}
    (ht : g.table.Standard) (hcompile : compile files modules body g = (.ok p, g')) :
    (g'.heap.routineAt p.main).WellFormed p.constants g'.heap ∧
      (∀ q ∈ decode (g'.heap.routineAt p.main).code, q.2.op.isLocal = false ∧ q.2.op.isFree = false) ∧
      ∀ (k : Nat) (r : Ref), p.constants[k]? = some (.function r) →
        (g'.heap.routineAt r).WellFormed p.constants g'.heap := by
  have hc := compile_sound ht hcompile
  obtain ⟨exits, gen, hrun, hclean, hfin⟩ := stmts_of_compile hcompile
  obtain ⟨f, hw, exits', hbuilds⟩ := stmts_add hrun hclean
  have hmain : (g'.heap.routineAt p.main).WellFormed p.constants g'.heap := by
    refine hc.wellFormed hc.main ?_
    have hw' := hw.trans gen.writes_suspended
    have hasm : Assembled (.seq f (.op ⟨.suspend, []⟩)) gen.suspended.scope.code :=
      ⟨hw'.code, hw'.fits, hw'.closed rfl⟩
    rw [hfin.code]
    exact hasm.jumpsLand (hbuilds.confined.forget.seq (.op rfl fun _ => rfl))
  have hlocals : (g'.heap.routineAt p.main).locals = 0 := hc.locals
  have hfree : (g'.heap.routineAt p.main).free.length = 0 := hc.main.free
  refine ⟨hmain, fun q hq => ⟨?_, ?_⟩, fun k r hk => ?_⟩
  · by_contra hlocal
    obtain ⟨i, rest, -, hlt⟩ := hmain.locals q hq (Bool.not_eq_false _ ▸ hlocal)
    rw [hlocals] at hlt
    exact Nat.not_lt_zero i hlt
  · by_contra hcaptured
    obtain ⟨i, rest, -, hlt⟩ := hmain.free q hq (Bool.not_eq_false _ ▸ hcaptured)
    rw [hfree] at hlt
    exact Nat.not_lt_zero i hlt
  · obtain ⟨n, hmade⟩ := hc.constants hk
    refine hc.wellFormed hmade ?_
    have hgives := (hbuilds.gives Builds.jumpsLand fun _ _ hget => by cases hget).1
    rw [hfin.constants] at hk
    obtain ⟨hlt, hland⟩ := hgives k r (Nat.zero_le _) hk
    rw [hfin.routines r hlt]
    exact hland

/-- `f := func(a) { for i := 0; i < a; i++ { if i == 2 { break } else { return func() { return a + i } } } }` -/
def closureInLoop : List Stmt := [ .assign .none [.ident .none "f"] .define [.func .none [⟨.none, "a"⟩] false [
    .loop .none (some (.assign .none [.ident .none "i"] .define [.int .none 0]))
      (some (.binary .none (.order .less) (.ident .none "i") (.ident .none "a")))
      (some (.step .none (.ident .none "i") .increment)) [
        .branch .none none (.binary .none .equal (.ident .none "i") (.int .none 2)) [.breakLoop .none]
          (some (.block .none [.ret .none (some (.func .none [] false [
            .ret .none (some (.binary .none (.arith .add) (.ident .none "a") (.ident .none "i")))]))]))]]]]

/-- A loop with an early end and a closure over two variables. -/
theorem closureInLoop_wellFormed : ∃ p g', compile {} limitsModule closureInLoop {} = (.ok p, g') ∧
    (g'.heap.routineAt p.main).WellFormed p.constants g'.heap ∧
    (∀ q ∈ decode (g'.heap.routineAt p.main).code, q.2.op.isLocal = false ∧ q.2.op.isFree = false) ∧
    ∀ (k : Nat) (r : Ref), p.constants[k]? = some (.function r) →
      (g'.heap.routineAt r).WellFormed p.constants g'.heap := by
  obtain ⟨p, g', hcompile⟩ := ok_of_isOk (show (compile {} limitsModule closureInLoop {}).1.isOk by decide +kernel)
  exact ⟨p, g', hcompile, compiled_wellFormed SymbolTable.withBuiltins_standard hcompile⟩

end Generator

end Scripting
