import Scripting.Proofs.Compile.WellTyped
import Scripting.Proofs.Program.Linking
/-!
# `Proofs.Compile.Outcome` — what a compilation that succeeds has made

A compilation succeeds only if the walk over the tree went through without an error (`compile_ok`). Then
the code of the program is a fragment that ends with the instruction that suspends, and everything that the
program refers to is sound (`compile_sound`).
-/

namespace Scripting

namespace Generator

open Code Fragment

variable {O : Origin} {M : ModuleMap} {imports : Importer}

/-! ## Programs -/

theorem isEmpty_errors_iff : g.errors.isEmpty = true ↔ Clean g := by
  simp [Clean]

theorem program_error (h : program imports body g = .error e g') : compileStmts imports body g = .error e g' := by
  unfold program at h
  rw [bind_apply] at h
  cases hx : discard (compileStmts imports body) g with
  | error e1 g1 =>
    rw [hx] at h
    cases h
    have hx' : EStateM.map _ (compileStmts imports body) g = .error e g' := hx
    unfold EStateM.map at hx'
    cases hy : compileStmts imports body g with
    | ok a g1 => rw [hy] at hx'; cases hx'
    | error e1 g1 =>
      rw [hy] at hx'
      cases hx'
      rfl
  | ok u g1 =>
    rw [hx] at h
    have h' : (if g1.errors.isEmpty then emit_ Pos.none .suspend else pure ()) g1 = .error e g' := h
    split at h' <;> cases h'

/-- A compilation that fails has recorded an error, unless it had been given up before. -/
theorem program_loud (himp : ImporterBuilds M imports) (h : program imports body g = .error e g') :
    g.aborted = true ∨ 0 < g'.errors.size := by
  have herror := program_error h
  have hgrows := (makes_stmts himp body).growing.grows g
  rw [herror] at hgrows
  exact hgrows.aborted (givesUp_stmts imports body g e g' herror)

/-- The routine that a finished compilation makes of its code. -/
def mainRoutine (g : Generator) : Routine := { code := g.scope.code, positions := g.scope.positions }

/-- **A compilation that succeeds has gone through without an error.** -/
theorem compile_ok {modules : ModuleMap} (h : compile files modules body g = (.ok p, g')) :
    ∃ gen, program (Importer.ofModules modules) body g.fresh = .ok () gen ∧ Clean gen ∧
      p = { files, main := (gen.heap.newFunction gen.mainRoutine).1, constants := gen.constants } ∧
      g' = { gen with heap := (gen.heap.newFunction gen.mainRoutine).2 } := by
  unfold compile at h
  cases hrun : program (Importer.ofModules modules) body g.fresh with
  | ok u gen =>
    simp only [hrun] at h
    split at h
    · rename_i hempty
      obtain ⟨hp, hg⟩ := Prod.mk.inj h
      exact ⟨gen, rfl, isEmpty_errors_iff.mp hempty, (Except.ok.inj hp).symm, hg.symm⟩
    · cases h
  | error e gen =>
    simp only [hrun] at h
    split at h
    · rename_i hempty
      rcases program_loud (importerBuilds_ofModules modules) hrun with ha | hpos
      · cases ha
      · exact absurd (isEmpty_errors_iff.mp hempty) (Nat.ne_of_gt hpos)
    · cases h

/-- The state after the instruction that suspends the program. -/
def suspended (gen : Generator) : Generator :=
  { gen with scope := { gen.scope with code := gen.scope.code ++ (Instruction.assemble ⟨.suspend, []⟩).toArray } }

theorem writes_suspended (gen : Generator) : Writes gen (.op ⟨.suspend, []⟩) gen.suspended := by
  have hemit : emit Pos.none .suspend [] gen = .ok gen.scope.code.size gen.suspended := rfl
  exact (emit_writes rfl hemit).1

theorem compile_finished (h : compile files M body g = (.ok p, g')) :
    ∃ exits gen, compileStmts (Importer.ofModules M) body g.fresh = .ok exits gen ∧ Clean gen ∧
      p = { files, main := (gen.heap.newFunction gen.suspended.mainRoutine).1, constants := gen.constants } ∧
      g' = { gen.suspended with heap := (gen.heap.newFunction gen.suspended.mainRoutine).2 } := by
  obtain ⟨last, hrun, hclean, rfl, rfl⟩ := compile_ok h
  obtain ⟨_, gen, hx, hrest⟩ := bind_ok hrun
  obtain ⟨_, _, hget, hrest⟩ := bind_ok hrest
  cases hget
  obtain ⟨exits, hx⟩ := discard_ok hx
  have hgrow : Growing (if gen.errors.isEmpty then emit_ Pos.none .suspend else pure ()) :=
    Obeys.ite (Obeys.emit_ _ _ _) (Obeys.pure _)
  have hclean' : Clean gen := hgrow.clean hrest hclean
  rw [if_pos (isEmpty_errors_iff.mpr hclean')] at hrest
  cases hrest
  exact ⟨exits, gen, hx, hclean', rfl, rfl⟩

/-- Where the compilation of a program begins. -/
def origin (g : Generator) (modules : ModuleMap) : Origin := ⟨g.heap.routines.size, g.heap.maps.size, modules⟩

theorem fresh_sound {g : Generator} (ht : g.table.Standard) (modules : ModuleMap) :
    g.fresh.context.Sound (g.origin modules) where
  table := ht.valid
  constants h := by simp [fresh, context] at h
  modules h := by cases h
  routines h := absurd h.new (Nat.not_le_of_lt h.lt)
  origin := ⟨Nat.le_refl _, Nat.le_refl _⟩

/-- **What a compiled program is**: its functions are typed, its constants are those a compilation makes,
and the main function, which comes last, has no variables of its own. -/
structure Compiled (O : Origin) (p : Program) (h : Heap) : Prop where
  checked : Checked p.constants h.routines (Made O h)
  constants : ∀ {k : Nat} {v : Value}, p.constants[k]? = some v → Allowed O h v
  main : Made O h 0 p.main
  locals : (h.routineAt p.main).locals = 0
  last : ∀ {k : Nat} {r : Ref}, p.constants[k]? = some (.function r) → r < p.main

theorem Context.Sound.checked {c : Context} (h : c.Sound O) : Checked c.constants c.heap.routines (Made O c.heap) :=
  ⟨fun hm => hm.free, fun hm => h.routines hm⟩

/-- **Everything that a compiled program refers to is sound.** -/
theorem compile_sound {modules : ModuleMap} (ht : g.table.Standard)
    (h : compile files modules body g = (.ok p, g')) : Compiled (g.origin modules) p g'.heap := by
  obtain ⟨exits, gen, hrun, hclean, rfl, rfl⟩ := compile_finished h
  obtain ⟨b, hw, hb⟩ := (makes_stmts (importerBuilds_ofModules modules) body).writes _ _ _ hrun hclean
  have hbuilds : Builds modules [] [] g.fresh.context b exits [] gen.context :=
    hb [] [] (List.Subset.refl []) fun _ => rfl
  obtain ⟨hs, htable, hf⟩ := hbuilds.leads (O := g.origin modules) (inHand_nil _) (fresh_sound ht modules)
  -- no function is open, so there are no local variables
  have hinner : gen.table.inner = [] := by
    have hin := htable.inner
    rw [show g.fresh.context.table.inner = [] from ht.inner] at hin
    exact List.forall₂_nil_left_iff.mp hin
  have hbounds : gen.context.table.bounds = ⟨0, 0⟩ := by
    show SymbolTable.boundsIn gen.table.inner = _
    rw [hinner]
    rfl
  have hw' := hw.trans gen.writes_suspended
  have hasm : Assembled (.seq b (.op ⟨.suspend, []⟩)) gen.suspended.mainRoutine.code :=
    ⟨hw'.code, hw'.fits, hw'.closed rfl⟩
  rw [hbounds] at hf
  obtain ⟨hs', hmade⟩ := hs.withHeapRoutine hasm (Typed.seq hf .suspend)
  refine ⟨hs'.checked, hs'.constants, hmade, ?_, fun hr => ?_⟩
  · show ((gen.heap.newFunction gen.suspended.mainRoutine).2.routineAt gen.heap.routines.size).locals = 0
    rw [routineAt_newFunction, if_pos rfl]
    rfl
  · obtain ⟨n, hold⟩ := hs.constants hr
    exact hold.lt

end Generator

end Scripting
