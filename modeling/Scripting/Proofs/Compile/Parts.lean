import Scripting.Proofs.Compile.Outcome
/-!
# `Proofs.Compile.Parts` — a program is compiled part by part

Statements that stand one after the other are compiled one after the other, each part from the state that the
one before has left (`compileStmts_append_ok`). A program is what comes of its statements, with the instruction
that suspends it at the end: `compile_of_stmts` and `stmts_of_compile` are the two directions.
-/

namespace Scripting

open Code

namespace Generator

open Fragment

/-! ## Statements in a row -/

variable {imports : Importer} {g g' gen : Generator} {exits : Bool}

/-- **A list of statements is compiled part by part.** The second part is left out if the first one exits. -/
theorem compileStmts_append_ok (hg : ∀ body, Growing (compileStmts imports body)) (a b : List Stmt)
    (h : compileStmts imports (a ++ b) g = .ok exits g') (hc : Clean g') :
    ∃ exits0 g0, compileStmts imports a g = .ok exits0 g0 ∧ Clean g0 ∧
      (exits0 = true ∧ g' = g0 ∨ exits0 = false ∧ compileStmts imports b g0 = .ok exits g') := by
  induction a generalizing g with
  | nil =>
    refine ⟨false, g, ?_, (hg b).clean h hc, .inr ⟨rfl, h⟩⟩
    rfl
  | cons s a ih =>
    rcases andThen_ok (hg (a ++ b)) h hc with ⟨rfl, hs⟩ | ⟨g1, hs, hrest⟩
    · exact ⟨true, g', by rw [compileStmts_cons, andThen_of_exit hs], hc, .inl ⟨rfl, rfl⟩⟩
    · obtain ⟨exits0, g0, ha, hclean, hb⟩ := ih hrest
      exact ⟨exits0, g0, by rw [compileStmts_cons, andThen_of_go hs, ha], hclean, hb⟩

/-- From `g` to `g'`, code was written by the rules, with no symbol in hand at its start. -/
def Adds (M : ModuleMap) (g : Generator) (f : Fragment) (g' : Generator) : Prop :=
  Writes g f g' ∧ ∃ exits, Builds M [] [] g.context f exits [] g'.context

variable {M : ModuleMap} {body : List Stmt}

theorem stmts_add (h : compileStmts (Importer.ofModules M) body g = .ok exits g') (hc : Clean g') :
    ∃ f, Adds M g f g' := by
  obtain ⟨f, hw, hf⟩ := (makes_stmts (importerBuilds_ofModules M) body).writes _ _ _ h hc
  exact ⟨f, hw, exits, hf [] [] (List.Subset.refl []) fun _ => rfl⟩

theorem Adds.refl (g : Generator) : Adds M g .nil g := ⟨.idle rfl, false, .nil⟩

/-! ## The end of a compilation -/

/-- The program `p` and the state `g'` are what a compilation gives whose statements ended in state `gen`. -/
structure Finishes (gen : Generator) (p : Program) (g' : Generator) : Prop where
  code : (g'.heap.routineAt p.main).code = gen.suspended.scope.code
  constants : p.constants = gen.constants
  routines : ∀ r < gen.heap.routines.size, g'.heap.routineAt r = gen.heap.routineAt r
  table : g'.table = gen.table

theorem finishes_suspended (files : FileSet) (gen : Generator) :
    Finishes gen { files, main := (gen.heap.newFunction gen.suspended.mainRoutine).1, constants := gen.constants }
      { gen.suspended with heap := (gen.heap.newFunction gen.suspended.mainRoutine).2 } where
  code := by
    show ((gen.heap.newFunction gen.suspended.mainRoutine).2.routineAt gen.heap.routines.size).code = _
    rw [routineAt_newFunction, if_pos rfl]
    rfl
  constants := rfl
  routines r hr := by
    rw [routineAt_newFunction, if_neg (Nat.ne_of_lt hr)]
  table := rfl

theorem program_of_stmts (h : compileStmts imports body g = .ok exits gen) (hc : Clean gen) :
    program imports body g = .ok () gen.suspended := by
  have hdiscard : discard (compileStmts imports body) g = .ok () gen := by
    show EStateM.map _ (compileStmts imports body) g = _
    unfold EStateM.map
    rw [h]
  unfold program
  rw [bind_apply, hdiscard]
  show (if gen.errors.isEmpty then emit_ Pos.none .suspend else pure ()) gen = _
  rw [if_pos (isEmpty_errors_iff.mpr hc)]
  rfl

variable {files : FileSet} {body : List Stmt} {p : Program}

/-- **Statements that compile without an error make a program.** -/
theorem compile_of_stmts (h : compileStmts (Importer.ofModules M) body g.fresh = .ok exits gen) (hc : Clean gen) :
    ∃ p g', compile files M body g = (.ok p, g') ∧ Finishes gen p g' := by
  refine ⟨_, _, ?_, finishes_suspended files gen⟩
  unfold compile
  rw [program_of_stmts h hc]
  exact if_pos (isEmpty_errors_iff.mpr hc)

/-- **A program comes from statements that compile without an error.** -/
theorem stmts_of_compile (h : compile files M body g = (.ok p, g')) :
    ∃ exits gen, compileStmts (Importer.ofModules M) body g.fresh = .ok exits gen ∧ Clean gen ∧
      Finishes gen p g' := by
  obtain ⟨exits, gen, hx, hclean, rfl, rfl⟩ := compile_finished h
  exact ⟨exits, gen, hx, hclean, finishes_suspended files gen⟩

end Generator

end Scripting
