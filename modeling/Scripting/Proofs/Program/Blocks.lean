import Scripting.Proofs.Compile.Parts
import Scripting.Proofs.Compile.Slots
import Scripting.Proofs.Program.Safety
/-!
# `Proofs.Program.Blocks` — the slots of blocks outside every function

A variable of a block outside every function lives in a global slot, and a function may still refer to it
when its block has ended. So its slot should not be given away again.

It is not, once the *outermost* block around it has ended. Take a program with a statement that runs in a block
of its own among its top-level statements. `blocks_keep_their_slots` cuts the code and the constants of the
program in three, and says which slots each part touches: the slots from `g0.table.globalSlots` on that the
statement takes are touched by its own code and its own functions only.

Inside that statement the slots of a nested block are free again as soon as the nested block ends, even if
a function refers to them. `nested_block_loses_its_slot` is a program in which a function reads a variable that
has nothing to do with it.
-/

namespace Scripting

open Code List Importer

/-- The statements that run in a block of their own. -/
def Stmt.isCompound : Stmt → Bool
  | .block .. | .branch .. | .loop .. | .forIn .. => true
  | _ => false

namespace Generator

open Fragment SymbolTable

variable {imports : Importer} {M : ModuleMap} {g g' : Generator} {exits : Bool}

/-- A statement with a block of its own is compiled in a block by the rules. -/
theorem makesBlock_stmt (himp : ImporterBuilds M imports) (h : s.isCompound = true) :
    ∃ x, compileStmt imports s = inBlock x ∧ Makes M [] .flat id x := by
  cases s with
  | block pos body =>
    refine ⟨_, ?_, makes_stmts himp body⟩
    rfl
  | branch pos init test body other =>
    unfold compileStmt
    rw [compileOther_eq]
    exact ⟨_, rfl, (Recipe.tested (recipe_simple init) (recipe_expr none test) (recipe_stmts body)
      (recipe_other other)).makes himp⟩
  | loop pos init test post body =>
    unfold compileStmt
    rw [loop_eq, compileTest_eq]
    exact ⟨_, rfl, (Recipe.looped (recipe_simple init) (recipe_test test) (recipe_stmts body)
      (recipe_simple post)).makes himp⟩
  | forIn pos key value iterable body =>
    unfold compileStmt
    rw [forIn_eq]
    exact ⟨_, rfl, (Recipe.iterated (recipe_expr none iterable) (recipe_stmts body)).makes himp⟩
  | expr | assign | step | breakLoop | continueLoop | ret | exportValue | empty => cases h

/-- A statement with a block of its own leaves no name behind. -/
theorem compound_adds (hs : s.isCompound = true)
    (h : compileStmts (ofModules M) [s] g = .ok exits g') (hc : Clean g')
    (hq : g.context.ModulesHave Silent) : ∃ f, Adds M g f g' ∧ g'.table.root.names = g.table.root.names := by
  have hrun : compileStmt (ofModules M) s g = .ok exits g' := by
    have hnil : Growing (compileStmts (ofModules M) []) :=
      (makes_stmts (importerBuilds_ofModules M) []).growing
    rcases andThen_ok hnil h hc with ⟨rfl, hrun⟩ | ⟨g1, hrun, hrest⟩
    · exact hrun
    · cases hrest
      exact hrun
  obtain ⟨x, hx, hmakes⟩ := makesBlock_stmt (importerBuilds_ofModules M) hs
  rw [hx] at hrun
  have hemits : Emits (inBlock x) fun c exits c' f => ∃ c1, Builds M [] [] c.enter f exits [] c1 ∧ c' = c1.leave :=
    Emits.inBlock hmakes fun c a c' f hf => ⟨c', hf [] [] (Subset.refl []) fun _ => rfl, rfl⟩
  obtain ⟨f, hw, c1, hf, hleave⟩ := hemits.writes _ _ _ hrun hc
  refine ⟨f, ⟨hw, exits, hleave ▸ .block hf⟩, ?_⟩
  have hwidens : (g.table.enter true).Widens c1.table := hf.widens hq
  have htable : g'.table = c1.table.leave.2 := congrArg Context.table hleave
  rw [htable, (root_leave c1.table).1]
  exact (hwidens.nested (cons_ne_nil _ _)).1

end Generator

/-! ## Slots that the parts of a program touch -/

/-- A place in a program: so many bytes of code and so many constants come before it. -/
structure Program.Cut where
  offset : Nat
  constants : Nat

/-- The end of a program, before the instruction that suspends it. -/
def Program.cut (p : Program) (h : Heap) : Program.Cut := ⟨(h.routineAt p.main).code.size - 1, p.constants.size⟩

/-- Between two places, the main code or a function among the constants touches a global slot. -/
def Program.Touches (p : Program) (h : Heap) (a b : Program.Cut) (slot : Nat) : Prop :=
  (∃ i ∈ decode (h.routineAt p.main).code, a.offset ≤ i.1 ∧ i.1 < b.offset ∧ i.2.globalSlot? = some slot) ∨
    ∃ k r, a.constants ≤ k ∧ k < b.constants ∧ p.constants[k]? = some (.function r) ∧
      Code.Touches (h.routineAt r).code slot

/-- The program `p` begins with what the program `q` does before it is suspended. -/
structure Program.Begins (q : Program) (k : Heap) (p : Program) (h : Heap) : Prop where
  code : (k.routineAt q.main).code.toList.dropLast <+: (h.routineAt p.main).code.toList.dropLast
  constants : q.constants.toList <+: p.constants.toList
  functions : ∀ (i : Nat) (r : Ref), q.constants[i]? = some (.function r) → h.routineAt r = k.routineAt r

namespace Generator

open Fragment SymbolTable

variable {M : ModuleMap} {g g' gen ga gb : Generator} {p : Program}

/-- The place that a compilation has reached. -/
def cut (g : Generator) : Program.Cut := ⟨g.scope.code.size, g.constants.size⟩

theorem size_suspended : gen.suspended.scope.code.size = gen.scope.code.size + 1 := gen.writes_suspended.size

theorem Finishes.cut_eq (h : Finishes gen p g') : p.cut g'.heap = gen.cut := by
  unfold Program.cut cut
  rw [h.code, h.constants, size_suspended, Nat.add_sub_cancel]

/-- **What one part of a program touches.** -/
theorem Finishes.touches (hfin : Finishes gen p g') (ha : Writes g.fresh a ga) (hb : Writes ga b gb)
    (hd : Writes gb d gen) (hle : gb.context.Le gen.context) (hu : Uses S low ga.context gb.context b.ops)
    (ht : p.Touches g'.heap ga.cut gb.cut slot) : MayUse S low gb.table slot := by
  have hsa : ga.scope.code.size = a.size := by
    rw [ha.size]
    exact Nat.zero_add _
  have hsb : gb.scope.code.size = a.size + b.size := by rw [hb.size, hsa]
  rcases ht with ⟨i, hi, hlo, hhi, hslot⟩ | ⟨k, r, hlo, hhi, hk, htouch⟩
  · have hw := ha.trans (hb.trans (hd.trans gen.writes_suspended))
    have hasm : Assembled (.seq a (.seq b (.seq d (.op ⟨.suspend, []⟩)))) gen.suspended.scope.code :=
      ⟨hw.code, hw.fits, hw.closed rfl⟩
    rw [hfin.code] at hi
    rcases hasm.mem_part hi (hsa ▸ hlo) (hsb ▸ hhi) with hjump | hop
    · rw [globalSlot?_of_isJump hjump] at hslot
      cases hslot
    · exact hu.ops i.2 hop slot hslot
  · -- the function was there when its part was compiled
    have hlt : k < gb.context.constants.size := hhi
    have hold := hle.constants (Array.getElem?_eq_getElem hlt)
    rw [show gen.context.constants = p.constants from hfin.constants.symm, hk] at hold
    obtain ⟨hr, hslots⟩ := hu.functions k r hlo (by rw [Array.getElem?_eq_getElem hlt, hold])
    refine hslots slot ?_
    rw [hfin.routines r (Nat.lt_of_lt_of_le hr hle.routines_size)] at htouch
    rw [← hle.routines hr]
    exact htouch

theorem Finishes.begins (hq : Finishes ga q g1) (hp : Finishes gen p g') (hw : Writes ga f gen)
    (hle : ga.context.Le gen.context)
    (hr : ∀ (i : Nat) (r : Ref), ga.constants[i]? = some (.function r) → r < ga.heap.routines.size) :
    q.Begins g1.heap p g'.heap where
  code := by
    have hdrop (g : Generator) : g.suspended.scope.code.toList.dropLast = g.scope.code.toList := by
      simp [suspended, Instruction.assemble]
    rw [hq.code, hp.code, hdrop, hdrop]
    exact ⟨_, hw.code.symm⟩
  constants := by
    rw [hq.constants, hp.constants, prefix_iff_getElem?]
    intro i hi
    have hk : gen.constants[i]? = _ := hle.constants (Array.getElem?_eq_getElem hi)
    simpa using hk
  functions i r hi := by
    rw [hq.constants] at hi
    have hlt := hr i r hi
    have hlt' : r < gen.heap.routines.size := Nat.lt_of_lt_of_le hlt hle.routines_size
    rw [hp.routines r hlt', hq.routines r hlt]
    exact hle.routines hlt

end Generator

/-! ## Tables between programs -/

namespace SymbolTable

/-- **A table between programs.** Only the root is open, every slot that was given away counts as taken, and
the global variables have such slots. -/
structure Tidy (t : SymbolTable) : Prop where
  inner : t.inner = []
  level : t.root.peak = t.root.defined
  slots : ∀ name sym, t.root.names.get? name = some sym → sym.kind = .globalVar → sym.index < t.globalSlots

/-- The slot of a global variable that has a name in the root. -/
def IsGlobal (t : SymbolTable) (slot : Nat) : Prop :=
  ∃ name sym, t.root.names.get? name = some sym ∧ sym.kind = .globalVar ∧ sym.index = slot

variable {t t' : SymbolTable}

theorem Tidy.inSight (h : t.Tidy) : InSight (fun _ => False) 0 t where
  seen sym hs hk := by
    obtain ⟨s, hmem, name, hget⟩ := hs
    rw [h.inner, nil_append, mem_singleton] at hmem
    subst hmem
    exact .inr ⟨Nat.zero_le _, h.slots name sym hget hk⟩
  room _ := Nat.zero_le _

theorem Tidy.inSight_globals (h : t.Tidy) (hS : ∀ slot, t.IsGlobal slot → S slot) : InSight S t.globalSlots t where
  seen sym hs hk := by
    obtain ⟨s, hmem, name, hget⟩ := hs
    rw [h.inner, nil_append, mem_singleton] at hmem
    subst hmem
    exact .inl (hS _ ⟨name, sym, hget, hk, rfl⟩)
  room _ := Nat.le_of_eq h.level

theorem Tidy.of_widens (h : t.Tidy) (hw : t.Widens t') (hs : InSight (fun _ => False) 0 t') : t'.Tidy where
  inner := hw.inner_eq_nil.mpr h.inner
  level := hw.level h.inner h.level
  slots name sym hget hk := by
    rcases hs.seen sym ⟨t'.root, by simp, name, hget⟩ hk with hf | ⟨-, hlt⟩
    · exact hf.elim
    · exact hlt

theorem Tidy.defineBuiltin (h : t.Tidy) (index : Nat) (name : String) : (t.defineBuiltin index name).2.Tidy where
  inner := h.inner
  level := h.level
  slots name' sym hget hk := by
    have hget' : (t.root.names.insert name ⟨name, .builtin, index⟩).get? name' = some sym := hget
    rw [Dict.get?_insert] at hget'
    split at hget'
    · cases hget'
      cases hk
    · exact h.slots name' sym hget' hk

theorem withBuiltins_tidy : withBuiltins.Tidy := by
  have hall : ∀ (bs : List Builtin) (t : SymbolTable), t.Tidy →
      (bs.foldl (fun t b => (t.defineBuiltin b.index b.name).2) t).Tidy := by
    intro bs
    induction bs with
    | nil => exact fun t h => h
    | cons b bs ih => exact fun t h => ih _ (h.defineBuiltin b.index b.name)
  exact hall _ _ ⟨rfl, rfl, fun name sym hget => by cases hget⟩

end SymbolTable

namespace Generator

open SymbolTable

/-- **The block variables of one statement stay its own.** `p0` ends before the statement, `p1` right after it,
and `p` is the whole program. -/
structure KeepsBlock (p0 : Program) (g0 : Generator) (p1 : Program) (g1 : Generator) (p : Program)
    (g' : Generator) : Prop where
  begins : p0.Begins g0.heap p1 g1.heap ∧ p1.Begins g1.heap p g'.heap
  /-- The slots of variables with a name in the root are below those of the statement. -/
  tidy : g0.table.Tidy
  names : g1.table.root.names = g0.table.root.names
  before : ∀ slot, p.Touches g'.heap ⟨0, 0⟩ (p0.cut g0.heap) slot → slot < g0.table.globalSlots
  inside : ∀ slot, p.Touches g'.heap (p0.cut g0.heap) (p1.cut g1.heap) slot →
    g0.table.IsGlobal slot ∨ g0.table.globalSlots ≤ slot ∧ slot < g1.table.globalSlots
  after : ∀ slot, p.Touches g'.heap (p1.cut g1.heap) (p.cut g'.heap) slot →
    g0.table.IsGlobal slot ∨ g1.table.globalSlots ≤ slot

/-- **A block outside every function keeps its slots.** What is compiled after a top-level statement with a block
of its own touches none of the slots that the statement has taken for the variables of its blocks, the hidden
iterators of its loops included. -/
theorem blocks_keep_their_slots {files : FileSet} {modules : ModuleMap} {before after : List Stmt} {s : Stmt}
    {g g' : Generator} {p : Program} (ht : g.table.Tidy) (hs : s.isCompound = true)
    (h : compile files modules (before ++ s :: after) g = (.ok p, g')) :
    ∃ p₀ g₀ p₁ g₁, compile files modules before g = (.ok p₀, g₀) ∧
      compile files modules (before ++ [s]) g = (.ok p₁, g₁) ∧ KeepsBlock p₀ g₀ p₁ g₁ p g' := by
  obtain ⟨exits, gen, hrun, hclean, hfin⟩ := stmts_of_compile h
  have hg (body : List Stmt) : Growing (compileStmts (ofModules modules) body) :=
    (makes_stmts (importerBuilds_ofModules modules) body).growing
  rw [append_cons] at hrun
  obtain ⟨e₁, gen₁, hrun₁, hclean₁, hafter⟩ := compileStmts_append_ok hg (before ++ [s]) after hrun hclean
  obtain ⟨e₀, gen₀, hrun₀, hclean₀, hmiddle⟩ := compileStmts_append_ok hg before [s] hrun₁ hclean₁
  -- the three parts; one that comes after an endless loop is left out
  obtain ⟨f₀, hw₀, _, hb₀⟩ := stmts_add hrun₀ hclean₀
  have hquiet : g.fresh.context.ModulesHave Silent := fun _ _ hget => by cases hget
  have hu₀ : Uses (fun _ => False) 0 g.fresh.context gen₀.context f₀.ops :=
    hb₀.uses ht.inSight (fun _ hmem => by cases hmem) hquiet
  have ht₀ : gen₀.table.Tidy := ht.of_widens hu₀.widens hu₀.sight
  obtain ⟨f₁, ⟨hw₁, _, hb₁⟩, hnames⟩ :
      ∃ f, Adds modules gen₀ f gen₁ ∧ gen₁.table.root.names = gen₀.table.root.names := by
    rcases hmiddle with ⟨-, rfl⟩ | ⟨-, hrun⟩
    · exact ⟨.nil, .refl _, rfl⟩
    · exact compound_adds hs hrun hclean₁ hu₀.modules
  have hu₁ : Uses gen₀.table.IsGlobal gen₀.table.globalSlots gen₀.context gen₁.context f₁.ops :=
    hb₁.uses (ht₀.inSight_globals fun _ hslot => hslot) (fun _ hmem => by cases hmem) hu₀.modules
  have hu₁' : Uses (fun _ => False) 0 gen₀.context gen₁.context f₁.ops :=
    hb₁.uses ht₀.inSight (fun _ hmem => by cases hmem) hu₀.modules
  have ht₁ : gen₁.table.Tidy := ht₀.of_widens hu₁'.widens hu₁'.sight
  obtain ⟨f₂, hw₂, _, hb₂⟩ : ∃ f, Adds modules gen₁ f gen := by
    rcases hafter with ⟨-, rfl⟩ | ⟨-, hrun⟩
    · exact ⟨.nil, .refl _⟩
    · exact stmts_add hrun hclean
  have hu₂ : Uses gen₀.table.IsGlobal gen₁.table.globalSlots gen₁.context gen.context f₂.ops := by
    refine hb₂.uses (ht₁.inSight_globals ?_) (fun _ hmem => by cases hmem) hu₁.modules
    rintro slot ⟨name, sym, hget, hsym⟩
    rw [hnames] at hget
    exact ⟨name, sym, hget, hsym⟩
  -- what they are as programs
  obtain ⟨p₀, g₀, hcompile₀, hfin₀⟩ : ∃ p₀ g₀, compile files modules before g = (.ok p₀, g₀) ∧ Finishes gen₀ p₀ g₀ :=
    compile_of_stmts hrun₀ hclean₀
  obtain ⟨p₁, g₁, hcompile₁, hfin₁⟩ :
      ∃ p₁ g₁, compile files modules (before ++ [s]) g = (.ok p₁, g₁) ∧ Finishes gen₁ p₁ g₁ :=
    compile_of_stmts hrun₁ hclean₁
  have hr₀ (i : Nat) (r : Ref) (hi : gen₀.constants[i]? = some (.function r)) : r < gen₀.heap.routines.size :=
    (hu₀.functions i r (Nat.zero_le _) hi).1
  have hr₁ (i : Nat) (r : Ref) (hi : gen₁.constants[i]? = some (.function r)) : r < gen₁.heap.routines.size :=
    ((hu₀.seq hu₁' hb₁.le).functions i r (Nat.zero_le _) hi).1
  refine ⟨p₀, g₀, p₁, g₁, hcompile₀, hcompile₁, ⟨hfin₀.begins hfin₁ hw₁ hb₁.le hr₀,
    hfin₁.begins hfin hw₂ hb₂.le hr₁⟩, ?_, ?_, fun slot htouch => ?_, fun slot htouch => ?_, fun slot htouch => ?_⟩
  · rw [hfin₀.table]
    exact ht₀
  · rw [hfin₀.table, hfin₁.table]
    exact hnames
  · rw [hfin₀.cut_eq] at htouch
    rw [hfin₀.table]
    have hnil : Writes g.fresh .nil g.fresh := .idle rfl
    rcases hfin.touches hnil hw₀ (hw₁.trans hw₂) (hb₁.le.trans hb₂.le) hu₀ htouch with hf | ⟨-, hlt⟩
    · exact hf.elim
    · exact hlt
  · rw [hfin₀.cut_eq, hfin₁.cut_eq] at htouch
    rw [hfin₀.table, hfin₁.table]
    exact hfin.touches hw₀ hw₁ hw₂ hb₂.le hu₁ htouch
  · rw [hfin₁.cut_eq, hfin.cut_eq] at htouch
    rw [hfin₀.table, hfin₁.table]
    have hnil : Writes gen .nil gen := .idle rfl
    exact (hfin.touches (hw₀.trans hw₁) hw₂ hnil (.refl _) hu₂ htouch).imp_right And.left

/-- `name := value` or `name = value` -/
def assigning (op : Operator) (name : String) (value : Expr) : Stmt := .assign .none [.ident .none name] op [value]

/-- `y := 1; f = func() { return y }` -/
def keepingY : List Stmt := [ assigning .define "y" (.int .none 1),
  assigning .assign "f" (.func .none [] false [.ret .none (some (.ident .none "y"))])]

/-- `f := undefined; out := 0` -/
def twoGlobals : List Stmt := [assigning .define "f" (.undefined .none), assigning .define "out" (.int .none 0)]

/-- `out = f()` -/
def callF : Stmt := assigning .assign "out" (.call .none (.ident .none "f") [] false)

/-- `f := undefined; out := 0; { y := 1; f = func() { return y } } { z := 2; out = f() }` -/
theorem sibling_keeps_its_slot : ∃ p g' p₀ g₀ p₁ g₁, compile {} .empty (twoGlobals ++ .block .none keepingY ::
      [.block .none [assigning .define "z" (.int .none 2), callF]]) {} = (.ok p, g') ∧
    compile {} .empty twoGlobals {} = (.ok p₀, g₀) ∧
    compile {} .empty (twoGlobals ++ [.block .none keepingY]) {} = (.ok p₁, g₁) ∧
    KeepsBlock p₀ g₀ p₁ g₁ p g' := by
  obtain ⟨p, g', hcompile⟩ := ok_of_isOk (show (compile {} .empty (twoGlobals ++ .block .none keepingY ::
    [.block .none [assigning .define "z" (.int .none 2), callF]]) {}).1.isOk by decide +kernel)
  obtain ⟨p₀, g₀, p₁, g₁, h₀, h₁, hkeeps⟩ := blocks_keep_their_slots SymbolTable.withBuiltins_tidy rfl hcompile
  exact ⟨p, g', p₀, g₀, p₁, g₁, hcompile, h₀, h₁, hkeeps⟩

/-- The value of a global slot after a program has run alone. -/
def slotAfter (body : List Stmt) (slot : Nat) : Option Value :=
  match compile {} .empty body {} with
  | (.ok p, g) => (p.run {} echoHost (Array.replicate g.table.globalSlots .undefined) g.heap 100).globals[slot]?
  | (.error _, _) => none

/-- **A nested block loses its slot.** In `f := undefined; out := 0; { { y := 1; f = func() { return y } }
z := 2; out = f() }`, the variable `z` is given the slot of `y`, so `f` returns two. With `z` in a block
of its own after the outer one, it returns one. -/
theorem nested_block_loses_its_slot : slotAfter (twoGlobals ++ [.block .none
      [.block .none keepingY, assigning .define "z" (.int .none 2), callF]]) 1 = some (.int 2) ∧
    slotAfter (twoGlobals ++ [.block .none keepingY,
      .block .none [assigning .define "z" (.int .none 2), callF]]) 1 = some (.int 1) := by
  decide +kernel

end Generator

end Scripting
