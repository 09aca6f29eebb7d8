import Scripting.Proofs.Compile.Recovery
import Scripting.Proofs.Program.Blocks
/-!
# `Proofs.Program.Units` — one unit after the other

A generator compiles any number of units in turn, and the symbol table carries over from each call to the next,
whether the call succeeds or not. `compileAll_ready` says when the table is ready for another unit: the scopes that
are open inside the root are those of the functions in the middle of which a call has stopped, and a call stops in
the middle of a function only when it has given up, after more than `maxErrors` errors.

`giving_up_leaves_a_scope` is a call that does: the error after which it gives up is inside a function literal. The
next unit is then compiled as if it were part of that function.
-/

namespace Scripting

open List

namespace SymbolTable

theorem Tidy.booked {t : SymbolTable} (h : t.Tidy) : t.Booked where
  bound := Nat.le_of_eq h.level.symm
  level _ := h.level
  slots := h.slots

end SymbolTable

namespace Generator

open SymbolTable Importer

/-! ## A single call -/

theorem orderly_program (modules : ModuleMap) (body : List Stmt) :
    Orderly (program (ofModules modules) body) :=
  (orderly_stmts (orderly_importer modules) body).discard.bind fun _ => Obeys.get.bind fun _ =>
    .ite (.emit_ _ _ _) (.pure _)

variable {files : FileSet} {modules : ModuleMap} {body : List Stmt} {g : Generator}

/-- What the errors of a call that has failed are. -/
theorem compile_eq : ∃ gen, after (program (ofModules modules) body g.fresh) = gen ∧
      (compile files modules body g).2.table = gen.table ∧ (compile files modules body g).2.outer = gen.outer ∧
      (0 < gen.errors.size → (compile files modules body g).1 = .error gen.errors.toList) := by
  refine ⟨_, rfl, ?_⟩
  unfold compile
  cases program (ofModules modules) body g.fresh with
  | ok u gen | error u gen =>
    simp only [after]
    split
    · rename_i hempty
      refine ⟨rfl, rfl, fun hpos => ?_⟩
      rw [isEmpty_errors_iff] at hempty
      exact absurd hempty (Nat.ne_of_gt hpos)
    · exact ⟨rfl, rfl, fun _ => rfl⟩

/-- **What a call leaves behind.** The scopes that it has left open belong to functions that it has left open, and
there are such functions only if it has given up. -/
structure CallLeaves (g : Generator) (r : Except (List CompileError) Program × Generator) : Prop where
  table : g.table.StaysOpen r.2.table
  scopes : r.2.table.inner.length = g.table.inner.length + r.2.outer.length
  gaveUp : r.2.outer ≠ [] → ∃ errors, r.1 = .error errors ∧ maxErrors < errors.length

theorem compile_leaves (files : FileSet) (modules : ModuleMap) (body : List Stmt) (hb : g.table.Booked) :
    CallLeaves g (compile files modules body g) := by
  obtain ⟨gen, hgen, htable, houter, herrors⟩ := compile_eq
  cases hrun : program (ofModules modules) body g.fresh with
  | ok u g1 =>
    have hall := (orderly_program modules body).closes hrun hb
    rw [hrun] at hgen
    obtain rfl : g1 = gen := hgen
    have hclosed : g1.outer = [] := eq_nil_of_length_eq_zero hall.outer
    refine ⟨?_, ?_, fun hne => ?_⟩
    · rw [htable]
      exact hall.table
    · rw [htable, houter, hclosed]
      exact hall.inner_length
    · rw [houter, hclosed] at hne
      exact absurd rfl hne
  | error e g1 =>
    have hleaves := orderly_program modules body g.fresh
    rw [hrun] at hleaves hgen
    have hall := hleaves hb
    obtain rfl : g1 = gen := hgen
    -- the call has been given up, and it had not been before
    have hgave : g1.aborted = true := givesUp_stmts _ body g.fresh e g1 (program_error hrun)
    have hmany : maxErrors < g1.errors.size := (hall.aborted hgave).resolve_left (by simp [fresh])
    refine ⟨?_, ?_, fun _ => ?_⟩
    · rw [htable]
      exact hall.table
    · have hfun := hall.functions
      rw [htable, houter]
      exact hfun
    · exact ⟨g1.errors.toList, herrors (Nat.lt_of_le_of_lt (Nat.zero_le _) hmany), by simpa using hmany⟩

/-! ## Readiness -/

/-- Whatever stands after these statements is never reached. -/
def EndsUnit (files : FileSet) (modules : ModuleMap) (before : List Stmt) (g : Generator) : Prop :=
  ∀ rest, compile files modules (before ++ rest) g = compile files modules before g

/-- `name := value` -/
def defining (pos : Pos) (name : Name) (value : Expr) : Stmt :=
  .assign pos [.ident name.pos name.text] .define [value]

/-- **Ready for another unit.** Only the root is open; whatever is defined at the top level of the next unit becomes a
global variable with a slot that no variable had before, and a return statement at its top level is refused. -/
structure Ready (g : Generator) : Prop where
  rootOnly : g.table.inner = []
  slots : ∀ name sym, g.table.root.names.get? name = some sym → sym.kind = .globalVar →
    sym.index < g.table.globalSlots
  /-- The global variables after the next unit, even one with errors, are those from before and new ones. -/
  distinct : ∀ files modules body name sym,
    (compile files modules body g).2.table.root.names.get? name = some sym → sym.kind = .globalVar →
    g.table.root.names.get? name = some sym ∨ g.table.globalSlots ≤ sym.index
  defines : ∀ files modules before pos name value rest p g',
    compile files modules (before ++ defining pos name value :: rest) g = (.ok p, g') →
    EndsUnit files modules before g ∨ ∃ sym, g'.table.root.names.get? name.text = some sym ∧ sym.kind = .globalVar ∧
      g.table.globalSlots ≤ sym.index
  refuses : ∀ files modules before pos value rest p g',
    compile files modules (before ++ .ret pos value :: rest) g = (.ok p, g') → EndsUnit files modules before g

theorem ends_of_exit (h : compileStmts (ofModules modules) before g.fresh = .ok true g0) :
    EndsUnit files modules before g := by
  intro rest
  have hprogram : program (ofModules modules) (before ++ rest) g.fresh =
      program (ofModules modules) before g.fresh := by
    have hdiscard : discard (compileStmts (ofModules modules) (before ++ rest)) g.fresh =
        discard (compileStmts (ofModules modules) before) g.fresh := by
      show EStateM.map _ _ g.fresh = EStateM.map _ _ g.fresh
      unfold EStateM.map
      rw [compileStmts_of_exit h, h]
    unfold program
    rw [bind_apply, bind_apply, hdiscard]
  unfold compile
  rw [hprogram]

/-- Statements that compile: either those before a statement end the unit, or the statement is compiled at the top
level. -/
theorem reaches (hb : g.table.Booked) (hroot : g.table.inner = [])
    (h : compile files modules (before ++ s :: rest) g = (.ok p, g')) :
    EndsUnit files modules before g ∨ ∃ g0 exits g1, g.table.StaysOpen g0.table ∧ g0.table.inner = [] ∧
      compileStmt (ofModules modules) s g0 = .ok exits g1 ∧ g1.table.StaysOpen g'.table := by
  obtain ⟨exits, gen, hrun, hclean, hfin⟩ := stmts_of_compile h
  have hg (body : List Stmt) : Growing (compileStmts (ofModules modules) body) :=
    (makes_stmts (importerBuilds_ofModules modules) body).growing
  have hall (body : List Stmt) := orderly_stmts (orderly_importer modules) body
  obtain ⟨exits0, g0, hbefore, hclean0, hrest⟩ := compileStmts_append_ok hg before (s :: rest) hrun hclean
  have hleaves0 := (hall before).closes hbefore hb
  have hroot0 : g0.table.inner = [] := by
    refine eq_nil_of_length_eq_zero (hleaves0.inner_length.trans ?_)
    show g.table.inner.length = 0
    rw [hroot]
    rfl
  rcases hrest with ⟨rfl, -⟩ | ⟨-, hrest⟩
  · exact .inl (ends_of_exit hbefore)
  · right
    have hstmt {exits : Bool} {g1 : Generator} (h : compileStmt (ofModules modules) s g0 = .ok exits g1) :=
      (orderly_stmt (orderly_importer modules) s).closes h hleaves0.table.booked
    rcases andThen_ok (hg rest) hrest hclean with ⟨-, hs⟩ | ⟨g1, hs, hafter⟩
    · refine ⟨g0, true, gen, hleaves0.table, hroot0, hs, ?_⟩
      rw [hfin.table]
      exact .refl (hstmt hs).table.booked
    · have hleaves1 := (hall rest).closes hafter (hstmt hs).table.booked
      refine ⟨g0, false, g1, hleaves0.table, hroot0, hs, ?_⟩
      rw [hfin.table]
      exact hleaves1.table

theorem assign_define (pos at' : Pos) (name : String) (read selectors : Gen Unit) (value : Option String → Gen Unit) :
    assign pos .define (.ident at' name) read selectors value = resolveTop? name >>= fun found =>
      if isShadowable found then
        value (some name) >>= fun _ => define name >>= fun sym => storeValue pos .define sym 0 selectors
      else throw { cause := .redeclared name, pos } := by
  rw [assign_eq]
  simp only [assignTarget]
  rw [if_neg (by decide), if_neg (by decide), assignVariable_eq, if_pos rfl, bind_assoc]
  refine bind_congr fun found => ?_
  split
  · simp only [pure_bind, if_true]
  · exact throw_bind ..

/-- **A definition at the top level** is made in a table with nothing but the root open. -/
theorem defining_ok (himp : ∀ pos name body, Orderly (imports.compile pos name body)) (hb : g.table.Booked)
    (hroot : g.table.inner = []) (h : compileStmt imports (defining pos name value) g = .ok exits g') :
    ∃ t : SymbolTable, g.table.StaysOpen t ∧ t.inner = [] ∧ (t.define name.text).2.StaysOpen g'.table := by
  obtain ⟨_, _, hassign, hpure⟩ := bind_ok h
  cases hpure
  rw [assign_define] at hassign
  obtain ⟨found, _, hfound, hassign⟩ := bind_ok hassign
  cases hfound
  split at hassign
  · obtain ⟨_, g1, hvalue, hassign⟩ := bind_ok hassign
    obtain ⟨sym, g2, hdef, hstore⟩ := bind_ok hassign
    have hleft := ((recipe_expr (some name.text) value).orderly himp).closes hvalue hb
    have hroot1 : g1.table.inner = [] := by
      refine eq_nil_of_length_eq_zero (hleft.inner_length.trans ?_)
      rw [hroot]
      rfl
    have htable : g2.table = (g1.table.define name.text).2 := by
      cases hdef
      rfl
    have hbooked : g2.table.Booked := by
      rw [htable]
      exact (define_staysOpen hleft.table.booked name.text).booked
    have horderly : Orderly (storeValue pos .define sym 0 (compileSelectors imports (.ident name.pos name.text))) :=
      (Recipe.storeValue (mem_singleton_self sym) (recipe_selectors _ rfl)).orderly himp
    have hstored := horderly.closes hstore hbooked
    exact ⟨g1.table, hleft.table, hroot1, htable ▸ hstored.table⟩
  · cases hassign

/-- **A table with only its root open is ready.** -/
theorem ready_of_booked (hb : g.table.Booked) (hroot : g.table.inner = []) : Ready g where
  rootOnly := hroot
  slots := hb.slots
  distinct files modules body name sym hget hk := (compile_leaves files modules body hb).table.named name sym hget hk
  defines files modules before pos name value rest p g' h := by
    rcases reaches hb hroot h with hends | ⟨g0, exits, g1, hopen, hroot0, hs, hlater⟩
    · exact .inl hends
    · right
      obtain ⟨t, ht, hroot1, hdef⟩ := defining_ok (orderly_importer modules) hopen.booked hroot0 hs
      obtain ⟨sym, hget, hk, hle⟩ := StaysOpen.of_define ht.booked hroot1 (hdef.trans hlater)
      exact ⟨sym, hget, hk, Nat.le_trans (hopen.trans ht).peak hle⟩
  refuses files modules before pos value rest p g' h := by
    rcases reaches hb hroot h with hends | ⟨g0, exits, g1, -, hroot0, hs, -⟩
    · exact hends
    · -- outside every function the statement fails
      have hglobal : g0.table.inGlobal = true := by
        rw [inGlobal_eq, hroot0]
        rfl
      obtain ⟨_, _, hget, hs⟩ := bind_ok hs
      cases hget
      rw [if_pos hglobal] at hs
      cases hs

/-! ## Calls in a row -/

/-- What one call compiles. -/
structure SourceUnit where
  files : FileSet := {}
  modules : ModuleMap := .empty
  body : List Stmt

def compileUnit (u : SourceUnit) (g : Generator) : Except (List CompileError) Program × Generator :=
  compile u.files u.modules u.body g

/-- The generator after some calls. -/
def compileAll : List SourceUnit → Generator → Generator
  | [], g => g
  | u :: us, g => compileAll us (compileUnit u g).2

def outcomes : List SourceUnit → Generator → List (Except (List CompileError) Program)
  | [], _ => []
  | u :: us, g => (compileUnit u g).1 :: outcomes us (compileUnit u g).2

/-- The number of functions in the middle of which some calls have stopped. -/
def cutOff : List SourceUnit → Generator → Nat
  | [], _ => 0
  | u :: us, g => (compileUnit u g).2.outer.length + cutOff us (compileUnit u g).2

theorem compileAll_leaves (us : List SourceUnit) (hb : g.table.Booked) : (compileAll us g).table.Booked ∧
    (compileAll us g).table.inner.length = g.table.inner.length + cutOff us g := by
  induction us generalizing g with
  | nil => exact ⟨hb, rfl⟩
  | cons u us ih =>
    have hcall := compile_leaves u.files u.modules u.body hb
    obtain ⟨hbooked, hlength⟩ := ih (g := (compileUnit u g).2) hcall.table.booked
    refine ⟨hbooked, hlength.trans ?_⟩
    show (compileUnit u g).2.table.inner.length + _ = _ + ((compileUnit u g).2.outer.length + _)
    rw [← Nat.add_assoc]
    exact congrArg (· + _) hcall.scopes

/-- A call that stops in the middle of a function has given up. -/
theorem cutOff_eq_zero (us : List SourceUnit) (hb : g.table.Booked)
    (h : ∀ errors, .error errors ∈ outcomes us g → errors.length ≤ maxErrors) : cutOff us g = 0 := by
  induction us generalizing g with
  | nil => rfl
  | cons u us ih =>
    have hcall := compile_leaves u.files u.modules u.body hb
    have hnone : (compileUnit u g).2.outer = [] := by
      by_contra hne
      obtain ⟨errors, herr, hmany⟩ := hcall.gaveUp hne
      have hmem : .error errors ∈ outcomes (u :: us) g := by
        rw [outcomes, show (compileUnit u g).1 = .error errors from herr]
        exact mem_cons_self ..
      exact absurd (h errors hmem) (Nat.not_le_of_lt hmany)
    have hrest := ih (g := (compileUnit u g).2) hcall.table.booked fun errors hmem =>
      h errors (mem_cons_of_mem _ hmem)
    rw [cutOff, hnone, hrest]
    rfl

/-- **After any calls, the scopes that are open inside the root are those of the functions in the middle of which a
call has stopped.** If there are none, as when no call has found more than `maxErrors` errors, the generator is ready
for another unit. -/
theorem compileAll_ready (ht : g.table.Tidy) (us : List SourceUnit) :
    (compileAll us g).table.inner.length = cutOff us g ∧
    (cutOff us g = 0 → Ready (compileAll us g)) ∧
    ((∀ errors, .error errors ∈ outcomes us g → errors.length ≤ maxErrors) → cutOff us g = 0) := by
  obtain ⟨hbooked, hlength⟩ := compileAll_leaves us ht.booked
  rw [ht.inner, length_nil, Nat.zero_add] at hlength
  refine ⟨hlength, fun hzero => ?_, cutOff_eq_zero us ht.booked⟩
  exact ready_of_booked hbooked (eq_nil_of_length_eq_zero (hlength.trans hzero))

/-- `u; ..; u`, where `u` is no variable. -/
def unresolved (n : Nat) : List Stmt := replicate n (.expr .none (.ident .none "u"))

/-- `func() { u; ..; u }` -/
def failing (n : Nat) : SourceUnit := { body := [.expr .none (.func .none [] false (unresolved n))] }

/-- Ten errors inside a function, eleven errors outside every function, a unit without errors: `y := 1`. -/
theorem ready_after_errors : Ready (compileAll [failing 10, { body := unresolved 11 },
    { body := [assigning .define "y" (.int .none 1)] }] {}) := by
  obtain ⟨-, hready, -⟩ := compileAll_ready (g := {}) withBuiltins_tidy [failing 10, { body := unresolved 11 },
    { body := [assigning .define "y" (.int .none 1)] }]
  exact hready (by decide +kernel)

/-- **Giving up inside a function leaves its scope open.** After eleven errors in a function literal, `x := 1; return 2`
compiles, and `x` is no global variable. -/
theorem giving_up_leaves_a_scope : (compileAll [failing 11] {}).table.inner.length = 1 ∧
    (compileUnit { body := [assigning .define "x" (.int .none 1), .ret .none (some (.int .none 2))] }
      (compileAll [failing 11] {})).1.isOk = true ∧
    (compileAll [failing 11, { body := [assigning .define "x" (.int .none 1)] }] {}).table.root.names.get? "x" =
      none := by
  decide +kernel

end Generator

end Scripting
