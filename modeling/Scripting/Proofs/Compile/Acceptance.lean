import Mathlib.Data.List.Perm.Subperm
import Scripting.Proofs.Compile.Checks
/-!
# `Proofs.Compile.Acceptance` — the compiler accepts exactly the valid programs

Each construct checks its part of the rules, so by induction on the syntax tree expressions and statements check
theirs (`judges_expr`, `judges_stmt`), and by induction on the depth of imports so do modules
(`serves_compileModule`). A program therefore compiles exactly if it is valid, unless a limit is exceeded
(`compile_accepts_iff_valid`).
-/

namespace Scripting

open Stmt List

namespace Generator

variable {B : Backdrop} {c : Setting} {pos : Pos} {imports : Importer}

/-! ## Imports -/

/-- **An importer that checks the modules it compiles.** -/
structure Serves (B : Backdrop) (imports : Importer) : Prop where
  modules : imports.modules = B.modules
  asks : ∀ c pos name body, name ≠ "" → B.modules.get? name = some (.source body) →
    Asks B c (fun R => R name) (imports.compile pos name body)

/-- **An import** names a module that can be imported. -/
theorem Serves.load (h : Serves B imports) (name : String) : Asks B c (fun R => R name) (imports.load pos name) := by
  unfold Importer.load
  split
  · rename_i hempty
    refine .refused fun R hR hname => ?_
    have hne : name ≠ "" := by cases hR name hname <;> assumption
    exact hne (String.isEmpty_iff.mp hempty)
  · rename_i hempty
    have hne : name ≠ "" := fun h => hempty (String.isEmpty_iff.mpr h)
    rw [h.modules]
    cases hget : B.modules.get? name with
    | none =>
      refine .refused fun R hR hname => ?_
      cases hR name hname <;> simp_all
    | some m =>
      cases m with
      | builtin attributes =>
        exact ((Obeys.newFrozenMap attributes).bind fun _ => Obeys.emitConstant _ _).kept (.builtin hne hget)
      | source body =>
        exact (h.asks c pos name body hne hget).quiet fun _ => (Obeys.emitConstant _ _).bind fun _ =>
          Obeys.emit_ _ _ _

/-! ## Expressions and statements -/

/-- The rules for the selectors of the target of an assignment. -/
def ValidSelectors (R : String → Prop) (c : Setting) : Expr → Prop
  | .index _ target key => key.Valid R c none ∧ ValidSelectors R c target
  | .selector _ target _ => ValidSelectors R c target
  | _ => True

theorem valid_iff_validSelectors : ∀ target : Expr, c.CanAssign target →
    (target.Valid R c none ↔ ValidSelectors R c target)
  | .ident _ name, ⟨_, hname, hrole⟩ => by
    cases hname
    simp [Expr.Valid, ValidSelectors, hrole]
  | .index _ target key, h => by
    simp only [Expr.Valid, valid_iff_validSelectors target h]
    exact and_comm
  | .selector _ target _, h => by simp only [Expr.Valid, ValidSelectors, valid_iff_validSelectors target h]
  | .int .., ⟨_, h, _⟩ | .float .., ⟨_, h, _⟩ | .char .., ⟨_, h, _⟩ | .str .., ⟨_, h, _⟩ | .bool .., ⟨_, h, _⟩
  | .undefined .., ⟨_, h, _⟩ | .array .., ⟨_, h, _⟩ | .map .., ⟨_, h, _⟩ | .binary .., ⟨_, h, _⟩
  | .unary .., ⟨_, h, _⟩ | .cond .., ⟨_, h, _⟩ | .slice .., ⟨_, h, _⟩ | .call .., ⟨_, h, _⟩ | .func .., ⟨_, h, _⟩
  | .load .., ⟨_, h, _⟩ | .error .., ⟨_, h, _⟩ | .immutable .., ⟨_, h, _⟩ => by cases h

/-- The variables that statements in a row define, as far as control gets. -/
def bodyDefines : List Stmt → List String
  | [] => []
  | s :: rest => if s.ways.exits then s.defines else bodyDefines rest ++ s.defines

mutual

/-- **Expressions check their rules.** -/
theorem judges_expr (hi : Serves B imports) (c : Setting) (own : Option String) : ∀ e : Expr,
    Asks B c (fun R => e.Valid R c own) (compileExpr imports own e)
  | .ident pos name => by
    simp only [compileExpr, Expr.Valid]
    refine (Judges.resolve? name).learning (fun found => ?_) fun found hfound => ?_
    · cases found with
      | none => exact Obeys.throw _
      | some sym => exact Obeys.emitLoad pos sym
    · rw [← hfound]
      cases found with
      | none => exact .broken fun _ h => Bool.noConfusion h
      | some sym => exact (Obeys.emitLoad pos sym).kept rfl
  | .int pos _ | .float pos _ | .char pos _ => by
    simp only [compileExpr, Expr.Valid]
    exact (Obeys.emitConstant _ _).asks
  | .str pos v => by
    simp only [compileExpr, Expr.Valid]
    exact (Obeys.ite (Obeys.exceeded rfl) (Obeys.emitConstant _ _)).asks
  | .bool pos _ | .undefined pos => by
    simp only [compileExpr, Expr.Valid]
    exact (Obeys.emit_ _ _ _).asks
  | .array pos items => by
    simp only [compileExpr, Expr.Valid]
    exact (judges_exprs hi c items).quiet fun _ => Obeys.emit_ _ _ _
  | .map pos entries => by
    simp only [compileExpr, Expr.Valid]
    exact (judges_entries hi c pos entries).quiet fun _ => Obeys.emit_ _ _ _
  | .binary pos op lhs rhs => by
    simp only [compileExpr, Expr.Valid]
    exact Asks.binary op (judges_expr hi c none lhs) (judges_expr hi c none rhs)
  | .unary pos op operand => by
    simp only [compileExpr, Expr.Valid]
    exact (Asks.bind (judges_expr hi c none operand) fun _ => Asks.unary op).iff fun _ => and_comm
  | .cond pos test yes no => by
    simp only [compileExpr, Expr.Valid]
    exact Asks.conditional (judges_expr hi c none test) (judges_expr hi c none yes) (judges_expr hi c none no)
  | .index pos target key => by
    simp only [compileExpr, Expr.Valid]
    exact Asks.pair (judges_expr hi c none target) (judges_expr hi c none key) (Obeys.emit_ _ _ _)
  | .slice pos target low high => by
    simp only [compileExpr, Expr.Valid]
    exact Asks.bind (judges_expr hi c none target) fun _ =>
      Asks.pair (judges_bound hi c pos low) (judges_bound hi c pos high) (Obeys.emit_ _ _ _)
  | .selector pos target name => by
    simp only [compileExpr, Expr.Valid]
    exact (judges_expr hi c none target).quiet fun _ => (Obeys.emitConstant _ _).bind fun _ => Obeys.emit_ _ _ _
  | .call pos callee args spread => by
    simp only [compileExpr, Expr.Valid]
    exact Asks.pair (judges_expr hi c none callee) (judges_exprs hi c args) (Obeys.emit_ _ _ _)
  | .func pos params variadic body => by
    simp only [compileExpr, Expr.Valid]
    exact Judges.function (judges_stmts hi _ body)
  | .load pos name => by
    simp only [compileExpr, Expr.Valid]
    exact hi.load name
  | .error pos operand | .immutable pos operand => by
    simp only [compileExpr, Expr.Valid]
    exact (judges_expr hi c none operand).quiet fun _ => Obeys.emit_ _ _ _

theorem judges_exprs (hi : Serves B imports) (c : Setting) : ∀ es : List Expr,
    Asks B c (fun R => ValidExprs R c es) (compileExprs imports es)
  | [] => by
    simp only [compileExprs, ValidExprs]
    exact (Obeys.pure ()).asks
  | e :: es => by
    simp only [compileExprs, ValidExprs]
    exact Asks.bind (judges_expr hi c none e) fun _ => judges_exprs hi c es

theorem judges_entries (hi : Serves B imports) (c : Setting) (pos : Pos) : ∀ entries : List (String × Expr),
    Asks B c (fun R => ValidEntries R c entries) (compileEntries imports pos entries)
  | [] => by
    simp only [compileEntries, ValidEntries]
    exact (Obeys.pure ()).asks
  | (_, e) :: rest => by
    simp only [compileEntries, ValidEntries]
    exact (Obeys.emitConstant _ _).before fun _ => Asks.bind (judges_expr hi c none e) fun _ =>
      judges_entries hi c pos rest

theorem judges_bound (hi : Serves B imports) (c : Setting) (pos : Pos) : ∀ e : Option Expr,
    Asks B c (fun R => ValidOption R c e) (compileBound imports pos e)
  | none => by
    simp only [compileBound, ValidOption]
    exact (Obeys.emit_ _ _ _).asks
  | some e => by
    simp only [compileBound, ValidOption]
    exact judges_expr hi c none e

theorem judges_selectors (hi : Serves B imports) (c : Setting) : ∀ target : Expr,
    Asks B c (fun R => ValidSelectors R c target) (compileSelectors imports target)
  | .index _ target key => by
    simp only [compileSelectors, ValidSelectors]
    exact Asks.bind (judges_expr hi c none key) fun _ => judges_selectors hi c target
  | .selector pos target name => by
    simp only [compileSelectors, ValidSelectors]
    exact Judges.unlessExceeded rfl ((Obeys.emitConstant _ _).before fun _ => judges_selectors hi c target)
  | .ident .. | .int .. | .float .. | .char .. | .str .. | .bool .. | .undefined .. | .array .. | .map .. | .binary ..
  | .unary .. | .cond .. | .slice .. | .call .. | .func .. | .load .. | .error .. | .immutable .. => by
    simp only [compileSelectors, ValidSelectors]
    exact (Obeys.pure ()).asks

theorem judges_test (hi : Serves B imports) (c : Setting) : ∀ (e : Option Expr) (x : Gen Unit),
    compileTest imports e = some x → Asks B c (fun R => ValidOption R c e) x
  | none, _, h => by simp only [compileTest, reduceCtorEq] at h
  | some e, x, h => by
    simp only [compileTest, Option.some.injEq] at h
    simp only [ValidOption]
    exact h ▸ judges_expr hi c none e

/-- **Statements check their rules.** -/
theorem judges_stmt (hi : Serves B imports) (c : Setting) : ∀ s : Stmt,
    Judges B c (fun R => s.Valid R c) s.defines s.ways.jumps (compileStmt imports s) (· = s.ways.exits)
  | .expr pos value => by
    simp only [compileStmt, Valid, ways, defines]
    exact (judges_expr hi c none value).keep (fun _ => Obeys.emit_ _ _ _) fun _ _ => rfl
  | .assign pos [target] op [value] => by
    simp only [compileStmt, Valid, ways]
    refine Judges.last (Q := fun _ => True) ?_ (fun _ => Obeys.pure _) fun _ _ _ => .pure rfl
    by_cases hop : op = .define
    · subst hop
      simp only [if_true]
      refine Judges.assign_define ?_ (judges_selectors hi c target).growing (fun own => judges_expr hi c own value) ?_
      · rintro p name rfl
        simp only [compileSelectors]
        exact Obeys.pure ()
      · rintro p name rfl
        rfl
    · simp only [if_neg hop]
      have hdefines : (Stmt.assign pos [target] op [value]).defines = [] := by
        unfold defines
        split
        · simp_all
        · rfl
      rw [hdefines]
      exact Judges.assign_other hop (judges_expr hi c none target) (judges_selectors hi c target)
        (judges_expr hi c none value) fun R => valid_iff_validSelectors target
  | .assign _ [] _ _ | .assign _ [_] _ [] | .assign _ [_] _ (_ :: _ :: _) | .assign _ (_ :: _ :: _) _ _ => by
    simp only [compileStmt, Valid]
    exact .broken fun _ => id
  | .step pos target _ => by
    simp only [compileStmt, Valid, ways, defines]
    refine Judges.last (Q := fun _ => True) ?_ (fun _ => Obeys.pure _) fun _ _ _ => .pure rfl
    refine Judges.iff (P := fun R => c.CanAssign target ∧ target.Valid R c none ∧ True) ?_ fun R => by rw [and_true]
    exact Judges.assign_other (by simp) (judges_expr hi c none target) (judges_selectors hi c target)
      (Obeys.emitConstant _ _).asks fun R => valid_iff_validSelectors target
  | .block _ body => by
    simp only [compileStmt, Valid, ways, defines]
    exact (judges_stmts hi _ body).inBlock
  | .branch pos init test body other => by
    simp only [compileStmt, Valid, ways, defines]
    exact Judges.branch (judges_simple hi _ init) (judges_expr hi _ none test) (judges_stmts hi _ body)
      (judges_other hi _ other) fun h => by
        cases other with
        | none => exact ⟨fun _ => by simp only [ValidSimple], rfl, rfl⟩
        | some s => simp only [compileOther, reduceCtorEq] at h
  | .loop pos init test post body => by
    simp only [compileStmt, Valid, ways, defines]
    have htest : test.isNone = (compileTest imports test).isNone := by cases test <;> simp [compileTest]
    rw [htest]
    refine Judges.loop (judges_simple hi _ init) (judges_test hi _ test) (fun h R => ?_) (judges_stmts hi _ body)
      (judges_simple hi c post).growing fun _ => judges_simple hi _ post
    cases test with
    | none => simp only [ValidOption]
    | some e => simp only [compileTest, reduceCtorEq] at h
  | .forIn pos key value iterable body => by
    simp only [compileStmt, Valid, ways, defines]
    exact Judges.forIn (judges_expr hi _ none iterable) (judges_stmts hi _ body)
  | .breakLoop pos | .continueLoop pos => by
    simp only [compileStmt, Valid, ways, defines]
    refine (Judges.emitLoopJump fun n l => ?_).last (fun _ => Obeys.pure _) fun _ _ _ => .pure rfl
    simp [PendingJumps.jumps, Jumps.union_def]
  | .ret pos value => by
    simp only [compileStmt, Valid, ways, defines]
    refine Judges.check (p := fun g => g.table.inGlobal) (fun g hs => ?_) ((judges_result hi c value).keep
      (fun _ => Obeys.emit_ _ _ _) fun _ _ => rfl)
    simp [hs.table.inGlobal]
  | .exportValue pos value => by
    simp only [compileStmt, Valid, ways, defines]
    refine Judges.check (p := fun g => g.outer.length != g.unitDepth) (fun g hs => ?_) ?_
    · simp [hs.inLiteral]
    · exact (judges_expr hi c none value).last
        (fun _ => (Obeys.emit_ _ _ _).bind fun _ => (Obeys.emit_ _ _ _).bind fun _ => Obeys.pure _)
        fun _ _ _ => (Obeys.emit_ _ _ _).before fun _ => (Obeys.emit_ _ _ _).before fun _ => .pure rfl
  | .empty _ => by
    simp only [compileStmt, Valid, ways, defines]
    exact .pure rfl

theorem judges_result (hi : Serves B imports) (c : Setting) : ∀ e : Option Expr,
    Asks B c (fun R => ValidOption R c e) (compileResult imports e)
  | none => by
    simp only [compileResult, ValidOption]
    exact (Obeys.pure 0).asks
  | some e => by
    simp only [compileResult, ValidOption]
    exact (judges_expr hi c none e).quiet fun _ => Obeys.pure 1

/-- **Statements in a row check the rules for those that control can reach.** -/
theorem judges_stmts (hi : Serves B imports) (c : Setting) : ∀ body : List Stmt,
    Judges B c (fun R => ValidBody R c body) (bodyDefines body) (bodyWays body).jumps (compileStmts imports body)
      (· = (bodyWays body).exits)
  | [] => by
    simp only [compileStmts, ValidBody, bodyWays, bodyDefines]
    exact .pure rfl
  | s :: rest => by
    rw [compileStmts_cons]
    have h := (judges_stmt hi c s).andThen (judges_stmts hi c rest).growing fun _ => judges_stmts hi _ rest
    simp only [ValidBody, bodyWays, bodyDefines]
    cases hexits : s.ways.exits with
    | true =>
      simp only [hexits, if_true, Bool.true_or] at h ⊢
      exact h
    | false =>
      simp only [hexits, Bool.false_eq_true, if_false, Bool.false_or] at h ⊢
      exact h

theorem judges_simple (hi : Serves B imports) (c : Setting) : ∀ s : Option Stmt,
    Judges B c (fun R => ValidSimple R c s) (optionDefines s) (optionWays s).jumps (compileSimple imports s)
      fun _ => True
  | none => by
    simp only [compileSimple, ValidSimple, optionDefines, optionWays]
    exact (Obeys.pure ()).asks
  | some s => by
    simp only [compileSimple, ValidSimple, optionDefines, optionWays]
    exact (judges_stmt hi c s).discard

theorem judges_other (hi : Serves B imports) (c : Setting) : ∀ (s : Option Stmt) (x : Gen Bool),
    compileOther imports s = some x →
    Judges B c (fun R => ValidSimple R c s) (optionDefines s) (optionWays s).jumps x (· = (optionWays s).exits)
  | none, _, h => by simp only [compileOther, reduceCtorEq] at h
  | some s, x, h => by
    simp only [compileOther, Option.some.injEq] at h
    simp only [ValidSimple, optionDefines, optionWays]
    exact h ▸ judges_stmt hi c s

end

/-! ## Modules -/

theorem mem_keys_of_find? : ∀ {entries : List (String × α)},
    Dict.find? name entries = some v → name ∈ entries.map Prod.fst
  | (k, _) :: rest, h => by
    by_cases hk : k = name
    · exact hk ▸ mem_cons_self
    · rw [Dict.find?, if_neg hk] at h
      exact mem_cons_of_mem _ (mem_keys_of_find? h)

/-- **Modules check their rules.** Those at hand are all different, so imports nest no deeper than there are
modules. -/
theorem serves_compileModule (M : ModuleMap) : ∀ (depth : Nat) {busy : List String}, busy.Nodup → busy ⊆ M.keys →
    M.size < depth + busy.length → Serves ⟨M, busy⟩ { modules := M, compile := compileModule M depth }
  | 0, busy, hnodup, hkeys, hdepth => by
    have hle : busy.length ≤ M.keys.length := (subperm_of_subset hnodup hkeys).length_le
    have hsize : M.keys.length = M.size := length_map _
    omega
  | depth + 1, busy, hnodup, hkeys, hdepth => by
    refine ⟨rfl, fun c pos name body hne hget => ?_⟩
    have hinside (hbusy : name ∉ busy) :
        Serves ⟨M, name :: busy⟩ { modules := M, compile := compileModule M depth } := by
      refine serves_compileModule M depth (nodup_cons.mpr ⟨hbusy, hnodup⟩) ?_ ?_
      · exact cons_subset.mpr ⟨mem_keys_of_find? hget, hkeys⟩
      · rw [length_cons]
        omega
    exact Asks.moduleFunction hne hget (makes_stmts ⟨rfl, compileModule_imports M depth⟩ body).growing fun hbusy =>
      judges_stmts (hinside hbusy) .ofModule body

/-! ## Programs -/

variable {files : FileSet} {M : ModuleMap} {body : List Stmt}

/-- **A program with an error is refused**, and its first error is the first one that is reported. -/
theorem compile_of_firstError (h : firstError (compileStmts (Importer.ofModules M) body g.fresh) = some e) :
    ∃ rest, (compile files M body g).1 = .error (e :: rest) := by
  have hprogram : firstError (program (Importer.ofModules M) body g.fresh) = some e := by
    refine firstError_bind ((firstError_discard ..).trans h) fun _ => Obeys.get.bind fun _ => ?_
    exact Obeys.ite (Obeys.emit_ _ _ _) (Obeys.pure _)
  have hrefused {gen : Generator} (hhead : gen.errors.toList.head? = some e) :
      gen.errors.isEmpty = false ∧ ∃ rest, gen.errors.toList = e :: rest := by
    obtain ⟨rest, hrest⟩ := head?_eq_some_iff.mp hhead
    refine ⟨?_, rest, hrest⟩
    rw [← Array.isEmpty_toList, hrest]
    rfl
  unfold compile
  cases hrun : program (Importer.ofModules M) body g.fresh with
  | ok u gen =>
    rw [hrun] at hprogram
    obtain ⟨hsome, rest, hrest⟩ := hrefused hprogram
    exact ⟨rest, by simp only [hsome, hrest, Bool.false_eq_true, if_false]⟩
  | error e' gen =>
    -- the walk is given up only after errors have been recorded
    rcases program_loud (importerBuilds_ofModules M) hrun with habort | hsize
    · cases habort
    · rw [hrun, firstError, head?_append_of_ne_nil _ (by simpa using Nat.ne_of_gt hsize)] at hprogram
      obtain ⟨hsome, rest, hrest⟩ := hrefused hprogram
      exact ⟨rest, by simp only [hsome, hrest, Bool.false_eq_true, if_false]⟩

theorem stands_program (M : ModuleMap) (heap : Heap) : InSetting ⟨M, []⟩ .ofProgram (fresh { heap }) where
  table := .program
  unit := Nat.le_refl _
  inLiteral := rfl
  inLoop := rfl
  importing := rfl
  known := fun _ _ h => by cases h

/-- The errors that a compilation reports. -/
def reported : Except (List CompileError) Program → List CompileError
  | .ok _ => []
  | .error errors => errors

/-- The compiler reports no limit that the program exceeds. -/
def WithinLimits (files : FileSet) (M : ModuleMap) (body : List Stmt) (heap : Heap) : Prop :=
  ∀ e ∈ reported (compile files M body { heap }).1, e.cause.isLimit = false

instance (files : FileSet) (M : ModuleMap) (body : List Stmt) (heap : Heap) :
    Decidable (WithinLimits files M body heap) :=
  inferInstanceAs (Decidable (∀ e ∈ reported (compile files M body { heap }).1, e.cause.isLimit = false))

/-- **The compiler accepts exactly the valid programs**, among those that exceed no limit, and reports errors for
all others. -/
theorem compile_accepts_iff_valid (files : FileSet) (M : ModuleMap) (body : List Stmt) (heap : Heap)
    (hlimits : WithinLimits files M body heap) :
    ((compile files M body { heap }).1.isOk ↔ ValidProgram M body) ∧
      (¬ValidProgram M body → ∃ errors, (compile files M body { heap }).1 = .error errors ∧ errors ≠ []) := by
  have hserves : Serves ⟨M, []⟩ (Importer.ofModules M) :=
    serves_compileModule M (M.size + 1) .nil (nil_subset _) (by simp)
  rcases (judges_stmts hserves .ofProgram body).judged (fresh { heap }) rfl (stands_program M heap) with
    ⟨exits, gen, hrun, hclean, hvalid, -⟩ | ⟨e, he, hwhy⟩
  · obtain ⟨p, g', hok, -⟩ := compile_of_stmts (g := { heap }) hrun hclean
    rw [hok]
    exact ⟨iff_of_true rfl hvalid, fun h => absurd hvalid h⟩
  · obtain ⟨rest, herr⟩ := compile_of_firstError (g := { heap }) he
    have hnot : e.cause.isLimit = false := hlimits e (by rw [herr]; exact mem_cons_self)
    have hinvalid : ¬ValidProgram M body := by
      rcases hwhy with hlimit | hn
      · rw [hlimit] at hnot
        cases hnot
      · exact hn _ fun _ h => h
    rw [herr]
    exact ⟨iff_of_false Bool.noConfusion hinvalid, fun _ => ⟨_, rfl, cons_ne_nil _ _⟩⟩

/-- A module `next` with the code `export func(x) { return x + 1 }`. -/
def nextModule : ModuleMap := Dict.empty.insert "next" (.source [
  .exportValue .none (.func .none [⟨.none, "x"⟩] false [
    .ret .none (some (.binary .none (.arith .add) (.ident .none "x") (.int .none 1)))])])

/-- A function that knows its own name, with code that is never reached after a loop without a test:
`len := func(n) { for { n = import("next")(n); if n > 9 { return len } }; unknown }`. -/
def namingItself : List Stmt := [ .assign .none [.ident .none "len"] .define [.func .none [⟨.none, "n"⟩] false [
    .loop .none none none none [
      .assign .none [.ident .none "n"] .assign [.call .none (.load .none "next") [.ident .none "n"] false],
      .branch .none none (.binary .none (.order .greater) (.ident .none "n") (.int .none 9))
        [.ret .none (some (.ident .none "len"))] none],
    .expr .none (.ident .none "unknown")]]]

/-- The same function with an assignment to its own name: `len := func(n) { len = n }`. -/
def replacingItself : List Stmt := [ .assign .none [.ident .none "len"] .define [.func .none [⟨.none, "n"⟩] false [
    .assign .none [.ident .none "len"] .assign [.ident .none "n"]]]]

/-- Both exceed no limit. The first one is valid; the second is not, and has an error. -/
theorem own_name_is_not_assigned : WithinLimits {} nextModule namingItself {} ∧
    WithinLimits {} nextModule replacingItself {} ∧ ValidProgram nextModule namingItself ∧
    ¬ValidProgram nextModule replacingItself := by
  have hnaming : WithinLimits {} nextModule namingItself {} := by decide +kernel
  have hreplacing : WithinLimits {} nextModule replacingItself {} := by decide +kernel
  refine ⟨hnaming, hreplacing, ?_, fun hvalid => ?_⟩
  · exact (compile_accepts_iff_valid {} nextModule namingItself {} hnaming).1.mp (by decide +kernel)
  · have hok := (compile_accepts_iff_valid {} nextModule replacingItself {} hreplacing).1.mpr hvalid
    revert hok
    decide +kernel

/-- `x := 1, 2` -/
def pairing : List Stmt := [.assign .none [.ident .none "x"] .define [.int .none 1, .int .none 2]]

/-- **One target is not enough**: a definition with one new name as its target and two valid values is refused,
though no limit is exceeded. -/
theorem pairing_is_refused : WithinLimits {} .empty pairing {} ∧ "x" ∉ Setting.ofProgram.here ∧
    (∀ value ∈ [Expr.int .none 1, .int .none 2], value.Valid (Importable .empty []) .ofProgram (some "x")) ∧
    (compile {} .empty pairing {}).1.isOk = false := by
  refine ⟨by decide +kernel, not_mem_nil, ?_, by decide +kernel⟩
  simp [Expr.Valid]

end Generator

end Scripting
