import Scripting.Proofs.Compile.Layout
/-!
# `Proofs.Compile.Nested` — statement lists, functions and modules

What the steps emit that are not about a single construct: the jumps out of loops, lists of statements,
and the code of functions and modules, which is written apart from the code around it. Such code is a
fragment of its own from offset zero (`Assembled`); what is emitted around it is how its function value
is made.
-/

namespace Scripting

namespace Generator

open Code Fragment

variable {α β : Type} {P : Context → α → Context → Fragment → Prop} {p : Prop} {body first rest : Gen Bool}
  {x y : Gen α} {g g' : Generator} {L : Generator.Law} {pos : Pos} {r routine : Ref} {name : String} {u : Unit}

/-! ## Steps that only look at the state -/

theorem Emits.get : Emits (get : Gen Generator) fun c g c' f => c' = c ∧ g.context = c ∧ f = .nil where
  growing := Obeys.get
  writes g _ _ hr _ := by
    cases hr
    exact ⟨.nil, Writes.idle rfl, rfl, rfl, rfl⟩

theorem Emits.unless {e : CompileError}
    [Decidable p] (hx : Emits x P) : Emits (if p then MonadExcept.throw e else x) P := by
  split
  · exact Emits.throw e
  · exact hx

theorem Emits.ite [Decidable p] (hx : p → Emits x P) (hy : ¬p → Emits y P) : Emits (if p then x else y) P := by
  split
  · exact hx ‹_›
  · exact hy ‹_›

/-! ## Jumps out of loops -/

/-- Note a jump that leaves a loop. -/
def pend : Exit → Nat → PendingJumps → PendingJumps
  | .done, jump, l => { l with breaks := jump :: l.breaks }
  | .next, jump, l => { l with continues := jump :: l.continues }

theorem emitLoopJump_eq (pos : Pos) (cause : CompileCause) (add : Nat → PendingJumps → PendingJumps) :
    emitLoopJump pos cause add = (get : Gen Generator) >>= fun g =>
      if g.scope.loops.isEmpty then throw { cause, pos }
      else emit pos .jump [0] >>= fun jump => modifyLoop (add jump) := by
  congr

theorem Emits.emitLoopJump (pos : Pos) (cause : CompileCause) (e : Exit) :
    Emits (emitLoopJump pos cause (pend e)) fun c _ c' f => c' = c ∧ f = .exit e where
  growing := by
    rw [emitLoopJump_eq]
    exact Obeys.get.bind fun _ => Obeys.ite (Obeys.throw _)
      ((Obeys.emit _ _ _).bind fun _ => Growing.modify fun _ => rfl)
  writes g u g' hr _ := by
    rw [emitLoopJump_eq] at hr
    obtain ⟨_, _, hget, hr⟩ := bind_ok hr
    cases hget
    by_cases hl : g.scope.loops.isEmpty
    · rw [if_pos hl] at hr; cases hr
    · rw [if_neg hl] at hr
      obtain ⟨j, g1, he, hm⟩ := bind_ok hr
      cases hm
      obtain ⟨rfl, -, r, hc⟩ := emit_jump_ok rfl he
      refine ⟨.exit e, ⟨?_, ?_, ?_, ?_, r.outer, r.unitDepth, ⟨r.importing, r.keeps.modules⟩⟩, r.context, rfl⟩
      · simpa [bytes, code, open₀] using hc
      · intro i hi
        rw [code, List.mem_singleton] at hi
        subst hi
        exact fits_jump rfl (Nat.zero_le _)
      · simp only [r.loops]
        cases hs : g.scope.loops with
        | nil => simp [hs] at hl
        | cons l ls => cases e <;> simp [addHoles, holes, pend]
      · intro hnil
        simp [hnil] at hl

/-! ## Statement lists -/

theorem unwind_eq (g : Generator) (depth : Nat) : (g.unwind depth).table = g.table ∧
    (g.unwind depth).unitDepth = g.unitDepth ∧ (g.unwind depth).errors = g.errors ∧
    (g.unwind depth).aborted = g.aborted := by
  unfold unwind
  split <;> exact ⟨rfl, rfl, rfl, rfl⟩

theorem Growing.recover (mark : Mark) (e : CompileError) : Growing (recover mark e) := by
  intro g
  unfold Generator.recover
  split
  · exact Grows.refl g
  · obtain ⟨-, -, herr, hab⟩ := unwind_eq { g with table := g.table.truncate mark.scopes } mark.functions
    dsimp only
    split
    · refine Grows.mk ?_ fun _ => .inr ?_ <;> simp [herr]
    · refine Grows.mk ?_ fun h => .inl ?_
      · simp [herr]
      · exact hab ▸ h

/-- A statement that failed leaves an error behind. -/
theorem recover_not_clean {e : CompileError} {mark : Mark} (h : recover mark e g = .ok u g') : ¬Clean g' := by
  unfold Generator.recover at h
  split at h
  · cases h
  · dsimp only at h
    split at h
    · cases h
    · cases h
      simp [Clean]

/-- Compile a statement and then, unless it exits, the ones after it. -/
def andThen (first rest : Gen Bool) : Gen Bool := fun g =>
  match first g with
  | .ok true g => .ok true g
  | .ok false g => rest g
  | .error e g' =>
    match recover g.mark e g' with
    | .ok _ g => rest g
    | .error e g => .error e g

theorem compileStmts_cons (imports : Importer) (s : Stmt) (rest : List Stmt) :
    compileStmts imports (s :: rest) = andThen (compileStmt imports s) (compileStmts imports rest) := by
  funext g
  simp only [compileStmts]
  unfold andThen
  rcases compileStmt imports s g with ⟨_ | _, _⟩ | _ <;> rfl

section

variable {g g' g1 : Generator} {exits : Bool}

theorem andThen_of_exit (h : first g = .ok true g') : andThen first rest g = .ok true g' := by
  unfold andThen
  rw [h]

theorem andThen_of_go (h : first g = .ok false g1) : andThen first rest g = rest g1 := by
  unfold andThen
  rw [h]

theorem andThen_error {e : CompileError} (h : first g = .error e g1) :
    andThen first rest g = (recover g.mark e >>= fun _ => rest) g1 := by
  rw [bind_apply]
  simp only [andThen, h]
  cases recover g.mark e g1 <;> simp only

theorem andThen_ok (hrest : Growing rest) (h : andThen first rest g = .ok exits g') (hc : Clean g') :
    exits = true ∧ first g = .ok true g' ∨ ∃ g1, first g = .ok false g1 ∧ rest g1 = .ok exits g' := by
  cases hx : first g with
  | ok e g1 =>
    cases e with
    | true =>
      rw [andThen_of_exit hx] at h
      cases h
      exact .inl ⟨rfl, rfl⟩
    | false => exact .inr ⟨g1, rfl, (andThen_of_go hx).symm.trans h⟩
  | error e g1 =>
    rw [andThen_error hx] at h
    obtain ⟨_, g2, hy, h⟩ := bind_ok h
    exact absurd (hrest.clean h hc) (recover_not_clean hy)

/-- What comes after statements that exit is left out. -/
theorem compileStmts_of_exit {imports : Importer} {body rest : List Stmt}
    (h : compileStmts imports body g = .ok true g') : compileStmts imports (body ++ rest) g = .ok true g' := by
  induction body generalizing g with
  | nil => cases h
  | cons s body ih =>
    rw [compileStmts_cons] at h
    rw [List.cons_append, compileStmts_cons]
    cases hx : compileStmt imports s g with
    | ok exits g1 =>
      cases exits with
      | true =>
        rw [andThen_of_exit hx] at h ⊢
        exact h
      | false =>
        rw [andThen_of_go hx] at h ⊢
        exact ih h
    | error e g1 =>
      rw [andThen_error hx, bind_apply] at h ⊢
      cases hy : recover g.mark e g1 with
      | ok u g2 =>
        rw [hy] at h
        exact ih h
      | error e2 g2 =>
        rw [hy] at h
        cases h

end

/-- **A statement before others** keeps a law that recovery keeps. -/
theorem Obeys.andThen (hrec : ∀ {g e g1}, L.error g e g1 → L.Allows g (recover g.mark e g1)) (hf : Obeys L first)
    (hr : Obeys L rest) : Obeys L (andThen first rest) := by
  intro g
  have h := hf g
  cases hx : first g with
  | ok exits g1 =>
    rw [hx] at h
    cases exits with
    | true => rwa [andThen_of_exit hx]
    | false =>
      rw [andThen_of_go hx]
      exact (hr g1).after h
  | error e g1 =>
    rw [hx] at h
    have h' := hrec h
    rw [andThen_error hx, bind_apply]
    cases hy : recover g.mark e g1 with
    | ok u g2 => rw [hy] at h'; exact (hr g2).after h'
    | error e g2 => rw [hy] at h'; exact h'

theorem Growing.andThen : Growing first → Growing rest → Growing (andThen first rest) :=
  Obeys.andThen fun h => (Growing.recover ..).after h

/-- Statements fail as a whole only when the compilation is given up. -/
def GivesUp {α : Type} (x : Gen α) : Prop := ∀ g e g', x g = .error e g' → g'.aborted = true

theorem GivesUp.andThen (hr : GivesUp rest) : GivesUp (andThen first rest) := by
  intro g e g' h
  cases hx : first g with
  | ok exits g1 =>
    cases exits with
    | true => rw [andThen_of_exit hx] at h; cases h
    | false => rw [andThen_of_go hx] at h; exact hr g1 e g' h
  | error e1 g1 =>
    rw [andThen_error hx, bind_apply] at h
    cases hy : recover g.mark e1 g1 with
    | ok u g2 => rw [hy] at h; exact hr g2 e g' h
    | error e2 g2 =>
      rw [hy] at h
      cases h
      unfold recover at hy
      split at hy
      · cases hy
        assumption
      · dsimp only at hy
        split at hy <;> cases hy
        rfl

theorem givesUp_stmts (imports : Importer) : ∀ body : List Stmt, GivesUp (compileStmts imports body)
  | [] => fun _ _ _ h => by cases h
  | s :: rest => by
    rw [compileStmts_cons]
    exact (givesUp_stmts imports rest).andThen

/-- **A statement before others.** The ones after a statement that exits are left out. -/
theorem Emits.andThen {P Q R : Context → Bool → Context → Fragment → Prop} (hf : Emits first P)
    (hr : Emits rest Q) (hexit : ∀ c c' f, P c true c' f → R c true c' f)
    (hgo : ∀ c c1 exits c2 f1 f2, P c false c1 f1 → Q c1 exits c2 f2 → R c exits c2 (.seq f1 f2)) :
    Emits (andThen first rest) R where
  growing := hf.growing.andThen hr.growing
  writes g a g' h hc := by
    rcases andThen_ok hr.growing h hc with ⟨rfl, hx⟩ | ⟨g1, hx, h⟩
    · obtain ⟨f, hw, hp⟩ := hf.writes _ _ _ hx hc
      exact ⟨f, hw, hexit _ _ _ hp⟩
    · obtain ⟨f2, hw2, hq⟩ := hr.writes g1 a g' h hc
      obtain ⟨f1, hw1, hp⟩ := hf.writes _ _ _ hx (hr.growing.clean h hc)
      exact ⟨_, hw1.trans hw2, hgo _ _ _ _ _ _ hp hq⟩

/-! ## Variables -/

theorem Emits.define (name : String) : Emits (define name) fun c sym c' f =>
    f = .nil ∧ sym = (c.table.define name).1 ∧ c' = { c with table := (c.table.define name).2 } :=
  Emits.modifyGet (fun _ => ⟨rfl, rfl, rfl⟩) (fun _ => rfl) fun _ => .idle rfl

/-- What resolving a name does to a context. -/
def Resolved (name : String) (c : Context) (sym : Option Symbol) (c' : Context) : Prop :=
  match c.table.resolve name with
  | some (s, _, table) => sym = some s ∧ c' = { c with table }
  | none => sym = none ∧ c' = c

theorem Emits.resolve? (name : String) : Emits (resolve? name) fun c sym c' f =>
    f = .nil ∧ Resolved name c sym c' := by
  unfold Generator.resolve?
  refine Emits.modifyGet (fun g => ⟨rfl, ?_⟩) (fun g => ?_) fun g => ?_
  · unfold Resolved context
    cases g.table.resolve name <;> exact ⟨rfl, rfl⟩
  · cases g.table.resolve name <;> rfl
  · cases g.table.resolve name <;> exact .idle rfl

theorem Emits.resolveTop? (name : String) : Emits (resolveTop? name) fun c sym c' f =>
    f = .nil ∧ sym = c.table.resolveTop? name ∧ c' = c where
  growing _ := Grows.refl _
  writes g _ _ hr _ := by
    cases hr
    exact ⟨.nil, Writes.idle rfl, rfl, rfl, rfl⟩

/-! ## Functions -/

/-- The code of a whole function: a fragment from offset zero that no jump leaves. -/
structure Assembled (f : Fragment) (bytes : Bytes) : Prop where
  code : bytes.toList = f.bytes 0 open₀
  fits : ∀ i ∈ f.code 0 open₀, i.Fits
  closed : ∀ e, f.leaves e = false

def Context.enterFunction (c : Context) : Context := { c with table := c.table.enter false }

/-- Write the code of a nested function. -/
def enclosed (x : Gen Unit) : Gen (CodeScope × ScopeSummary) := do
  openFunction
  x
  closeFunction

theorem Growing.openFunction : Growing openFunction := Growing.modify fun _ => rfl

theorem Growing.closeFunction : Growing closeFunction := Growing.modifyGet fun _ => rfl

theorem closeFunction_apply {scope : CodeScope} {outer : List CodeScope} (h : g.outer = scope :: outer) :
    closeFunction g = .ok (g.scope, g.table.leave.1) { g with table := g.table.leave.2, scope, outer } := by
  cases g
  cases h
  rfl

/-- **The code of a nested function is a fragment of its own**, and nothing is emitted around it. -/
theorem Emits.enclosed {x : Gen Unit} {P : Context → Unit → Context → Fragment → Prop} (hx : Emits x P) :
    Emits (enclosed x) fun c r c' f => f = .nil ∧ ∃ c1 body, P c.enterFunction () c1 body ∧
      Assembled body r.1.code ∧ r.2 = c1.table.leave.1 ∧ c' = c1.leave where
  growing := Growing.openFunction.bind fun _ => hx.growing.bind fun _ => Growing.closeFunction
  writes g r g' hr hc := by
    obtain ⟨_, _, ho, hr⟩ := bind_ok hr
    cases ho
    obtain ⟨_, g1, hx', hclose⟩ := bind_ok hr
    have hclose' : EStateM.Result.ok _ _ = EStateM.Result.ok r g' := hclose
    have hc1 : Clean g1 := by
      cases hclose'
      exact hc
    obtain ⟨body, hw, hp⟩ := hx.writes _ _ _ hx' hc1
    cases hclose'
    refine ⟨.nil, Writes.refl ?_ ?_ hw.unitDepth ⟨hw.importing, hw.keeps.modules⟩, rfl, _, body, hp,
      ⟨?_, hw.fits, hw.closed rfl⟩, rfl, rfl⟩
    · simp only [hw.outer]
    · simp only [hw.outer]
    · have := hw.code
      simpa using this

/-- The body of a function with the return that ends it, if control reaches its end. -/
def returning (exits : Bool) (body : Fragment) : Fragment :=
  if exits then body else .seq body (.op ⟨.ret, [0]⟩)

theorem Emits.returning {P : Context → Bool → Context → Fragment → Prop} (hb : Emits body P) :
    Emits (body >>= fun exits => emitFinalReturn exits) fun c _ c' f =>
      ∃ exits body, P c exits c' body ∧ f = Generator.returning exits body where
  growing := hb.growing.bind Obeys.emitFinalReturn
  writes g u g' hr hc := by
    obtain ⟨exits, g1, hb', hr⟩ := bind_ok hr
    cases exits with
    | true =>
      cases hr
      obtain ⟨f, hw, hp⟩ := hb.writes _ _ _ hb' hc
      exact ⟨f, hw, true, f, hp, rfl⟩
    | false =>
      have hret := Emits.emit_ Pos.none .ret [0] rfl
      obtain ⟨_, hw', hctx, rfl⟩ := hret.writes _ _ _ hr hc
      obtain ⟨f, hw, hp⟩ := hb.writes _ _ _ hb' (hret.growing.clean hr hc)
      exact ⟨_, hw.trans hw', false, f, hctx ▸ hp, rfl⟩

/-- The table after the parameters of a function have been defined. -/
def withParams (t : SymbolTable) (params : List Name) : SymbolTable := params.foldl (fun t p => (t.define p.text).2) t

theorem Emits.defineParams : ∀ params : List Name, Emits (defineParams params) fun c _ c' f =>
    f = .nil ∧ c' = { c with table := withParams c.table params }
  | [] => Emits.pure () fun _ => ⟨rfl, rfl⟩
  | p :: ps => by
    have heq : Generator.defineParams (p :: ps) = Generator.resolveTop? p.text >>= fun sym =>
        if sym.isSome then MonadExcept.throw { cause := .redeclared p.text, pos := p.pos }
        else Generator.define p.text >>= fun _ => Generator.defineParams ps := by
      simp only [Generator.defineParams]
      congr
    rw [heq]
    refine (Emits.resolveTop? p.text).bind_silent (fun sym => Emits.unless
      ((Emits.define p.text).bind_silent (fun _ => Emits.defineParams ps) (R := fun c _ c' f =>
        f = .nil ∧ c' = { c with table := withParams c.table (p :: ps) }) ?_)) ?_
    · rintro c _ _ _ _ _ ⟨rfl, rfl⟩ ⟨rfl, rfl⟩
      exact ⟨rfl, rfl⟩
    · rintro c _ _ _ _ _ ⟨rfl, rfl⟩ h
      exact h

/-- The table in which the body of a function may refer to the function by name. -/
def withSelf (t : SymbolTable) : Option String → SymbolTable
  | none => t
  | some name => if (t.resolveTop? name).isNone then (t.defineFunction name).2 else t

theorem Emits.defineSelf (self : Option String) : Emits (self.forM defineSelf) fun c _ c' f =>
    f = .nil ∧ c' = { c with table := withSelf c.table self } := by
  cases self with
  | none => exact Emits.pure () fun _ => ⟨rfl, rfl⟩
  | some name =>
    refine (Emits.resolveTop? name).bind_silent (Q := fun sym c _ c' f => f = .nil ∧
      c' = { c with table := if sym.isNone then (c.table.defineFunction name).2 else c.table })
      (fun sym => Emits.ite (fun h => ?_) fun h => ?_) ?_
    · exact Emits.modifyGet (fun g => ⟨rfl, by simp [context, h]⟩) (fun _ => rfl) fun _ => .idle rfl
    · exact Emits.pure () fun _ => ⟨rfl, by simp [h]⟩
    · rintro c _ _ _ _ _ ⟨rfl, rfl⟩ ⟨rfl, rfl⟩
      exact ⟨rfl, rfl⟩

/-- The instruction that takes the cell of a captured variable. -/
def captureOp (sym : Symbol) : Instruction :=
  match sym.kind with
  | .localVar => ⟨.getLocalPtr, [sym.index]⟩
  | .captured => ⟨.getFreePtr, [sym.index]⟩
  | _ => ⟨.currentFuncPtr, []⟩

/-- The code that takes the cells of captured variables. -/
def captureCode : List Symbol → Fragment
  | [] => .nil
  | sym :: rest => .seq (.op (captureOp sym)) (captureCode rest)

/-- Take the cell of one captured variable. -/
def emitCapture (pos : Pos) (sym : Symbol) : Gen Unit :=
  match sym.kind with
  | .localVar => emit_ pos .getLocalPtr [sym.index]
  | .captured => emit_ pos .getFreePtr [sym.index]
  | .self => emit_ pos .currentFuncPtr
  | kind => throw { cause := .uncapturable kind sym.name, pos }

theorem emitCaptures_cons (pos : Pos) (sym : Symbol) (rest : List Symbol) :
    emitCaptures pos (sym :: rest) = emitCapture pos sym >>= fun _ => emitCaptures pos rest := by
  simp only [emitCaptures]
  unfold emitCapture
  cases sym.kind <;> rfl

theorem Emits.emitCapture (pos : Pos) (sym : Symbol) : Emits (emitCapture pos sym) (Just (captureOp sym)) := by
  unfold Generator.emitCapture captureOp
  cases sym.kind with
  | localVar => exact Emits.emit_ _ _ _ rfl
  | captured => exact Emits.emit_ _ _ _ rfl
  | self => exact Emits.emit_ _ _ _ rfl
  | globalVar => exact Emits.throw _
  | builtin => exact Emits.throw _

theorem Emits.emitCaptures (pos : Pos) (syms : List Symbol) : Emits (emitCaptures pos syms) fun c _ c' f =>
    c' = c ∧ f = captureCode syms := by
  induction syms with
  | nil => exact Emits.pure () fun _ => ⟨rfl, rfl⟩
  | cons sym rest ih =>
    rw [emitCaptures_cons]
    refine (Emits.emitCapture pos sym).bind (fun _ => ih) ?_
    rintro c _ _ _ _ _ _ ⟨rfl, rfl⟩ ⟨rfl, rfl⟩
    exact ⟨rfl, rfl⟩

/-- A context with a new routine, which is a constant too. -/
def Context.withRoutine (c : Context) (r : Routine) : Context := { c with
  heap := (c.heap.newFunction r).2
  constants := c.constants.push (.function (c.heap.newFunction r).1) }

/-- Make a function value from a routine and the variables it captures. -/
def makeFunction (pos : Pos) (r : Routine) (captures : List Symbol) : Gen Unit := do
  let constant ← addConstant (.function (← newRoutine r))
  if captures.isEmpty then emit_ pos .constant [constant]
  else
    emitCaptures pos captures
    emit_ pos .closure [constant, captures.length]

/-- The code that makes a function value from a constant and the variables it captures. -/
def functionCode (constant : Nat) (captures : List Symbol) : Fragment :=
  if captures.isEmpty then .op ⟨.constant, [constant]⟩
  else .seq (captureCode captures) (.op ⟨.closure, [constant, captures.length]⟩)

theorem routineAt_newFunction (h : Heap) (f : Routine) (r : Ref) :
    (h.newFunction f).2.routineAt r = if r = h.routines.size then f else h.routineAt r := by
  simp only [Heap.newFunction, Heap.routineAt, Array.getD_eq_getD_getElem?, Array.getElem?_push]
  split <;> rfl

theorem Emits.newRoutine (r : Routine) : Emits (newRoutine r) fun c ref c' f =>
    f = .nil ∧ ref = (c.heap.newFunction r).1 ∧ c' = { c with heap := (c.heap.newFunction r).2 } :=
  Emits.modifyGet (fun _ => ⟨rfl, rfl, rfl⟩) (fun _ => rfl) fun _ => .idle rfl

theorem Emits.makeFunction (pos : Pos) (r : Routine) (captures : List Symbol) :
    Emits (makeFunction pos r captures) fun c _ c' f =>
      c' = c.withRoutine r ∧ f = functionCode c.constants.size captures := by
  refine (Emits.newRoutine r).bind_silent (fun ref => (Emits.addConstant (.function ref)).bind_silent
    (fun n => Emits.ite (fun h => (Emits.emit_ pos .constant [n] rfl).weaken
      (Q := fun c _ c' f => c' = c ∧ f = functionCode n captures) ?_) fun h =>
      (Emits.emitCaptures pos captures).bind (fun _ =>
        Emits.emit_ pos .closure [n, captures.length] rfl) ?_) (R := fun c _ c' f =>
      c' = { c with constants := c.constants.push (.function ref) } ∧
        f = functionCode c.constants.size captures) ?_) ?_
  · rintro c _ _ _ ⟨rfl, rfl⟩
    exact ⟨rfl, by rw [functionCode, if_pos h]⟩
  · rintro c _ _ _ _ _ _ ⟨rfl, rfl⟩ ⟨rfl, rfl⟩
    exact ⟨rfl, by rw [functionCode, if_neg h]⟩
  · rintro c _ _ _ _ _ ⟨rfl, rfl⟩ ⟨rfl, rfl⟩
    exact ⟨rfl, rfl⟩
  · rintro c _ _ _ _ _ ⟨rfl, rfl⟩ ⟨rfl, rfl⟩
    exact ⟨rfl, rfl⟩

def literalRoutine (params : List Name) (variadic : Bool) (scope : CodeScope) (summary : ScopeSummary) : Routine where
  code := scope.code
  locals := summary.locals
  params := params.length
  variadic := variadic
  free := summary.captures.map (·.name)
  positions := scope.positions

theorem throw_bind (e : CompileError) (k : α → Gen β) : ((throw e : Gen α) >>= k) = throw e := rfl

theorem function_eq (pos : Pos) (params : List Name) (variadic : Bool) (self : Option String)
    (body : Gen Bool) : function pos params variadic self body =
      if maxOperand 1 < params.length then throw { cause := .limit .parameters (maxOperand 1), pos }
      else if variadic && params.isEmpty then throw { cause := .variadicWithoutParameter, pos }
      else enclosed (do
          defineParams params
          self.forM defineSelf
          inBlock body >>= fun exits => emitFinalReturn exits) >>= fun r =>
        if maxOperand 2 < r.1.code.size then
          throw { cause := .limit .instructionBytes (maxOperand 2), pos }
        else makeFunction pos (literalRoutine params variadic r.1 r.2) r.2.captures := by
  unfold function enclosed makeFunction literalRoutine
  split
  · rfl
  · split
    · rfl
    · simp [throw_bind]

/-- **A function literal.** The body is compiled in a function of its own, and the function value is made
from the routine that results. -/
theorem Emits.function {Pb : Context → Bool → Context → Fragment → Prop}
    {R : Context → Unit → Context → Fragment → Prop} {pos : Pos} {params : List Name} {variadic : Bool}
    {self : Option String} (hb : Emits body Pb)
    (h : ∀ c c1 exits f scope,
      Pb { c with table := (withSelf (withParams (c.table.enter false) params) self).enter true } exits c1 f →
      Assembled (Generator.returning exits f) scope.code →
      R c () (c1.leave.leave.withRoutine (literalRoutine params variadic scope c1.leave.table.leave.1))
        (functionCode c1.constants.size c1.leave.table.leave.1.captures)) :
    Emits (function pos params variadic self body) R := by
  rw [function_eq]
  have hin : Emits (do
      Generator.defineParams params
      self.forM Generator.defineSelf
      Generator.inBlock body >>= fun exits => emitFinalReturn exits : Gen Unit) fun c _ c' f =>
      ∃ exits c1 body, Pb { c with table := (withSelf (withParams c.table params) self).enter true }
        exits c1 body ∧ c' = c1.leave ∧ f = Generator.returning exits body := by
    refine (Emits.defineParams params).bind_silent (fun _ => (Emits.defineSelf self).bind_silent
      (fun _ => (hb.inBlock (Q := fun c exits c' f => ∃ c1, Pb c.enter exits c1 f ∧ c' = c1.leave)
        fun c exits c1 f hp => ⟨c1, hp, rfl⟩).returning) (R := fun c _ c' f =>
          ∃ exits c1 body, Pb { c with table := (withSelf c.table self).enter true } exits c1 body ∧
            c' = c1.leave ∧ f = Generator.returning exits body) ?_) ?_
    · rintro c _ _ _ c' f rfl ⟨exits, body, ⟨c1, hp, rfl⟩, rfl⟩
      exact ⟨exits, c1, body, hp, rfl, rfl⟩
    · rintro c _ _ _ c' f rfl h
      exact h
  refine Emits.unless (Emits.unless (hin.enclosed.bind_silent (fun r => Emits.unless
    (Emits.makeFunction pos _ _)) ?_))
  rintro c ⟨scope, summary⟩ _ _ _ _ ⟨_, f, ⟨exits, c1, body, hp, rfl, rfl⟩, hasm, hsum, rfl⟩ ⟨rfl, rfl⟩
  cases hsum
  exact h _ _ _ _ _ hp hasm

/-! ## Modules -/

def Context.enterModule (c : Context) : Context :=
  { c with table := (SymbolTable.ofBuiltins c.table.builtins).enter false }

def intoModule (g : Generator) (name : String) : Generator := { g with
  table := (SymbolTable.ofBuiltins g.table.builtins).enter false
  scope := {}
  outer := g.scope :: g.outer
  unitDepth := g.outer.length + 1
  importing := name :: g.importing }

/-- The state of the importing code, `g`, once the code of a module has left the state `g1`. -/
def outOfModule (g g1 : Generator) : Generator := { g1 with
  table := g.table
  scope := (g1.unwind g1.unitDepth).outer.headD {}
  outer := (g1.unwind g1.unitDepth).outer.tail
  unitDepth := g.unitDepth
  importing := g1.importing.tail }

theorem inModule_apply (name : String) (x : Gen Unit) (g : Generator) :
    inModule name x g = match x (g.intoModule name) with
      | .ok _ g1 => .ok ((g1.unwind g1.unitDepth).scope, g1.table.leave.1.locals) (g.outOfModule g1)
      | .error e g1 => .error e (g.outOfModule g1) := by
  have hrest (g1 : Generator) : ∃ scope outer, g1.unwind g1.unitDepth = { g1 with scope, outer } := by
    unfold unwind
    split <;> exact ⟨_, _, rfl⟩
  unfold inModule
  dsimp only
  rw [show ({ g with table := _, scope := _, outer := _, unitDepth := _, importing := _ } : Generator) =
    g.intoModule name from rfl]
  cases x (g.intoModule name) with
  | ok u g1 =>
    obtain ⟨scope, outer, heq⟩ := hrest g1
    simp only [outOfModule, heq]
    cases outer <;> rfl
  | error e g1 =>
    obtain ⟨scope, outer, heq⟩ := hrest g1
    simp only [outOfModule, heq]
    cases outer <;> rfl

theorem Growing.inModule {x : Gen Unit} (hx : Growing x) : Growing (inModule name x) := by
  intro g
  have h := hx (g.intoModule name)
  rw [inModule_apply]
  generalize x (g.intoModule name) = r at h
  cases r <;> exact ⟨h.errors, h.aborted⟩

def moduleRoutine (scope : CodeScope) (locals : Nat) : Routine :=
  { code := scope.code, locals, positions := scope.positions }

theorem moduleFunction_eq (pos : Pos) (name : String) (body : Gen Bool) :
    moduleFunction pos name body = (get : Gen Generator) >>= fun g =>
      if g.importing.contains name then throw { cause := .cyclicImport name, pos }
      else (get : Gen Generator) >>= fun g => match g.modules.get? name with
        | some routine => pure routine
        | none => (get : Gen Generator) >>= fun g =>
          inModule name (body >>= fun exits => emitFinalReturn exits) >>= fun r =>
          newRoutine (moduleRoutine r.1 r.2) >>= fun routine =>
          (get : Gen Generator) >>= fun g' =>
          (if g'.errors.size = g.errors.size then
            modify fun g => { g with modules := g.modules.insert name routine }
          else pure ()) >>= fun _ => pure routine := by
  refine bind_congr fun g => ?_
  split
  · rfl
  · refine bind_congr fun g => ?_
    cases g.modules.get? name with
    | some r => rfl
    | none => simp [moduleRoutine, map_ite]

theorem Obeys.moduleFunction {L : Law} [L.Lenient] (hkeep : ∀ g modules, L.ok g { g with modules })
    (hb : Obeys L (inModule name (body >>= fun exits => Generator.emitFinalReturn exits))) :
    Obeys L (moduleFunction pos name body) := by
  rw [moduleFunction_eq]
  refine get.bind fun g => ite (throw _) (get.bind fun g => ?_)
  cases g.modules.get? name with
  | some routine => exact pure routine
  | none =>
    exact get.bind fun g => hb.bind fun r => (newRoutine _).bind fun routine => get.bind fun g' =>
      (ite (modify fun g => hkeep g _) (pure _)).bind fun _ => pure routine

theorem Growing.moduleFunction (hb : Growing body) : Growing (moduleFunction pos name body) :=
  Obeys.moduleFunction (fun _ _ => .of_eq rfl rfl) (Growing.inModule (hb.bind Obeys.emitFinalReturn))

/-- The state after a module has been compiled, back in the importing code. -/
def afterModule (g g1 : Generator) (name : String) (r : Routine) : Generator := { g with
  constants := g1.constants
  modules := g1.modules.insert name (g1.heap.newFunction r).1
  errors := g1.errors
  aborted := g1.aborted
  heap := (g1.heap.newFunction r).2 }

/-- **What the compilation of a new module is**: the code of the module is compiled inside, and the importing code
goes on where it was. -/
theorem moduleFunction_new (hgrow : Growing body) (hm : g.modules.get? name = none)
    (h : moduleFunction pos name body g = .ok r g') (hc : Clean g') :
    name ∉ g.importing ∧ ∃ g1, (body >>= fun exits => emitFinalReturn exits) (g.intoModule name) = .ok () g1 ∧
      Clean g1 ∧ ∀ f, Writes (g.intoModule name) f g1 → r = g1.heap.routines.size ∧
        g' = g.afterModule g1 name (moduleRoutine g1.scope g1.table.leave.1.locals) := by
  have hclean : Clean g := hgrow.moduleFunction.clean h hc
  rw [moduleFunction_eq] at h
  obtain ⟨_, _, hget, h⟩ := bind_ok h
  cases hget
  by_cases hbusy : g.importing.contains name = true
  · rw [if_pos hbusy] at h
    cases h
  rw [if_neg hbusy] at h
  obtain ⟨_, _, hget, h⟩ := bind_ok h
  cases hget
  rw [hm] at h
  obtain ⟨_, _, hget, h⟩ := bind_ok h
  cases hget
  obtain ⟨⟨scope, locals⟩, g2, hin, h⟩ := bind_ok h
  obtain ⟨routine, g3, hroutine, h⟩ := bind_ok h
  cases hroutine
  obtain ⟨_, _, hget, h⟩ := bind_ok h
  cases hget
  obtain ⟨_, g4, hins, h⟩ := bind_ok h
  cases h
  have hgrow' : Growing (if g2.errors.size = g.errors.size then modify fun g => { g with
      modules := g.modules.insert name (g2.heap.newFunction (moduleRoutine scope locals)).1 }
      else Pure.pure () : Gen Unit) :=
    Obeys.ite (Growing.modify fun _ => rfl) (Obeys.pure _)
  have hclean3 := hgrow'.clean hins hc
  have hclean2 : Clean g2 := hclean3
  have hsame : g2.errors.size = g.errors.size := hclean2.trans hclean.symm
  rw [if_pos hsame] at hins
  cases hins
  rw [inModule_apply] at hin
  refine ⟨fun hmem => hbusy (List.contains_iff_mem.mpr hmem), ?_⟩
  cases hx : (body >>= fun exits => emitFinalReturn exits) (g.intoModule name) with
  | error e g1 =>
    rw [hx] at hin
    cases hin
  | ok u g1 =>
    rw [hx] at hin
    cases hin
    refine ⟨g1, rfl, hclean2, fun f hw => ⟨rfl, ?_⟩⟩
    -- no function is open any more, so there is nothing to unwind
    have hunwind : g1.unwind g1.unitDepth = g1 := by
      have hdepth : g1.outer.length - g1.unitDepth = 0 := by
        rw [hw.outer, hw.unitDepth]
        simp [intoModule]
      unfold unwind
      rw [hdepth]
      rfl
    have houter : g1.outer = g.scope :: g.outer := hw.outer
    have himporting : g1.importing = name :: g.importing := hw.importing
    simp only [afterModule, outOfModule, hunwind, houter, himporting, List.tail_cons]
    rfl

theorem get?_afterModule (g g1 : Generator) (name : String) (r : Routine) (other : String) :
    (g.afterModule g1 name r).modules.get? other =
      if other = name then some g1.heap.routines.size else g1.modules.get? other := Dict.get?_insert ..

theorem moduleFunction_known (hm : g.modules.get? name = some routine)
    (h : moduleFunction pos name body g = .ok r g') : r = routine ∧ g' = g := by
  obtain ⟨_, _, hget, h⟩ := bind_ok h
  cases hget
  by_cases hbusy : g.importing.contains name = true
  · rw [if_pos hbusy] at h
    cases h
  rw [if_neg hbusy] at h
  obtain ⟨_, _, hget, h⟩ := bind_ok h
  cases hget
  rw [hm] at h
  cases h
  exact ⟨rfl, rfl⟩

/-- **A source module.** It has been compiled before, or its body is compiled to a new routine now. While that
goes on, the module is not there yet. -/
theorem Emits.moduleFunction
    {Pb : Context → Bool → Context → Fragment → Prop} {R : Context → Ref → Context → Prop}
    (hb : Emits body Pb) (hold : ∀ c r, c.modules.get? name = some r → R c r c)
    (hnew : ∀ c c1 exits f scope, c.modules.get? name = none → c1.modules.get? name = none →
      Pb c.enterModule exits c1 f → Assembled (Generator.returning exits f) scope.code →
      R c (c1.heap.newFunction (moduleRoutine scope c1.table.leave.1.locals)).1 { c1 with
        table := c.table
        heap := (c1.heap.newFunction (moduleRoutine scope c1.table.leave.1.locals)).2
        modules := c1.modules.insert name (c1.heap.newFunction (moduleRoutine scope c1.table.leave.1.locals)).1 }) :
    Emits (moduleFunction pos name body) fun c r c' f => f = .nil ∧ R c r c' where
  growing := hb.growing.moduleFunction
  writes g r g' hr hc := by
    cases hm : g.modules.get? name with
    | some routine =>
      obtain ⟨rfl, rfl⟩ := moduleFunction_known hm hr
      exact ⟨.nil, Writes.idle rfl, rfl, hold _ _ hm⟩
    | none =>
      obtain ⟨hbusy, g1, hrun, hclean, hafter⟩ := moduleFunction_new hb.growing hm hr hc
      obtain ⟨_, hw, exits, f, hp, rfl⟩ := hb.returning.writes _ _ _ hrun hclean
      obtain ⟨rfl, rfl⟩ := hafter _ hw
      have hnone : g1.modules.get? name = none := (hw.keeps.modules name (.inl (List.mem_cons_self ..))).trans hm
      refine ⟨.nil, .refl rfl rfl rfl ⟨rfl, fun n hn => ?_⟩, rfl, ?_⟩
      · -- the module itself was neither there nor being compiled
        have hne : n ≠ name := by
          rintro rfl
          rcases hn with hn | hn
          · exact hbusy hn
          · exact hn hm
        rw [get?_afterModule, if_neg hne]
        exact hw.keeps.modules n (hn.imp (List.mem_cons_of_mem name) id)
      · exact hnew g.context g1.context exits f g1.scope hm hnone hp
          ⟨by simpa [intoModule] using hw.code, hw.fits, hw.closed rfl⟩

end Generator

end Scripting
