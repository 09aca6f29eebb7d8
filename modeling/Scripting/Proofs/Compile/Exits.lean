import Scripting.Proofs.Compile.Flow
import Scripting.Proofs.Compile.Parts
/-!
# `Proofs.Compile.Exits` — statements that exit

The compiler leaves out what stands after a statement that exits, and the return at the end of a function
whose body exits. That is right only if control never gets past the end of such a statement in the finished
code, after the jumps out of the loops around it have got their targets.

* **parts** — `Calls` says which statements and blocks are compiled on the way through another one, and from
  which state; `Visits` is the chain of such calls from the body of a function on;
* **place** — the code of a part stands in the finished code of the whole, with the targets its open jumps got
  in the end (`Encloses`; one lemma for each construct, `Calls.encloses` for all of them);
* **verdict** — so the ways through the finished code are those of `Proofs.Compile.Flow`, and code that exits
  never leads past its end except through a jump that leaves a loop around it (`exit_sound`).
-/

namespace Scripting

open Code Fragment

/-- The offsets of the jumps that leave a loop around the current statement. -/
def CodeScope.IsOpen (c : CodeScope) (o : Nat) : Prop := ∃ l ∈ c.loops, o ∈ l.breaks ∨ o ∈ l.continues

/-- The importer for programs in which imports nest at most `depth` deep. -/
abbrev Importer.within (modules : ModuleMap) (depth : Nat) : Importer :=
  { modules, compile := compileModule modules depth }

namespace Generator

/-! ## Parts -/

/-- What is compiled as a whole and answers whether it exits. -/
inductive Part
  | stmt (s : Stmt)
  | stmts (body : List Stmt)
  | block (body : List Stmt)

def Part.compile (imports : Importer) : Part → Gen Bool
  | .stmt s => compileStmt imports s
  | .stmts body => compileStmts imports body
  | .block body => inBlock (compileStmts imports body)

def entered (g : Generator) : Generator := { g with table := g.table.enter true }

/-- **The parts of a part.** `Calls imports a g b g1`: when `a` is compiled from state `g`, then `b` is compiled
from state `g1`. -/
inductive Calls (imports : Importer) : Part → Generator → Part → Generator → Prop
  | first {s rest g} : Calls imports (.stmts (s :: rest)) g (.stmt s) g
  | rest {s rest g g1} (h : compileStmt imports s g = .ok false g1) :
    Calls imports (.stmts (s :: rest)) g (.stmts rest) g1
  | opened {body g} : Calls imports (.block body) g (.stmts body) g.entered
  | block {pos body g} : Calls imports (.stmt (.block pos body)) g (.block body) g
  | branchInit {pos init test body other g} :
    Calls imports (.stmt (.branch pos (some init) test body other)) g (.stmt init) g.entered
  | branchBody {pos init test body other j g g1 g2 g3} (hi : compileSimple imports init g.entered = .ok () g1)
    (ht : compileExpr imports none test g1 = .ok () g2) (hj : emit pos .jumpFalsy [0] g2 = .ok j g3) :
    Calls imports (.stmt (.branch pos init test body other)) g (.block body) g3
  | branchOther {pos init test body other exits j toEnd g g1 g2 g3 g4 g5 g6}
    (hi : compileSimple imports init g.entered = .ok () g1) (ht : compileExpr imports none test g1 = .ok () g2)
    (hj : emit pos .jumpFalsy [0] g2 = .ok j g3) (hb : inBlock (compileStmts imports body) g3 = .ok exits g4)
    (he : (if exits then pure none else some <$> emit pos .jump [0] : Gen (Option Nat)) g4 = .ok toEnd g5)
    (hp : patchHere pos j g5 = .ok () g6) :
    Calls imports (.stmt (.branch pos init test body (some other))) g (.stmt other) g6
  | loopInit {pos init test post body g} :
    Calls imports (.stmt (.loop pos (some init) test post body)) g (.stmt init) g.entered
  | loopBody {pos init post test body toEnd g g1 g2} (hi : compileSimple imports init g.entered = .ok () g1)
    (ht : testJump pos (compileTest imports test) g1 = .ok toEnd g2) :
    Calls imports (.stmt (.loop pos init test post body)) g (.block body) g2.looping
  | loopPost {pos init post test body toEnd exits jumps g g1 g2 g3}
    (hi : compileSimple imports init g.entered = .ok () g1)
    (ht : testJump pos (compileTest imports test) g1 = .ok toEnd g2)
    (hb : inLoop (inBlock (compileStmts imports body)) g2 = .ok (exits, jumps) g3)
    (hback : (!exits || !jumps.continues.isEmpty) = true) :
    Calls imports (.stmt (.loop pos init test (some post) body)) g (.stmt post) g3
  | forInBody {pos key value iterable body iterator toEnd g g1 g2 g3 g4}
    (hi : compileExpr imports none iterable g.entered = .ok () g1) (hs : startIteration pos g1 = .ok iterator g2)
    (ht : testJump pos (some (nextIteration pos iterator)) g2 = .ok toEnd g3)
    (hb : bindRound pos iterator key.text (value.map (·.text)) g3.looping = .ok () g4) :
    Calls imports (.stmt (.forIn pos key value iterable body)) g (.block body) g4

/-- The parts that are compiled on the way through a part, at any depth. -/
inductive Visits (imports : Importer) (a : Part) (g : Generator) : Part → Generator → Prop
  | here : Visits imports a g a g
  | call {b c g1 g2} (h : Visits imports a g b g1) (hc : Calls imports b g1 c g2) : Visits imports a g c g2

/-! ## Where the code of a part stands -/

/-- The code written from `g1` to `g2` is part of the code written from `g` to `g'`: wherever the whole is laid
out, the part is laid out in it. -/
def Encloses (g g1 g2 g' : Generator) : Prop := ∀ f, Writes g1 f g2 → ∃ F, Writes g F g' ∧
    ∀ code t, Laid code F g.scope.code.size t → ∃ t', Laid code f g1.scope.code.size t'

variable {g g1 g2 g3 g4 g5 g6 g' : Generator} {pos : Pos} {j j' : Nat} {u v : Unit} {a yes no : Fragment}

theorem Encloses.refl : Encloses g g g' g' := fun f hw => ⟨f, hw, fun _ t hl => ⟨t, hl⟩⟩

theorem Encloses.trans (h : Encloses g g1 g2 g') (h' : Encloses g1 g3 g4 g2) : Encloses g g3 g4 g' := by
  intro f hw
  obtain ⟨f1, hw1, hl1⟩ := h' f hw
  obtain ⟨F, hwF, hlF⟩ := h f1 hw1
  refine ⟨F, hwF, fun code t hl => ?_⟩
  obtain ⟨t', hl'⟩ := hlF code t hl
  exact hl1 code t' hl'

theorem Encloses.after (hw : Writes g a g1) : Encloses g g1 g' g' := by
  intro f hf
  refine ⟨.seq a f, hw.trans hf, fun code t hl => ⟨t, ?_⟩⟩
  rw [hw.size]
  exact hl.right

theorem Encloses.before (hw : Writes g1 a g') : Encloses g g g1 g' := by
  intro f hf
  exact ⟨.seq f a, hf.trans hw, fun code t hl => ⟨t, hl.left⟩⟩

theorem Encloses.block : Encloses g g.entered g1 { g1 with table := g1.table.leave.2 } := by
  intro f hf
  exact ⟨f, hf.congr rfl rfl hf.outer hf.unitDepth ⟨hf.importing, hf.keeps.modules⟩, fun _ t hl => ⟨t, hl⟩⟩

theorem size_emit_jump {op : Opcode} (hop : op.widths = [2]) (h : emit pos op [target] g = .ok j g1) :
    g1.scope.code.size = g.scope.code.size + 3 := by
  obtain ⟨-, -, -, hcode⟩ := emit_jump_ok hop h
  have := congrArg List.length hcode
  simpa [length_assemble_jump hop] using this

theorem size_patchHere (h : patchHere pos j g = .ok u g1) : g1.scope.code.size = g.scope.code.size := by
  obtain ⟨-, -, hcode⟩ := patchHere_ok h
  rw [hcode, size_patchU16]

theorem Encloses.skip (he : emit pos .jumpFalsy [0] g = .ok j g1) (hp : patchHere pos j g2 = .ok u g3) :
    Encloses g g1 g2 g3 := by
  intro f hf
  have he' : emit pos SkipKind.falsy.op [0] g = .ok j g1 := he
  refine ⟨.skip .falsy f, (skip_writes he' hf hp).1, fun code t hl => ⟨t, ?_⟩⟩
  rw [size_emit_jump rfl he]
  exact hl.skip_body

section

variable {exits : Bool} {toEnd : Option Nat} (he : emit pos .jumpFalsy [0] g = .ok j g1)
  (hend : (if exits then pure none else some <$> emit pos .jump [0] : Gen (Option Nat)) g2 = .ok toEnd g3)
  (hp : patchHere pos j g3 = .ok u g4)

include he hend hp

theorem Encloses.first_arm (hn : Writes g4 no g5) (hp' : toEnd.forM (patchHere pos) g5 = .ok v g6) :
    Encloses g g1 g2 g6 := by
  intro f hf
  refine ⟨.fork f (!exits) no, (arms_writes he hf hend hp hn hp').1, fun code t hl => ⟨t, ?_⟩⟩
  rw [size_emit_jump rfl he]
  exact hl.fork_yes

theorem Encloses.second_arm (hy : Writes g1 yes g2) (hp' : toEnd.forM (patchHere pos) g5 = .ok v g6) :
    Encloses g g4 g5 g6 := by
  intro f hf
  refine ⟨.fork yes (!exits) f, (arms_writes he hy hend hp hf hp').1, fun code t hl => ⟨t, ?_⟩⟩
  have hsize : g4.scope.code.size = noStart yes (!exits) g.scope.code.size := by
    rw [size_patchHere hp]
    cases exits with
    | true =>
      cases hend
      rw [hy.size, size_emit_jump rfl he]
      rfl
    | false =>
      rw [← bind_pure_comp] at hend
      obtain ⟨j', g3', hend, hr⟩ := bind_ok hend
      cases hr
      rw [size_emit_jump rfl hend, hy.size, size_emit_jump rfl he]
      rfl
  rw [hsize]
  exact hl.fork_no

end

section

variable {tested back : Bool} {test body post : Fragment} {jump : Option Nat}

theorem Encloses.loop_body (ht : TestWritten tested test g jump g1) (hp : BackWritten back post g.scope.code.size
      g2.looped g3)
    (htest : jump.forM (fun j => patchJump pos j g3.scope.code.size) g3 = .ok u g4)
    (hbody : patchLoop pos (g2.scope.loops.headD {}) g2.scope.code.size g3.scope.code.size g4 = .ok v g5) :
    Encloses g g1.looping g2 g5 := by
  intro f hf
  refine ⟨.loop tested test f back post, (loop_writes ht hf hp htest hbody).1, fun code t hl => ?_⟩
  have hsize : g1.looping.scope.code.size = bodyStart tested test g.scope.code.size := ht.bodyAt
  rw [hsize]
  exact ⟨_, hl.loop_body⟩

theorem Encloses.loop_post (ht : TestWritten tested test g jump g1) (hb : Writes g1.looping body g2)
    (he : emit pos .jump [g.scope.code.size] g3 = .ok n g4)
    (htest : jump.forM (fun j => patchJump pos j g4.scope.code.size) g4 = .ok u g5)
    (hbody : patchLoop pos (g2.scope.loops.headD {}) g2.scope.code.size g4.scope.code.size g5 = .ok v g6) :
    Encloses g g2.looped g3 g6 := by
  intro f hf
  refine ⟨.loop tested test body true f, (loop_writes ht hb (BackWritten.some hf he) htest hbody).1,
    fun code t hl => ⟨t, ?_⟩⟩
  have hsize : g2.scope.code.size = bodyStart tested test g.scope.code.size + body.size := by
    rw [hb.size, ← ht.bodyAt]
    rfl
  show Laid code f g2.scope.code.size t
  rw [hsize]
  exact hl.loop_post

end

/-! ## Constructs -/

section

variable {Pb Po : Context → Bool → Context → Fragment → Prop} {body : Gen Bool} {x : Bool}

theorem arms_body (ho : ∀ y, other = some y → Emits y Po) (he : emit pos .jumpFalsy [0] g = .ok j g1)
    (h : arms pos body other g = .ok x g') (hc : Clean g') :
    ∃ exits g2, body g1 = .ok exits g2 ∧ Clean g2 ∧ Encloses g g1 g2 g' := by
  cases other with
  | none =>
    obtain ⟨_, _, he', h⟩ := bind_ok h
    cases he'.symm.trans he
    obtain ⟨exits, g2, hb', h⟩ := bind_ok h
    obtain ⟨_, g3, hp, h⟩ := bind_ok h
    cases h
    exact ⟨exits, g2, hb', (Obeys.patchHere _ _).clean hp hc, .skip he hp⟩
  | some other =>
    obtain ⟨_, _, exits, g2, toEnd, g3, g4, exits', g5, he', hb', hc2, hend, hp, ho', hc5, hp', -⟩ :=
      arms_some_ok (ho other rfl).growing h hc
    cases he'.symm.trans he
    obtain ⟨no, hwn, -⟩ := (ho other rfl).writes _ _ _ ho' hc5
    exact ⟨exits, g2, hb', hc2, .first_arm he hend hp hwn hp'⟩

theorem arms_other (hb : Emits body Pb) (ho : Emits other Po) (he : emit pos .jumpFalsy [0] g = .ok j g1)
    (hb' : body g1 = .ok exits g2)
    (hend : (if exits then pure none else some <$> emit pos .jump [0] : Gen (Option Nat)) g2 = .ok toEnd g3)
    (hp : patchHere pos j g3 = .ok u g4) (h : arms pos body (some other) g = .ok x g') (hc : Clean g') :
    ∃ exits' g5, other g4 = .ok exits' g5 ∧ Clean g5 ∧ Encloses g g4 g5 g' := by
  obtain ⟨_, _, _, _, _, _, _, exits', g5, he1, hb1, hc2, hend1, hp1, ho', hc5, hp', -⟩ :=
    arms_some_ok ho.growing h hc
  cases he1.symm.trans he
  cases hb1.symm.trans hb'
  cases hend1.symm.trans hend
  cases hp1.symm.trans hp
  obtain ⟨yes, hwy, -⟩ := hb.writes _ _ _ hb' hc2
  exact ⟨exits', g5, ho', hc5, .second_arm he hend hp hwy hp'⟩

end

section

variable {Pt Pp : Context → Unit → Context → Fragment → Prop} {Pb : Context → Bool → Context → Fragment → Prop}
  {test : Option (Gen Unit)} {post : Gen Unit} {body : Gen Bool} {toEnd : Option Nat} {jumps : PendingJumps}

theorem rounds_body (ht : ∀ y, test = some y → Emits y Pt) (hb : Emits body Pb) (hp : Emits post Pp)
    (ht' : testJump pos test g = .ok toEnd g1) (h : rounds pos test post body g = .ok jumps g') (hc : Clean g') :
    ∃ exits g2, body g1.looping = .ok exits g2 ∧ Clean g2 ∧ Encloses g g1.looping g2 g' := by
  obtain ⟨_, _, exits, g2, g3, g4, htest, hc1, hx, hc2, rfl, hback, hc3, hp4, hp5⟩ :=
    rounds_ok hb.growing hp.growing h hc
  cases htest.symm.trans ht'
  obtain ⟨t, hwt, -⟩ := testJump_writes ht ht' hc1
  obtain ⟨p, hwp, -⟩ := wayBack_writes hp hback hc3
  exact ⟨exits, g2, hx, hc2, .loop_body hwt hwp hp4 hp5⟩

theorem rounds_post (ht : ∀ y, test = some y → Emits y Pt) (hb : Emits body Pb) (hp : Emits post Pp)
    (ht' : testJump pos test g = .ok toEnd g1) (hb' : inLoop body g1 = .ok (exits, jumps') g2)
    (hback : (!exits || !jumps'.continues.isEmpty) = true) (h : rounds pos test post body g = .ok jumps g')
    (hc : Clean g') : ∃ g3, post g2 = .ok () g3 ∧ Clean g3 ∧ Encloses g g2 g3 g' := by
  obtain ⟨_, _, _, g0, g4, g5, htest, hc1, hx, hc2, rfl, hway, hc4, hp4, hp5⟩ := rounds_ok hb.growing hp.growing h hc
  cases htest.symm.trans ht'
  obtain ⟨g0, hx', hjumps, rfl⟩ := inLoop_ok hb'
  cases hx'.symm.trans hx
  obtain rfl : jumps' = _ := hjumps
  obtain ⟨t, hwt, -⟩ := testJump_writes ht ht' hc1
  obtain ⟨b, hwb, -⟩ := hb.writes _ _ _ hx hc2
  unfold wayBack at hway
  rw [if_pos hback] at hway
  obtain ⟨_, g3, hpost, hjump⟩ := bind_ok hway
  obtain ⟨n, he⟩ := discard_ok hjump
  exact ⟨g3, hpost, (Obeys.emit _ _ _).clean he hc4, .loop_post hwt hwb he hp4 hp5⟩

end

/-! ## Statements -/

section

variable {imports : Importer} {M : ModuleMap} {x : Bool} {body : List Stmt}

theorem emits_startIteration : Emits (startIteration pos) fun _ _ _ _ => True := by
  have hdefine (sym : Symbol) : Emits (emitDefine pos sym) fun _ _ _ _ => True := by
    unfold emitDefine
    split
    · exact (Emits.emit_ pos .setGlobal [sym.index] rfl).weaken fun _ _ _ _ _ => trivial
    · exact (Emits.emit_ pos .defineLocal [sym.index] rfl).weaken fun _ _ _ _ _ => trivial
  have hkept (sym : Symbol) : Emits (emitDefine pos sym >>= fun _ => pure sym) fun _ _ _ _ => True :=
    (hdefine sym).bind (fun _ => Emits.pure (P := fun _ _ _ _ => True) sym fun _ => trivial)
      fun _ _ _ _ _ _ _ _ _ => trivial
  have hvariable : Emits (define iteratorName >>= fun sym => emitDefine pos sym >>= fun _ => pure sym)
      fun _ _ _ _ => True := (Emits.define iteratorName).bind hkept fun _ _ _ _ _ _ _ _ _ => trivial
  exact (Emits.emit_ pos .iterInit [] rfl).bind (fun _ => hvariable) fun _ _ _ _ _ _ _ _ _ => trivial

theorem branch_encloses (himp : ImporterBuilds M imports)
    (h : compileStmt imports (.branch pos init test body other) g = .ok x g') (hc : Clean g') :
    ∃ g1 g2 g3, compileSimple imports init g.entered = .ok () g1 ∧ Clean g1 ∧ Encloses g g.entered g1 g' ∧
      compileExpr imports none test g1 = .ok () g2 ∧
      arms pos (inBlock (compileStmts imports body)) (compileOther imports other) g2 = .ok x g3 ∧ Clean g3 ∧
      Encloses g g2 g3 g' := by
  obtain ⟨g3, hrun, rfl⟩ := inBlock_ok h
  obtain ⟨_, g1, hi, hrun⟩ := bind_ok hrun
  obtain ⟨_, g2, ht, harms⟩ := bind_ok hrun
  have hma : Makes M [] ⟨[.any], [], false⟩ id
      (arms pos (inBlock (compileStmts imports body)) (compileOther imports other)) :=
    Makes.arms (makes_stmts himp body).inBlock (makes_other himp other)
  have hc2 : Clean g2 := hma.growing.clean harms hc
  have hc1 : Clean g1 := (makes_expr himp none test).growing.clean ht hc2
  obtain ⟨i, hwi, -⟩ := (makes_simple himp init).writes _ _ _ hi hc1
  obtain ⟨t, hwt, -⟩ := (makes_expr himp none test).writes _ _ _ ht hc2
  obtain ⟨f, hwa, -⟩ := hma.writes _ _ _ harms hc
  exact ⟨g1, g2, g3, hi, hc1, Encloses.block.trans (.before (hwt.trans hwa)), ht, harms, hc,
    Encloses.block.trans (.after (hwi.trans hwt))⟩

theorem loop_encloses (himp : ImporterBuilds M imports)
    (h : compileStmt imports (.loop pos init test post body) g = .ok x g') (hc : Clean g') :
    ∃ g1 jumps g2, compileSimple imports init g.entered = .ok () g1 ∧ Clean g1 ∧ Encloses g g.entered g1 g' ∧
      rounds pos (compileTest imports test) (compileSimple imports post) (inBlock (compileStmts imports body)) g1 =
        .ok jumps g2 ∧ Clean g2 ∧ Encloses g g1 g2 g' := by
  rw [compileStmt, loop_eq] at h
  obtain ⟨g2, hrun, rfl⟩ := inBlock_ok h
  obtain ⟨_, g1, hi, hrun⟩ := bind_ok hrun
  obtain ⟨jumps, g3, hr, hend⟩ := bind_ok hrun
  cases hend
  have hmr : Makes M [] .flat (fun jumps => (compileTest imports test).isNone && jumps.breaks.isEmpty)
      (rounds pos (compileTest imports test) (compileSimple imports post) (inBlock (compileStmts imports body))) :=
    Makes.rounds (makes_test himp test) (makes_stmts himp body).inBlock (makes_simple himp post)
  have hc1 : Clean g1 := hmr.growing.clean hr hc
  obtain ⟨i, hwi, -⟩ := (makes_simple himp init).writes _ _ _ hi hc1
  obtain ⟨f, hwr, -⟩ := hmr.writes _ _ _ hr hc
  exact ⟨g1, jumps, g2, hi, hc1, Encloses.block.trans (.before hwr), hr, hc, Encloses.block.trans (.after hwi)⟩

theorem forIn_encloses (himp : ImporterBuilds M imports)
    (hi : compileExpr imports none iterable g.entered = .ok () g1)
    (hs : startIteration pos g1 = .ok iterator g2)
    (ht : testJump pos (some (nextIteration pos iterator)) g2 = .ok toEnd g3)
    (hb : bindRound pos iterator key.text (value.map (·.text)) g3.looping = .ok () g4)
    (h : compileStmt imports (.forIn pos key value iterable body) g = .ok x g') (hc : Clean g') :
    ∃ y g5, inBlock (compileStmts imports body) g4 = .ok y g5 ∧ Clean g5 ∧ Encloses g g4 g5 g' := by
  rw [compileStmt, forIn_eq] at h
  obtain ⟨g6, hrun, rfl⟩ := inBlock_ok h
  obtain ⟨_, _, hi', hrun⟩ := bind_ok hrun
  cases hi'.symm.trans hi
  obtain ⟨_, _, hs', hrun⟩ := bind_ok hrun
  cases hs'.symm.trans hs
  obtain ⟨jumps, _, hr, hend⟩ := bind_ok hrun
  cases hend
  have hmem : iterator ∈ [iterator] := List.mem_singleton_self iterator
  have hmd : Makes M [iterator] .flat goesOn (bindRound pos iterator key.text (value.map (·.text))) :=
    (Recipe.bindRound hmem ..).makes himp
  have hmb := hmd.bind fun _ => ((makes_stmts himp body).mono (List.nil_subset [iterator])).inBlock
  have hmt (y : Gen Unit) (hy : some (nextIteration pos iterator) = some y) : Makes M [iterator] .value goesOn y :=
    Option.some.inj hy ▸ (Recipe.nextIteration hmem).makes himp
  have hmp : Makes M [iterator] .flat goesOn (pure () : Gen Unit) := Makes.pure () rfl
  have hc2 : Clean g2 := (Makes.rounds hmt hmb hmp).growing.clean hr hc
  obtain ⟨i, hwi, -⟩ := (makes_expr himp none iterable).writes _ _ _ hi (emits_startIteration.growing.clean hs hc2)
  obtain ⟨k, hws, -⟩ := emits_startIteration.writes _ _ _ hs hc2
  obtain ⟨y, g5, hbody, hc5, hin⟩ := rounds_body hmt hmb hmp ht hr hc
  obtain ⟨_, _, hb', hblock⟩ := bind_ok hbody
  cases hb'.symm.trans hb
  obtain ⟨d, hwd, -⟩ := hmd.writes _ _ _ hb ((makes_stmts himp body).inBlock.growing.clean hblock hc5)
  exact ⟨y, g5, hblock, hc5, Encloses.block.trans ((Encloses.after (hwi.trans hws)).trans (hin.trans (.after hwd)))⟩

theorem Part.makes (himp : ImporterBuilds M imports) : ∀ p : Part, Makes M [] .flat id (p.compile imports)
  | .stmt s => makes_stmt himp s
  | .stmts body => makes_stmts himp body
  | .block body => (makes_stmts himp body).inBlock

/-- **The code of a part stands in the code of the whole**, one case for each construct. -/
theorem Calls.encloses (himp : ImporterBuilds M imports) {a b : Part} (h : Calls imports a g b g1)
    (ha : a.compile imports g = .ok x g') (hc : Clean g') :
    ∃ y g2, b.compile imports g1 = .ok y g2 ∧ Clean g2 ∧ Encloses g g1 g2 g' := by
  cases h with
  | @first s rest =>
    rcases andThen_ok (makes_stmts himp rest).growing ha hc with ⟨-, hs⟩ | ⟨g2, hs, hrest⟩
    · exact ⟨true, g', hs, hc, .refl⟩
    · obtain ⟨f, hw, -⟩ := (makes_stmts himp rest).writes _ _ _ hrest hc
      exact ⟨false, g2, hs, (makes_stmts himp rest).growing.clean hrest hc, .before hw⟩
  | @rest s rest _ _ hs =>
    rw [Part.compile, compileStmts_cons, andThen_of_go hs] at ha
    obtain ⟨f, hw, -⟩ := (makes_stmt himp s).writes _ _ _ hs ((makes_stmts himp rest).growing.clean ha hc)
    exact ⟨x, g', ha, hc, .after hw⟩
  | opened =>
    obtain ⟨g2, hrun, rfl⟩ := inBlock_ok ha
    exact ⟨x, g2, hrun, hc, .block⟩
  | block =>
    exact ⟨x, g', ha, hc, .refl⟩
  | branchInit =>
    obtain ⟨g2, -, -, hi, hc2, hin, -⟩ := branch_encloses himp ha hc
    obtain ⟨y, hi⟩ := discard_ok hi
    exact ⟨y, g2, hi, hc2, hin⟩
  | @branchBody pos init test body other j _ g2 g3 _ hi ht hj =>
    obtain ⟨_, _, g4, hi', -, -, ht', harms, hc4, hin⟩ := branch_encloses himp ha hc
    cases hi'.symm.trans hi
    cases ht'.symm.trans ht
    obtain ⟨y, g5, hb, hc5, hin'⟩ := arms_body (makes_other himp other) hj harms hc4
    exact ⟨y, g5, hb, hc5, hin.trans hin'⟩
  | @branchOther pos init test body other exits j toEnd _ g2 g3 g4 g5 g6 _ hi ht hj hb he hp =>
    rw [Part.compile] at ha
    obtain ⟨_, _, g₇, hi', -, -, ht', harms, hc₇, hin⟩ := branch_encloses himp ha hc
    cases hi'.symm.trans hi
    cases ht'.symm.trans ht
    obtain ⟨y, g₈, ho, hc₈, hin'⟩ :=
      arms_other (makes_stmts himp body).inBlock (makes_stmt himp other) hj hb he hp harms hc₇
    exact ⟨y, g₈, ho, hc₈, hin.trans hin'⟩
  | loopInit =>
    obtain ⟨g2, -, -, hi, hc2, hin, -⟩ := loop_encloses himp ha hc
    obtain ⟨y, hi⟩ := discard_ok hi
    exact ⟨y, g2, hi, hc2, hin⟩
  | @loopBody pos init post test body toEnd _ g2 g3 hi ht =>
    obtain ⟨_, jumps, g4, hi', -, -, hr, hc4, hin⟩ := loop_encloses himp ha hc
    cases hi'.symm.trans hi
    obtain ⟨y, g5, hb, hc5, hin'⟩ :=
      rounds_body (makes_test himp test) (makes_stmts himp body).inBlock (makes_simple himp post) ht hr hc4
    exact ⟨y, g5, hb, hc5, hin.trans hin'⟩
  | @loopPost pos init post test body toEnd exits jumps _ g2 g3 _ hi ht hb hback =>
    obtain ⟨_, jumps', g4, hi', -, -, hr, hc4, hin⟩ := loop_encloses himp ha hc
    cases hi'.symm.trans hi
    obtain ⟨g5, hpost, hc5, hin'⟩ := rounds_post (makes_test himp test) (makes_stmts himp body).inBlock
      (makes_simple himp (some post)) ht hb hback hr hc4
    obtain ⟨y, hpost⟩ := discard_ok hpost
    exact ⟨y, g5, hpost, hc5, hin.trans hin'⟩
  | forInBody hi hs ht hb => exact forIn_encloses himp hi hs ht hb ha hc

/-- The code of a part at any depth stands in the code of the whole. -/
theorem Visits.encloses (himp : ImporterBuilds M imports) {a b : Part} (h : Visits imports a g b g1)
    (ha : a.compile imports g = .ok x g') (hc : Clean g') :
    ∃ y g2, b.compile imports g1 = .ok y g2 ∧ Clean g2 ∧ Encloses g g1 g2 g' := by
  induction h with
  | here => exact ⟨x, g', ha, hc, .refl⟩
  | call _ hcall ih =>
    obtain ⟨y, g2, hb, hc2, hin⟩ := ih
    obtain ⟨z, g3, hz, hc3, hin'⟩ := hcall.encloses himp hb hc2
    exact ⟨z, g3, hz, hc3, hin.trans hin'⟩

end

/-! ## The verdict -/

/-- The open jumps of a fragment are noted in the loops around it. -/
theorem Writes.isOpen (hw : Writes g f g') (ho : o ∈ f.holes e g.scope.code.size) : g'.scope.IsOpen o := by
  cases hloops : g.scope.loops with
  | nil =>
    rw [holes_eq_nil_iff.mpr (hw.closed hloops e)] at ho
    cases ho
  | cons l ls =>
    have hnew := hw.loops
    rw [hloops] at hnew
    unfold CodeScope.IsOpen
    rw [hnew]
    refine ⟨_, List.mem_cons_self .., ?_⟩
    cases e with
    | done => exact .inl (List.mem_append_left _ ho)
    | next => exact .inr (List.mem_append_left _ ho)

/-- **The code of a part stands in the finished code of the function**, which is laid out from offset zero. -/
theorem Visits.laid (himp : ImporterBuilds M imports) (h : Visits imports (.stmts body) g p g1)
    (hg : g.scope = {}) (hbody : compileStmts imports body g = .ok exits g') (hc : Clean g') (rest : Bytes) :
    ∃ y g2, p.compile imports g1 = .ok y g2 ∧ Clean g2 ∧ ∀ f, Writes g1 f g2 →
      ∃ t, Laid (g'.scope.code ++ rest).toList f g1.scope.code.size t := by
  obtain ⟨y, g2, hp, hc2, hin⟩ := h.encloses himp hbody hc
  refine ⟨y, g2, hp, hc2, fun f hw => ?_⟩
  obtain ⟨F, hwF, hl⟩ := hin f hw
  apply hl _ open₀
  refine ⟨⟨[], rest.toList, ?_, by rw [hg]; rfl⟩, hwF.fits⟩
  rw [Array.toList_append, hwF.code, hg]
  rfl

/-- **A part that exits never leads past its end** in the finished code, except through a jump that leaves a loop
around it. -/
theorem Visits.no_way (himp : ImporterBuilds M imports) (h : Visits imports (.stmts body) g p g1)
    (hg : g.scope = {}) (hbody : compileStmts imports body g = .ok exits g') (hc : Clean g')
    (hp : p.compile imports g1 = .ok true g2) (rest : Bytes) : g1.scope.code.size < g2.scope.code.size ∧
      ¬Way (g'.scope.code ++ rest) g2.scope.IsOpen g1.scope.code.size g2.scope.code.size := by
  obtain ⟨_, _, hp', hc2, hlaid⟩ := h.laid himp hg hbody hc rest
  cases hp'.symm.trans hp
  obtain ⟨f, hw, hbuilds⟩ := (p.makes himp).writes _ _ _ hp hc2
  have hf : Builds M [] [] g1.context f true [] g2.context := hbuilds [] [] (List.nil_subset _) fun _ => rfl
  obtain ⟨t, hl⟩ := hlaid f hw
  rw [hw.size]
  exact ⟨Nat.lt_add_of_pos_right (hf.confined.size_pos rfl), hf.confined.no_way hl fun e _ hj => hw.isOpen hj⟩

/-- **Nothing runs off its end.** Neither the main code of a compiled program nor a function among its constants
leads past its last instruction. -/
theorem compiled_ends (h : compile files M body g = (.ok p, g')) : Ends (g'.heap.routineAt p.main).code ∧
      ∀ (k : Nat) (r : Ref), p.constants[k]? = some (.function r) → Ends (g'.heap.routineAt r).code := by
  obtain ⟨exits, gen, hrun, hclean, hfin⟩ := stmts_of_compile h
  obtain ⟨f, hw, exits', hbuilds⟩ := stmts_add hrun hclean
  constructor
  · have hw' := hw.trans gen.writes_suspended
    have hasm : Assembled (.seq f (.op ⟨.suspend, []⟩)) gen.suspended.scope.code :=
      ⟨hw'.code, hw'.fits, hw'.closed rfl⟩
    rw [hfin.code]
    exact hasm.ends (hbuilds.confined.forget.seq (.op rfl fun _ => rfl))
  · intro k r hk
    have hgives := (hbuilds.gives Builds.ends fun _ _ hget => by cases hget).1
    rw [hfin.constants] at hk
    obtain ⟨hlt, hends⟩ := hgives k r (Nat.zero_le _) hk
    rw [hfin.routines r hlt]
    exact hends

/-- **The verdict that code exits is sound.** Take the body of a function, of a module or of a program, compiled
without errors, and any statement, statement list or block in it that was found to exit, however deep in blocks,
branches and loops. Then the part has code, and in the finished code of the function there is no way from its
first instruction past its last one that does not take a jump out of a loop around the part. Statements after a
list that exits leave no trace. And nothing that is compiled runs off its end, whether or not a return was added. -/
theorem exit_sound (M : ModuleMap) :
    (∀ (depth : Nat) (body : List Stmt) (g g' : Generator) (exits : Bool), g.scope = {} →
      compileStmts (.within M depth) body g = .ok exits g' → Clean g' →
      ∀ (p : Part) (g₁ g₂ : Generator), Visits (.within M depth) (.stmts body) g p g₁ →
        p.compile (.within M depth) g₁ = .ok true g₂ → ∀ rest : Bytes, g₁.scope.code.size < g₂.scope.code.size ∧
          ¬Way (g'.scope.code ++ rest) g₂.scope.IsOpen g₁.scope.code.size g₂.scope.code.size) ∧
    (∀ (depth : Nat) (body rest : List Stmt) (g g' : Generator), compileStmts (.within M depth) body g = .ok true g' →
      compileStmts (.within M depth) (body ++ rest) g = .ok true g') ∧
    ∀ (files : FileSet) (body : List Stmt) (g g' : Generator) (p : Program),
      compile files M body g = (.ok p, g') → Ends (g'.heap.routineAt p.main).code ∧
        ∀ (k : Nat) (r : Ref), p.constants[k]? = some (.function r) → Ends (g'.heap.routineAt r).code := by
  refine ⟨?_, fun depth body rest g g' h => compileStmts_of_exit h, fun _ _ _ _ _ h => compiled_ends h⟩
  intro depth body g g' exits hg hbody hc p g₁ g₂ hvisit hp rest
  exact hvisit.no_way ⟨rfl, compileModule_imports M depth⟩ hg hbody hc hp rest

/-- `if true { break } else { continue }` -/
def eitherWay : List Stmt := [.branch .none none (.bool .none true) [.breakLoop .none]
  (some (.block .none [.continueLoop .none]))]

/-- The verdict of a step that went through without an error. -/
def verdict? : EStateM.Result CompileError Generator Bool → Option Bool
  | .ok exits g => if g.errors.isEmpty then some exits else none
  | .error _ _ => none

theorem of_verdict? (h : verdict? r = some exits) : ∃ g, r = .ok exits g ∧ Clean g := by
  cases r with
  | ok b g =>
    rw [verdict?] at h
    split at h
    · rename_i hempty
      cases h
      exact ⟨g, rfl, isEmpty_errors_iff.mp hempty⟩
    · cases h
  | error e g => cases h

/-- The body of `for { if true { break } else { continue } }` exits, so control gets to its end only through the
`continue`. -/
theorem eitherWay_exit_sound : ∃ g₂ g', compileStmts (.within .empty 0) [.loop .none none none none eitherWay] {} =
      .ok false g' ∧ Part.compile (.within .empty 0) (.block eitherWay) ({} : Generator).entered.looping = .ok true g₂ ∧
    ¬Way g'.scope.code g₂.scope.IsOpen 0 g₂.scope.code.size := by
  obtain ⟨g', hbody, hc⟩ := of_verdict? (show verdict?
    (compileStmts (.within .empty 0) [.loop .none none none none eitherWay] {}) = some false by decide +kernel)
  obtain ⟨g₂, hpart, -⟩ := of_verdict? (show verdict?
    (Part.compile (.within .empty 0) (.block eitherWay) ({} : Generator).entered.looping) = some true by decide +kernel)
  have hvisit : Visits (.within .empty 0) (.stmts [.loop .none none none none eitherWay]) {} (.block eitherWay)
      ({} : Generator).entered.looping := by
    have hinit : compileSimple (.within .empty 0) none ({} : Generator).entered = .ok () ({} : Generator).entered := by
      rfl
    have htest : testJump .none (compileTest (.within .empty 0) none) ({} : Generator).entered =
        .ok none ({} : Generator).entered := by
      rfl
    exact .call (.call .here .first) (.loopBody hinit htest)
  have h := ((exit_sound .empty).1 0 _ _ _ _ rfl hbody hc _ _ _ hvisit hpart #[]).2
  exact ⟨g₂, g', hbody, hpart, h⟩

end Generator

end Scripting
