import Scripting.Proofs.Compile.Echo
/-!
# `Proofs.Compile.Modular` — modules are compiled as on their own

Every compilation follows the drafts of its units: the main program goes with its draft (`echoes_stmts`), and when it
comes to a module that has not been compiled yet, the module goes with a draft that begins there and then
(`supplies_compileModule`). The numbers of the unit that imports it are reserved meanwhile.

So after every compilation that succeeds each module is its draft, with other numbers (`compile_stocked`). Nothing of
the place where the module was imported is left in it.
-/

namespace Scripting

open Code Generator SymbolTable Function

variable {M : ModuleMap} {blank : SymbolTable} {Q : Series → Nat → Prop} {t t' : Trail} {g g' g1 : Generator}
variable {pos : Pos} {u : Unit} {imports : Importer}

/-! ## Statements in a row -/

theorem Echoes.sequence (hf : Echoes M blank first first') (hr : Echoes M blank rest rest') :
    Echoes M blank (andThen first rest) (andThen first' rest') where
  growing := hf.growing.andThen hr.growing
  runs h hc htr := by
    rcases andThen_ok hr.growing h hc with ⟨rfl, hfirst⟩ | ⟨g1, hfirst, hrest⟩
    · obtain ⟨t1, rf⟩ := hf.runs hfirst hc htr
      exact ⟨t1, rf.congr (andThen_of_exit rf.run)⟩
    · obtain ⟨t1, rf⟩ := hf.runs hfirst (hr.growing.clean hrest hc) htr
      obtain ⟨t2, rr⟩ := hr.runs hrest hc rf.tracks
      have rboth : Repeats M blank _ (first' >>= fun _ => rest') _ _ _ t2 _ := rf.bind rr
      exact ⟨t2, rboth.congr ((andThen_of_go rf.run).trans rr.run)⟩

theorem Echoes.ret (n : Nat) : Echoes M blank (Generator.emit_ pos .ret [n] >>= fun _ => Pure.pure true)
    (Generator.emit_ pos .ret [n] >>= fun _ => Pure.pure true) := by
  have hret : Echoes M blank (Generator.emit_ pos .ret [n]) (Generator.emit_ pos .ret [n]) :=
    Echoes.emit_ rfl fun _ => rfl
  exact hret.bind fun _ => Echoes.pure true

/-! ## Imports -/

/-- **An importer that knows the modules `M` and makes each available as its draft says.** -/
structure Supplies (M : ModuleMap) (blank : SymbolTable) (imports : Importer) : Prop where
  modules : imports.modules = M
  growing : ∀ pos name body, Growing (imports.compile pos name body)
  compile : ∀ {pos : Pos} {name : String} {body : List Stmt} {Q : Series → Nat → Prop} {t : Trail} {g g' : Generator}
    {r : Ref}, M.get? name = some (.source body) → imports.compile pos name body g = .ok r g' → Clean g' →
    Tracks M blank Q t g →
      ∃ library, Repeats M blank Q (pure ()) t g () { t with library } g' ∧ g'.modules.get? name = some r

theorem Tracks.newMap (attributes : Dict Value) (ht : Tracks M blank Q t g) :
    Repeats M blank Q (newFrozenMap attributes) t g (t.draft.heap.newMap .frozen attributes).1 { t with
        draft := { t.draft with heap := (t.draft.heap.newMap .frozen attributes).2 }
        book := t.book.note .maps g.heap.maps.size }
      { g with heap := (g.heap.newMap .frozen attributes).2 } :=
  ht.copies rfl (ht.follows.withMap attributes) (t.book.le_note _ _) ⟨g.context.le_withFrozenMap attributes, id⟩
    (fun _ => rfl) (.idle rfl) (.idle rfl) rfl rfl ht.constants ht.clean

theorem Echoes.attributes (attributes : Dict Value) : Echoes M blank (newFrozenMap attributes >>= emitConstant pos)
      (newFrozenMap attributes >>= emitConstant pos) where
  growing := (Emits.newFrozenMap attributes).growing.bind fun v => Obeys.emitConstant v
  runs {Q t g a g'} hr _ htr := by
    obtain ⟨v, g1, hnew, hemit⟩ := bind_ok hr
    cases hnew
    have rnew := htr.newMap attributes
    have hcount : t.draft.heap.maps.size = (t.book .maps).size := by
      have hcount := htr.follows.realizes.count .maps
      simp only [Context.count, ModuleMap.offset, Nat.zero_add] at hcount
      exact hcount
    have hcounter : Counterpart M (t.book.note .maps g.heap.maps.size) g.modules
        (t.draft.heap.newMap .frozen attributes).1 (g.heap.newMap .frozen attributes).1 := by
      show Counterpart M _ _ (.map .frozen t.draft.heap.maps.size) (.map .frozen g.heap.maps.size)
      rw [hcount]
      exact .attributes (t.book.note_self _ _)
    obtain ⟨t2, re⟩ := rnew.tracks.emitConstant hcounter hemit
    exact ⟨t2, rnew.bind re⟩

theorem Echoes.source (hs : Supplies M blank imports) (hm : M.get? name = some (.source body)) : Echoes M blank (do
        emitConstant pos (.function (← imports.compile pos name body))
        Generator.emit_ pos .call [0, 0])
      (do
        emitConstant pos (.function (← (Importer.draft M).compile pos name body))
        Generator.emit_ pos .call [0, 0]) where
  growing := (hs.growing pos name body).bind fun _ => (Obeys.emitConstant _).bind fun _ => Obeys.emit_ _ _ _
  runs {Q t g a g'} hr hc htr := by
    obtain ⟨r, g1, hcompile, hr⟩ := bind_ok hr
    obtain ⟨_, g2, hconstant, hcall⟩ := bind_ok hr
    have hc1 : Clean g1 := (Obeys.emitConstant _).clean hconstant ((Obeys.emit_ _ _ _).clean hcall hc)
    obtain ⟨library, rcompile, hmodule⟩ := hs.compile hm hcompile hc1 htr
    obtain ⟨p, hp⟩ := ModuleMap.exists_placeholder hm
    have hmodules : t.draft.modules = M.placeholders := htr.follows.placeholders
    have dcompile : (Importer.draft M).compile pos name body t.draft = .ok p t.draft := by
      simp only [Importer.draft, hmodules, hp]
    obtain ⟨t2, rconstant⟩ := rcompile.tracks.emitConstant (.module hp hmodule) hconstant
    have hecho : Echoes M blank (Generator.emit_ pos .call [0, 0]) (Generator.emit_ pos .call [0, 0]) :=
      Echoes.emit_ rfl fun _ => rfl
    obtain ⟨t3, rcall⟩ := hecho.runs hcall hc rconstant.tracks
    have rrest : Repeats M blank Q (emitConstant pos (.function p) >>= fun _ => Generator.emit_ pos .call [0, 0])
      _ _ a t3 g' := rconstant.bind rcall
    have rall : Repeats M blank Q (Pure.pure () >>= fun _ => _) t g a t3 g' := rcompile.bind rrest
    exact ⟨t3, rall.congr ((bind_run dcompile).trans rrest.run)⟩

theorem Echoes.load (hs : Supplies M blank imports) (name : String) :
    Echoes M blank (imports.load pos name) ((Importer.draft M).load pos name) := by
  refine Echoes.guarded ?_
  have hdraft : (Importer.draft M).modules = M := rfl
  rw [hs.modules, hdraft]
  cases hm : M.get? name with
  | none => exact Echoes.throw _ _
  | some m =>
    cases m with
    | builtin attributes => exact Echoes.attributes attributes
    | source body => exact Echoes.source hs hm

/-! ## All steps -/

theorem renumber_plain (h : op.isPlain = true) (operands : List Nat) (κ : Nat → Nat) :
    Instruction.renumber κ ⟨op, operands⟩ = ⟨op, operands⟩ := by
  cases op <;> first | rfl | cases h

theorem rel_map {f g : α → β} {R : β → β → Prop} {o : Option α} (hr : ∀ a, o = some a → R (f a) (g a)) :
    Option.Rel R (o.map f) (o.map g) := by
  cases o with
  | none => exact .none
  | some a => exact .some (hr a rfl)

/-- **What the draft compiles goes with every step.** -/
theorem Generator.Recipe.echoes (hs : Supplies M blank imports) (h : Recipe held e exits x) :
    Echoes M blank (x imports) (x (.draft M)) := by
  induction h with
  | pure _ => exact Echoes.pure _
  | throw error => exact Echoes.throw _ _
  | bind _ _ ihx ihk => exact ihx.bind ihk
  | mono _ _ ih | frame _ _ ih | shallow _ ih => exact ih
  | discard _ ih => exact ih.discard
  | plain hlen h _ => exact Echoes.emit_ hlen (renumber_plain h _)
  | literal h _ => exact Echoes.literal h
  | load _ => exact Echoes.emitLoad _
  | store _ op n => exact Echoes.emitStore op _ n
  | resolve hnone _ ih =>
    refine (Echoes.resolve? _).bind fun found => ?_
    cases found with
    | none =>
      rw [hnone, hnone]
      exact Echoes.throw _ _
    | some sym => exact ih sym
  | resolveTop _ ih => exact (Echoes.resolveTop? _).bind ih
  | define _ ih => exact (Echoes.define _).bind ih
  | checked hp _ ih =>
    refine Echoes.checked ih fun ht h => ?_
    -- the draft has the same table, and as many functions are open in its unit
    rcases hp with rfl | rfl
    · exact (congrArg inGlobal ht.follows.table).symm.trans h
    · have hdepth := ht.depth
      simp only [bne_iff_ne] at h ⊢
      omega
  | inBlock _ ih => exact ih.inBlock
  | conditional _ _ _ iht ihy ihn => exact iht.conditional ihy ihn
  | shortCircuit _ _ _ ihl ihr => exact ihl.shortCircuit ihr
  | arms _ _ ihb iho => exact ihb.arms (rel_map iho)
  | rounds _ _ _ iht ihb ihp =>
    refine (Echoes.rounds (rel_map iht) ihb ihp).bind fun jumps => ?_
    rw [Option.isNone_map, Option.isNone_map]
    exact Echoes.pure _
  | exit cause e => exact (Echoes.emitLoopJump cause e).bind fun _ => Echoes.pure true
  | ret _ => exact Echoes.ret _
  | function _ ih => exact ih.function
  | imported name => exact Echoes.load hs name
  | andThen _ _ ihf ihr => exact ihf.sequence ihr

/-- **Statements are compiled as in the draft.** -/
theorem echoes_stmts (hs : Supplies M blank imports) (body : List Stmt) :
    Echoes M blank (compileStmts imports body) (compileStmts (.draft M) body) :=
  (recipe_stmts body).echoes hs

/-! ## Modules -/

variable {name : String}

/-- The numbers of the unit at hand are reserved, too. -/
def Trail.reserve (t : Trail) (Q : Series → Nat → Prop) (k : Series) (n : Nat) : Prop :=
  Q k n ∨ ∃ j : Nat, (t.book k)[j]? = some n

/-- The draft of a module begins. -/
def Trail.intoModule (t : Trail) (M : ModuleMap) (blank : SymbolTable) : Trail where
  draft := .draft M (blank.enter false)
  book := .blank
  library := t.library

/-- **A module begins**: a unit of its own, while the one at hand waits. -/
theorem Tracks.intoModule (ht : Tracks M blank Q t g) (name : String) :
    Tracks M blank (t.reserve Q) (t.intoModule M blank) (g.intoModule name) := by
  have hblank : ofBuiltins g.table.builtins = blank := ht.follows.builtins
  refine ⟨⟨?_, ?_, rfl, .empty ?_, fun hn => ?_, ht.follows.unknown, fun k => ?_, ?_⟩, rfl, Nat.add_comm _ _,
    Nat.zero_le _, rfl⟩
  · show blank.enter false = (ofBuiltins g.table.builtins).enter false
    rw [hblank]
  · show ofBuiltins (ofBuiltins g.table.builtins).builtins = blank
    rw [ofBuiltins_builtins, hblank]
  · intro k
    cases k with
    | constants => rfl
    | routines => simp [draft, Trail.intoModule, context, Context.count, ModuleMap.offset]
    | maps => rfl
  · exact (ht.follows.known hn).grow ⟨.of_eq rfl rfl, id⟩
  · exact (ht.follows.apart k).begin rfl (fun _ => rfl) id
  · rintro k n (hq | ⟨j, hj⟩)
    · exact ht.follows.reserved hq
    · exact ht.follows.realizes.lt_count hj

section

variable {stmts : List Stmt} {body : Gen Bool} {t1 : Trail} {r r' : Routine}

theorem extends_afterModule (h : g1.modules.get? name = none) :
    (g1.context.withHeapRoutine r).Extends (g.afterModule g1 name r).context := by
  refine ⟨.of_eq rfl rfl, fun {other ref} hother => ?_⟩
  show (g.afterModule g1 name r).modules.get? other = some ref
  have hother : g1.modules.get? other = some ref := hother
  have hne : other ≠ name := by
    rintro rfl
    rw [h] at hother
    cases hother
  rw [get?_afterModule, if_neg hne, hother]

/-- The unit that waited goes on, and the book of the module is put on the shelf. -/
theorem Follows.afterModule (ht : Tracks M blank Q t g) (hin : Tracks M blank (t.reserve Q) t1 g1)
    (hnone : g1.modules.get? name = none) (hsame : SameUpTo t1.book r' r)
    (hcontext : g.context.Extends (g.afterModule g1 name r).context)
    (hstocked : Stocked M blank (g.afterModule g1 name r).context name
      (t1.book.note .routines g1.heap.routines.size) g1.heap.routines.size) :
    Follows M blank Q t.draft.context (g.afterModule g1 name r).context t.book
      (update t1.library name (t1.book.note .routines g1.heap.routines.size)) where
  table := ht.follows.table
  builtins := ht.follows.builtins
  placeholders := ht.follows.placeholders
  realizes := ht.follows.realizes.grow (.refl _) hcontext fun _ => rfl
  known {other ref} hother := by
    have hother : (g.afterModule g1 name r).modules.get? other = some ref := hother
    rw [get?_afterModule] at hother
    by_cases hne : other = name
    · subst hne
      rw [if_pos rfl] at hother
      cases hother
      rw [update_self]
      exact hstocked
    · rw [if_neg hne] at hother
      rw [update_of_ne hne]
      have hold := (hin.follows.known hother).grow ⟨g1.context.le_withHeapRoutine r, id⟩
      exact hold.grow (extends_afterModule hnone)
  unknown {other} hother := by
    have hother : (g.afterModule g1 name r).modules.get? other = none := hother
    rw [get?_afterModule] at hother
    by_cases hne : other = name
    · rw [if_pos hne] at hother
      cases hother
    · rw [if_neg hne] at hother
      rw [update_of_ne hne]
      exact hin.follows.unknown hother
  apart k := by
    have hnew : shelf (update t1.library name (t1.book.note .routines g1.heap.routines.size)) t.book
        (some name) k = t1.book.note .routines g1.heap.routines.size k := by
      rw [shelf, update_self]
    have hsome (other : String) (hne : other ≠ name) :
        shelf (update t1.library name (t1.book.note .routines g1.heap.routines.size)) t.book
          (some other) k = t1.library other k := by
      rw [shelf, update_of_ne hne]
    exact (ht.follows.apart k).resume ((hin.follows.withRoutine hsame).apart k) rfl hnew hsome id
  reserved hq := Nat.lt_of_lt_of_le (ht.follows.reserved hq) (hcontext.le.count_le _)

/-- **A module that has been compiled is its draft.** -/
theorem Tracks.afterModule (ht : Tracks M blank Q t g) (hm : M.get? name = some (.source stmts))
    (hnone : g.modules.get? name = none) (hbusy : name ∉ g.importing)
    (hr : Repeats M blank (t.reserve Q) (compileStmts (.draft M) stmts >>= fun exits => emitFinalReturn exits)
      (t.intoModule M blank) (g.intoModule name) () t1 g1) :
    ∃ library, Repeats M blank Q (pure ()) t g () { t with library }
      (g.afterModule g1 name (moduleRoutine g1.scope g1.table.leave.1.locals)) := by
  obtain ⟨f, wd, wg⟩ := hr.written
  have wg0 := wg _ t1.book.numbers_number
  have htable : t1.draft.table = g1.table := hr.tracks.follows.table
  have hsame : SameUpTo t1.book (moduleRoutine t1.draft.scope t1.draft.table.leave.1.locals)
      (moduleRoutine g1.scope g1.table.leave.1.locals) :=
    ⟨⟨f, assembled_of_writes rfl wd, fun κ hκ => assembled_of_writes rfl (wg κ hκ)⟩,
      by simp only [moduleRoutine, htable, hr.tracks.positions]⟩
  have hnone1 : g1.modules.get? name = none := (wg0.keeps.modules name (.inl (List.mem_cons_self ..))).trans hnone
  -- the routine of the module is the last that it makes
  have hlast := hr.tracks.newRoutine hsame
  have hafter := @extends_afterModule g g1 name (moduleRoutine g1.scope g1.table.leave.1.locals) hnone1
  have hinto : g.context.Extends (g.intoModule name).context := ⟨.of_eq rfl rfl, id⟩
  have hcontext := hinto.trans (hr.context.trans (hlast.context.trans hafter))
  have hdraft : draftModule M stmts (.draft M (blank.enter false)) = .ok (M.size + (t1.book .routines).size)
      { t1.draft with heap :=
        (t1.draft.heap.newFunction (moduleRoutine t1.draft.scope t1.draft.table.leave.1.locals)).2 } := by
    rw [← hr.tracks.routines_size]
    have hd : (compileStmts (.draft M) stmts >>= fun exits => emitFinalReturn exits) (.draft M (blank.enter false)) =
      .ok () t1.draft := hr.run
    unfold draftModule
    rw [← bind_assoc, bind_run hd]
    rfl
  have hfollows := Follows.afterModule ht hr.tracks hnone1 hsame hcontext ⟨stmts, _, _, hm, hdraft,
    hlast.tracks.clean, hlast.tracks.follows.realizes.grow (.refl _) hafter fun _ => rfl, t1.book.note_self _ _⟩
  refine ⟨update t1.library name (t1.book.note .routines g1.heap.routines.size), ht.copies rfl hfollows
    (.refl _) hcontext ?_ (.idle rfl) (.refl rfl rfl rfl ⟨rfl, fun other hother => ?_⟩) rfl rfl ?_ ht.clean⟩
  · intro other ref hother
    have hne : other ≠ name := by
      rintro rfl
      rw [hnone] at hother
      cases hother
    show update t1.library name _ other = _
    rw [update_of_ne hne]
    exact hr.library hother
  · have hne : other ≠ name := by
      rintro rfl
      rcases hother with hother | hother
      · exact hbusy hother
      · exact hother hnone
    rw [get?_afterModule, if_neg hne]
    exact wg0.keeps.modules other (hother.imp (List.mem_cons_of_mem name) id)
  · exact Nat.le_trans ht.constants (hcontext.le.count_le .constants)

/-- **A module is made available as its draft says.** -/
theorem moduleFunction_echo (hb : Echoes M blank body (compileStmts (.draft M) stmts))
    (hm : M.get? name = some (.source stmts)) (h : moduleFunction pos name body g = .ok ref g')
    (hc : Clean g') (ht : Tracks M blank Q t g) :
    ∃ library, Repeats M blank Q (pure ()) t g () { t with library } g' ∧ g'.modules.get? name = some ref := by
  cases hmod : g.modules.get? name with
  | some r0 =>
    -- it has been compiled before
    obtain ⟨rfl, rfl⟩ := moduleFunction_known hmod h
    exact ⟨t.library, (ht.stay rfl).silent (.idle rfl) (.idle rfl), hmod⟩
  | none =>
    obtain ⟨hbusy, g1, hrun, hclean, hafter⟩ := moduleFunction_new hb.growing hmod h hc
    have hecho := hb.bind fun exits => Echoes.finalReturn exits
    obtain ⟨t1, hr⟩ := hecho.runs hrun hclean (ht.intoModule name)
    obtain ⟨f, -, wg⟩ := hr.written
    obtain ⟨rfl, rfl⟩ := hafter _ (wg _ t1.book.numbers_number)
    obtain ⟨library, hrepeats⟩ := ht.afterModule hm hmod hbusy hr
    exact ⟨library, hrepeats, (Dict.get?_insert _ _ _ _).trans (if_pos rfl)⟩

end

/-- **Every module that a compilation comes to is compiled as its draft says.** -/
theorem supplies_compileModule (M : ModuleMap) (blank : SymbolTable) : ∀ depth : Nat,
    Supplies M blank { modules := M, compile := compileModule M depth }
  | 0 => by
    refine ⟨rfl, fun _ _ _ => Obeys.throw _, fun _ h => ?_⟩
    cases h
  | depth + 1 => by
    have hstmts := echoes_stmts (supplies_compileModule M blank depth)
    refine ⟨rfl, fun _ _ body => (hstmts body).growing.moduleFunction, fun {_ _ body} _ _ _ _ _ hm h hc ht => ?_⟩
    exact moduleFunction_echo (hstmts body) hm h hc ht

/-! ## Programs -/

/-- The draft of a program begins. -/
def Trail.start (M : ModuleMap) (table : SymbolTable) : Trail where
  draft := .draft M table
  book := .blank
  library _ := .blank

theorem Tracks.start (M : ModuleMap) (g : Generator) :
    Tracks M (.ofBuiltins g.table.builtins) (fun _ _ => False) (.start M g.table) g.fresh := by
  have hshelf (o : Option String) (k : Series) : shelf (fun _ => .blank) .blank o k = #[] := by cases o <;> rfl
  refine ⟨⟨rfl, rfl, rfl, .empty ?_, ?_, fun _ => rfl, fun k => ⟨?_, fun _ => id⟩, False.elim⟩, rfl, rfl, Nat.zero_le _,
    rfl⟩
  · intro k
    cases k with
    | constants => rfl
    | routines => simp [draft, Trail.start, context, Context.count, ModuleMap.offset]
    | maps => rfl
  · intro name r h
    cases h
  · intro o o' j j' n h
    simp [Trail.start, hshelf] at h

/-- **A program is compiled as in its draft.** -/
theorem stmts_repeat (h : compileStmts (Importer.ofModules M) body g.fresh = .ok exits gen) (hc : Clean gen) :
    ∃ t, Repeats M (.ofBuiltins g.table.builtins) (fun _ _ => False) (compileStmts (.draft M) body)
      (.start M g.table) g.fresh exits t gen :=
  (echoes_stmts (supplies_compileModule M (.ofBuiltins g.table.builtins) (M.size + 1)) body).runs h hc
    (Tracks.start M g)

/-- **After a compilation that succeeds, every module is its draft**, and no two have a number in common. -/
theorem compile_stocked (h : compile files M body g = (.ok p, g')) :
    p.constants = g'.constants ∧ ∃ library : String → Book,
      (∀ ⦃name : String⦄ ⦃r : Ref⦄, g'.modules.get? name = some r →
        Stocked M (.ofBuiltins g.table.builtins) g'.context name (library name) r) ∧
      ∀ k, UsedOnce (fun o => shelf library .blank o k) fun _ => False := by
  obtain ⟨exits, gen, hrun, hclean, rfl, rfl⟩ := compile_finished h
  obtain ⟨t, hr⟩ := stmts_repeat hrun hclean
  refine ⟨rfl, t.library, fun name r hm => (hr.tracks.follows.known hm).grow ?_, fun k => ?_⟩
  · exact ⟨(gen.context.le_withHeapRoutine gen.suspended.mainRoutine).congr rfl rfl rfl rfl, id⟩
  · exact (hr.tracks.follows.apart k).begin rfl (fun _ => rfl) False.elim

end Scripting
