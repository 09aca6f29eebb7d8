import Scripting.Proofs.Compile.Book
import Scripting.Proofs.Compile.Roles
/-!
# `Proofs.Compile.Separate` — compiling a unit on its own

A unit (a program or a module) can be compiled on its own: the source modules that it imports are not compiled, but
stand there as placeholders. That is its *draft*. A compilation that comes to the unit in whatever state does the
same steps as the draft, and gives what it makes other numbers.

* **following** — `Follows` relates the context of a draft to the context of a compilation: the unit at hand is
  realized under the numbers of its book, and so is every module that has been compiled before;
* **steps in pairs** — `Echoes x y`: whenever the step `x` of a compilation succeeds, the step `y` of the draft does
  too, with the same result. It writes the same code up to the numbers of constants, and the draft is followed as
  before.
-/

namespace Scripting

open Code Generator

/-! ## The built-ins of a table -/

namespace SymbolTable

theorem builtins_define (t : SymbolTable) : (t.define name).2.builtins = t.builtins := by
  obtain ⟨inner, root, builtins⟩ := t
  cases inner <;> rfl

theorem builtins_leave (t : SymbolTable) : t.leave.2.builtins = t.builtins := by
  obtain ⟨inner, root, builtins⟩ := t
  cases inner <;> rfl

theorem builtins_defineFunction (t : SymbolTable) (name : String) :
    (t.defineFunction name).2.builtins = t.builtins := by
  obtain ⟨inner, root, builtins⟩ := t
  cases inner <;> rfl

theorem builtins_resolve {t t' : SymbolTable} (h : t.resolve name = some (sym, n, t')) :
    t'.builtins = t.builtins := by
  obtain ⟨found, -, hfound⟩ := Option.map_eq_some_iff.mp h
  cases hfound
  rfl

theorem ofBuiltins_builtins (builtins : Array Symbol) :
    ofBuiltins (ofBuiltins builtins).builtins = ofBuiltins builtins := by
  have hfold (syms : Array Symbol) : ofBuiltins syms =
      (syms.toList.map fun sym => (sym.index, sym.name)).foldl (fun t b => (t.defineBuiltin b.1 b.2).2) {} := by
    rw [List.foldl_map, Array.foldl_toList, ofBuiltins]
  have hlist := (foldl_defineBuiltin (builtins.toList.map fun sym => (sym.index, sym.name)) {}).1
  rw [← hfold] at hlist
  rw [hfold, hlist, hfold builtins]
  simp [Function.comp_def]

end SymbolTable

/-! ## Drafts -/

/-- Source modules are not compiled: each is there already, as its placeholder. -/
def Importer.draft (M : ModuleMap) : Importer where
  modules := M
  compile pos name _ := fun g =>
    match g.modules.get? name with
    | some r => .ok r g
    | none => .error { cause := .moduleNotFound name, pos } g

/-- The state in which a unit is compiled on its own. -/
def Generator.draft (M : ModuleMap) (table : SymbolTable) : Generator :=
  { table, modules := M.placeholders, heap := { routines := Array.replicate M.size {} } }

/-- Compile a source module on its own, from within. -/
def draftModule (M : ModuleMap) (body : List Stmt) : Gen Ref := do
  emitFinalReturn (← compileStmts (.draft M) body)
  let g ← get
  newRoutine (moduleRoutine g.scope g.table.leave.1.locals)

/-- **A source module that has been compiled to the routine `r`**: its draft is realized, and `r` is the routine that
the draft ends with. -/
def Stocked (M : ModuleMap) (blank : SymbolTable) (c : Context) (name : String) (b : Book) (r : Ref) : Prop :=
  ∃ body d, ∃ j : Nat, M.get? name = some (.source body) ∧
    draftModule M body (.draft M (blank.enter false)) = .ok (M.size + j) d ∧ Clean d ∧
    Realizes M d.context c b ∧ (b .routines)[j]? = some r

/-- **A compilation has come as far as a draft.** `blank` is the table with which modules begin, and `Q` are the
numbers that other units have reserved. -/
structure Follows (M : ModuleMap) (blank : SymbolTable) (Q : Series → Nat → Prop) (d c : Context) (b : Book)
    (library : String → Book) : Prop where
  table : d.table = c.table
  builtins : SymbolTable.ofBuiltins c.table.builtins = blank
  placeholders : d.modules = M.placeholders
  realizes : Realizes M d c b
  known : ∀ {name : String} {r : Ref}, c.modules.get? name = some r → Stocked M blank c name (library name) r
  unknown : ∀ {name : String}, c.modules.get? name = none → library name = .blank
  apart : ∀ k, UsedOnce (fun o => shelf library b o k) (Q k)
  reserved : ∀ {k : Series} {n : Nat}, Q k n → n < c.count k

variable {M : ModuleMap} {blank : SymbolTable} {Q : Series → Nat → Prop} {c c' d d' : Context} {b b' : Book}

theorem Stocked.grow (h : Stocked M blank c name b r) (hc : c.Extends c') : Stocked M blank c' name b r := by
  obtain ⟨body, d, j, hm, hd, hclean, hr, hj⟩ := h
  exact ⟨body, d, j, hm, hd, hclean, hr.grow (.refl _) hc (fun _ => rfl), hj⟩

namespace Follows

variable {library : String → Book} (h : Follows M blank Q d c b library)

include h

theorem realizes_shelf (o : Option String) :
    (∃ d, Realizes M d c (shelf library b o)) ∨ shelf library b o = .blank := by
  cases o with
  | none => exact .inl ⟨d, h.realizes⟩
  | some name =>
    cases hm : c.modules.get? name with
    | none => exact .inr (h.unknown hm)
    | some r =>
      obtain ⟨body, d, j, -, -, -, hr, -⟩ := h.known hm
      exact .inl ⟨d.context, hr⟩

/-- Only numbers that have been given out are in the books. -/
theorem lt_count {j n : Nat} (hn : (shelf library b o k)[j]? = some n) : n < c.count k := by
  rcases h.realizes_shelf o with ⟨d, hr⟩ | hblank
  · exact hr.lt_count hn
  · rw [hblank] at hn
    simp [Book.blank] at hn

theorem extend (hc : c.Extends c') (hm : c'.modules = c.modules)
    (hp : d'.modules = d.modules) (ht : d'.table = c'.table) (hb : c'.table.builtins = c.table.builtins)
    (hr : Realizes M d' c' b') (ha : ∀ k, UsedOnce (fun o => shelf library b' o k) (Q k)) :
    Follows M blank Q d' c' b' library where
  table := ht
  builtins := by rw [hb]; exact h.builtins
  placeholders := hp.trans h.placeholders
  realizes := hr
  known hn := (h.known (hm ▸ hn)).grow hc
  unknown hn := h.unknown (hm ▸ hn)
  apart := ha
  reserved hq := Nat.lt_of_lt_of_le (h.reserved hq) (hc.le.count_le _)

theorem withTable {table : SymbolTable}
    (hb : table.builtins = c.table.builtins) : Follows M blank Q { d with table } { c with table } b library :=
  have hd : d.Le { d with table } := .of_eq rfl rfl
  have hc : c.Extends { c with table } := ⟨.of_eq rfl rfl, id⟩
  h.extend hc rfl rfl rfl hb (h.realizes.grow hd hc fun k => by cases k <;> rfl) h.apart

theorem apart_note (k k' : Series) : UsedOnce (fun o => shelf library (b.note k (c.count k)) o k') (Q k') := by
  by_cases hk : k' = k
  · subst hk
    refine (h.apart k').push h.lt_count h.reserved ?_ fun _ => rfl
    simp [shelf, Book.note]
  · have hsame (o : Option String) : shelf library (b.note k (c.count k)) o k' = shelf library b o k' := by
      cases o with
      | none => simp [shelf, Book.note, Function.update_of_ne hk]
      | some name => rfl
    simpa only [hsame] using h.apart k'

theorem withConstant (hv : Counterpart M b c.modules v w) :
    Follows M blank Q (d.withConstant v) (c.withConstant w) (b.note .constants c.constants.size) library :=
  h.extend ⟨c.le_withConstant w, id⟩ rfl rfl h.table rfl (h.realizes.withConstant hv) (h.apart_note .constants)

theorem withRoutine (hr : SameUpTo b r r') :
    Follows M blank Q (d.withHeapRoutine r) (c.withHeapRoutine r') (b.note .routines c.heap.routines.size) library :=
  h.extend ⟨c.le_withHeapRoutine r', id⟩ rfl rfl h.table rfl (h.realizes.withRoutine hr) (h.apart_note .routines)

theorem withMap (attributes : Dict Value) :
    Follows M blank Q (d.withFrozenMap attributes) (c.withFrozenMap attributes) (b.note .maps c.heap.maps.size)
      library :=
  h.extend ⟨c.le_withFrozenMap attributes, id⟩ rfl rfl h.table rfl (h.realizes.withMap attributes)
    (h.apart_note .maps)

end Follows

/-! ## States in pairs -/

/-- What goes with the state of a compilation: the state of the draft, and the books. -/
structure Trail where
  draft : Generator
  book : Book
  library : String → Book

/-- What of the code of a function does not depend on the numbers of constants: its length, the positions in the
source, and the jumps that wait for a target. -/
def CodeScope.outline (s : CodeScope) : Nat × SourceMap × List PendingJumps := (s.code.size, s.positions, s.loops)

/-- **The state of a compilation goes with a draft.** Every unit begins at the start of a function, so instructions
stand at the same offsets. -/
structure Tracks (M : ModuleMap) (blank : SymbolTable) (Q : Series → Nat → Prop) (t : Trail) (g : Generator) :
    Prop where
  follows : Follows M blank Q t.draft.context g.context t.book t.library
  outline : t.draft.scope.outline = g.scope.outline
  /-- As many functions are open in the unit. -/
  depth : t.draft.outer.length + g.unitDepth = g.outer.length + t.draft.unitDepth
  constants : t.draft.constants.size ≤ g.constants.size
  clean : Clean t.draft

/-- **The draft makes the step `y`**, with the result `a`, and gets on together with the compilation. -/
structure Walks (M : ModuleMap) (blank : SymbolTable) (Q : Series → Nat → Prop) {α : Type} (y : Gen α) (t : Trail)
    (g : Generator) (a : α) (t' : Trail) (g' : Generator) : Prop where
  run : y t.draft = .ok a t'.draft
  tracks : Tracks M blank Q t' g'
  book : t.book.Le t'.book
  context : g.context.Extends g'.context
  library : ∀ {name : String} {r : Ref}, g.modules.get? name = some r → t'.library name = t.library name

/-- **They write the same code** up to the numbers of constants. -/
structure Repeats (M : ModuleMap) (blank : SymbolTable) (Q : Series → Nat → Prop) {α : Type} (y : Gen α) (t : Trail)
    (g : Generator) (a : α) (t' : Trail) (g' : Generator) : Prop extends Walks M blank Q y t g a t' g' where
  written : ∃ f, Writes t.draft f t'.draft ∧ ∀ κ, t'.book.Numbers κ → Writes g (f.renumber κ) g'

section

variable {t t' t1 t2 : Trail} {g g' g1 g2 : Generator} {α β : Type} {y : Gen α} {l : α → Gen β}

theorem Tracks.size (h : Tracks M blank Q t g) : t.draft.scope.code.size = g.scope.code.size :=
  congrArg Prod.fst h.outline

theorem Tracks.positions (h : Tracks M blank Q t g) : t.draft.scope.positions = g.scope.positions :=
  congrArg (·.2.1) h.outline

theorem Tracks.loops (h : Tracks M blank Q t g) : t.draft.scope.loops = g.scope.loops :=
  congrArg (·.2.2) h.outline

theorem bind_run {k : α → Gen β} (h : x g = .ok a g1) : (x >>= k) g = k a g1 := by
  rw [bind_apply, h]

theorem Walks.bind (h : Walks M blank Q y t g a t1 g1) (h' : Walks M blank Q (l a) t1 g1 a' t2 g2) :
    Walks M blank Q (y >>= l) t g a' t2 g2 where
  run := (bind_run h.run).trans h'.run
  tracks := h'.tracks
  book := h.book.trans h'.book
  context := h.context.trans h'.context
  library hm := (h'.library (h.context.modules hm)).trans (h.library hm)

theorem Repeats.bind (h : Repeats M blank Q y t g a t1 g1) (h' : Repeats M blank Q (l a) t1 g1 a' t2 g2) :
    Repeats M blank Q (y >>= l) t g a' t2 g2 := by
  refine ⟨h.toWalks.bind h'.toWalks, ?_⟩
  obtain ⟨f, hd, hg⟩ := h.written
  obtain ⟨f', hd', hg'⟩ := h'.written
  exact ⟨.seq f f', hd.trans hd', fun κ hκ => (hg κ (hκ.of_le h'.book)).trans (hg' κ hκ)⟩

theorem Repeats.congr (h : Repeats M blank Q y t g a t' g') (hrun : z t.draft = .ok a' t'.draft) :
    Repeats M blank Q z t g a' t' g' :=
  ⟨⟨hrun, h.tracks, h.book, h.context, h.library⟩, h.written⟩

theorem Tracks.stay (h : Tracks M blank Q t g) (hrun : y t.draft = .ok a t.draft) : Walks M blank Q y t g a t g :=
  ⟨hrun, h, .refl _, .refl _, fun _ => rfl⟩

theorem Walks.silent (h : Walks M blank Q y t g a t' g') (hd : Writes t.draft .nil t'.draft) (hg : Writes g .nil g') :
    Repeats M blank Q y t g a t' g' := ⟨h, .nil, hd, fun _ _ => hg⟩

theorem Tracks.copies (h : Tracks M blank Q t g) (hrun : y t.draft = .ok a t'.draft)
    (hf : Follows M blank Q t'.draft.context g'.context t'.book t'.library)
    (hbook : t.book.Le t'.book) (hcontext : g.context.Extends g'.context)
    (hlibrary : ∀ {name : String} {r : Ref}, g.modules.get? name = some r → t'.library name = t.library name)
    (hd : Writes t.draft .nil t'.draft) (hg : Writes g .nil g') (hpd : t'.draft.scope = t.draft.scope)
    (hpg : g'.scope = g.scope) (hconstants : t'.draft.constants.size ≤ g'.constants.size) (hclean : Clean t'.draft) :
    Repeats M blank Q y t g a t' g' := by
  refine Walks.silent ⟨hrun, ⟨hf, ?_, ?_, hconstants, hclean⟩, hbook, hcontext, hlibrary⟩ hd hg
  · rw [hpd, hpg]
    exact h.outline
  · rw [hd.outer, hd.unitDepth, hg.outer, hg.unitDepth]
    exact h.depth

end

/-! ## Steps in pairs -/

/-- **Whenever the step `x` of a compilation succeeds, the step `y` of the draft does the same.** -/
structure Echoes (M : ModuleMap) (blank : SymbolTable) {α : Type} (x y : Gen α) : Prop where
  growing : Growing x
  runs : ∀ {Q : Series → Nat → Prop} {t : Trail} {g : Generator} {a : α} {g' : Generator}, x g = .ok a g' → Clean g' →
    Tracks M blank Q t g → ∃ t', Repeats M blank Q y t g a t' g'

namespace Echoes

variable {α β : Type} {x y : Gen α}

theorem bind {k l : α → Gen β} (hx : Echoes M blank x y) (hk : ∀ a, Echoes M blank (k a) (l a)) :
    Echoes M blank (x >>= k) (y >>= l) where
  growing := hx.growing.bind fun a => (hk a).growing
  runs hr hc ht := by
    obtain ⟨a, g1, hxr, hkr⟩ := bind_ok hr
    obtain ⟨t1, hcopy⟩ := hx.runs hxr ((hk a).growing.clean hkr hc) ht
    obtain ⟨t2, hcopy'⟩ := (hk a).runs hkr hc hcopy.tracks
    exact ⟨t2, hcopy.bind hcopy'⟩

theorem pure (a : α) : Echoes M blank (Pure.pure a) (Pure.pure a) where
  growing := Obeys.pure a
  runs hr _ ht := by
    cases hr
    exact ⟨_, (ht.stay rfl).silent (.idle rfl) (.idle rfl)⟩

theorem throw (e : CompileError) (y : Gen α) : Echoes M blank (MonadExcept.throw e) y where
  growing := Obeys.throw e
  runs hr _ _ := by cases hr

theorem ite [Decidable p] (hx : Echoes M blank x y) (hx' : Echoes M blank x' y') :
    Echoes M blank (if p then x else x') (if p then y else y') := by
  split
  · exact hx
  · exact hx'

theorem guarded [Decidable p] (hx : Echoes M blank x y) :
    Echoes M blank (if p then MonadExcept.throw e else x) (if p then MonadExcept.throw e else y) :=
  ite (throw e _) hx

theorem checked [DecidablePred p] (hx : Echoes M blank x y)
    (hp : ∀ {Q : Series → Nat → Prop} {t : Trail} {g : Generator}, Tracks M blank Q t g → p t.draft → p g) :
    Echoes M blank ((get : Gen Generator) >>= fun g => if p g then MonadExcept.throw e else x)
      ((get : Gen Generator) >>= fun g => if p g then MonadExcept.throw e else y) where
  growing := Obeys.get.bind fun _ => Obeys.ite (Obeys.throw e) hx.growing
  runs {Q t g a g'} hr hc ht := by
    have hr' : (if p g then MonadExcept.throw e else x) g = .ok a g' := hr
    by_cases hg : p g
    · rw [if_pos hg] at hr'
      cases hr'
    · rw [if_neg hg] at hr'
      obtain ⟨t', hcopy⟩ := hx.runs hr' hc ht
      refine ⟨t', hcopy.congr ?_⟩
      show (if p t.draft then MonadExcept.throw e else y) t.draft = _
      rw [if_neg fun hd => hg (hp ht hd)]
      exact hcopy.run

theorem discard (hx : Echoes M blank x y) : Echoes M blank (Functor.discard x) (Functor.discard y) := by
  have heq (x : Gen α) : Functor.discard x = x >>= fun _ => Pure.pure () := by
    rfl
  rw [heq, heq]
  exact hx.bind fun _ => pure ()

theorem ofTable {k : SymbolTable → α × SymbolTable} (hb : ∀ t, (k t).2.builtins = t.builtins)
    (hx : ∀ g, x g = .ok (k g.table).1 { g with table := (k g.table).2 })
    (hgrow : Growing x) : Echoes M blank x x where
  growing := hgrow
  runs {Q t g a g'} hr _ ht := by
    rw [hx] at hr
    cases hr
    have htable : t.draft.table = g.table := ht.follows.table
    have hf := ht.follows.withTable (hb g.table)
    have hrun := hx t.draft
    rw [htable] at hrun
    exact ⟨{ t with draft := { t.draft with table := (k g.table).2 } }, ht.copies hrun hf (.refl _) ⟨.of_eq rfl rfl, id⟩
      (fun _ => rfl) (.idle rfl) (.idle rfl) rfl rfl ht.constants ht.clean⟩

theorem define (name : String) : Echoes M blank (define name) (define name) :=
  ofTable (fun t => t.builtins_define) (fun _ => rfl) (Emits.define name).growing

theorem resolveTop? (name : String) : Echoes M blank (resolveTop? name) (resolveTop? name) :=
  ofTable (k := fun t => (t.resolveTop? name, t)) (fun _ => rfl) (fun _ => rfl) (Emits.resolveTop? name).growing

theorem resolve? (name : String) : Echoes M blank (resolve? name) (resolve? name) := by
  refine ofTable (k := fun t => ((t.resolve name).map (·.1), ((t.resolve name).map (·.2.2)).getD t)) ?_ ?_
    (Emits.resolve? name).growing
  · intro t
    cases hr : t.resolve name with
    | none => rfl
    | some p => exact SymbolTable.builtins_resolve hr
  · intro g
    show EStateM.Result.ok _ _ = _
    cases hr : g.table.resolve name with
    | none => simp
    | some p => simp

theorem inBlock (hx : Echoes M blank x y) : Echoes M blank (inBlock x) (inBlock y) where
  growing := hx.growing.inBlock
  runs {Q t g a g'} hr hc ht := by
    obtain ⟨g1, hx', rfl⟩ := inBlock_ok hr
    have htable : t.draft.table = g.table := ht.follows.table
    have henter : Tracks M blank Q { t with draft := { t.draft with table := t.draft.table.enter true } }
        { g with table := g.table.enter true } := by
      refine ⟨?_, ht.outline, ht.depth, ht.constants, ht.clean⟩
      rw [htable]
      exact ht.follows.withTable rfl
    obtain ⟨t1, hcopy⟩ := hx.runs hx' hc henter
    have htable1 : t1.draft.table = g1.table := hcopy.tracks.follows.table
    obtain ⟨f, hd, hg⟩ := hcopy.written
    refine ⟨{ t1 with draft := { t1.draft with table := t1.draft.table.leave.2 } }, ⟨?_, ⟨?_, hcopy.tracks.outline,
      hcopy.tracks.depth, hcopy.tracks.constants, hcopy.tracks.clean⟩, hcopy.book,
      ⟨hcopy.context.le.congr rfl rfl rfl rfl, hcopy.context.modules⟩, hcopy.library⟩, f, ?_, fun κ hκ => ?_⟩
    · unfold Generator.inBlock
      rw [hcopy.run]
    · rw [htable1]
      exact hcopy.tracks.follows.withTable (SymbolTable.builtins_leave _)
    · exact hd.congr rfl rfl hd.outer hd.unitDepth ⟨hd.importing, hd.keeps.modules⟩
    · have hw := hg κ hκ
      exact hw.congr rfl rfl hw.outer hw.unitDepth ⟨hw.importing, hw.keeps.modules⟩

end Echoes

end Scripting
