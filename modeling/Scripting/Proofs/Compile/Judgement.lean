import Scripting.Proofs.Compile.Roles
/-!
# `Proofs.Compile.Judgement` — steps of a compilation that check the rules

A step of a compilation checks a rule while it writes code. Started without errors in a state that stands for a
setting (`InSetting`), it ends in one of two ways (`Judged`): it succeeds, the rule holds, and the state stands for the
setting after the step (`Goes`); or there is a first error, and then a limit is exceeded or the rule is broken.

The rules speak of the modules that can be imported. A rule is therefore a predicate on sets of modules: a step
that succeeds has checked it for all modules that can be imported, and one that fails has found it broken for every
set of modules that can be imported without going through those at hand.

* **composition** — `Judges.bind` for sequences, `Judges.inBlock`, `Judges.inLoop` and `Judges.andThen` for blocks,
  loops and statements in a row. What happens after the first error does not matter, since errors are only ever
  added;
* **quiet steps** — writing an instruction can exceed a limit but breaks no rule (`Quiet`).
-/

namespace Scripting

open List SymbolTable

namespace Setting

theorem defining_nil (c : Setting) : c.defining [] = c := by
  simp [defining]

theorem defining_defining (c : Setting) (a b : List String) : (c.defining a).defining b = c.defining (b ++ a) := by
  simp only [defining, append_assoc, Setting.mk.injEq, and_true, funext_iff]
  intro m
  by_cases hm : m ∈ b <;> simp [hm]

/-- In a new block it does not matter in which order the scope around it has defined its names. -/
theorem block_defining_congr (c : Setting) (h : ∀ m, m ∈ a ↔ m ∈ b) :
    (c.defining a).block = (c.defining b).block := by
  simp only [defining, block, h]

end Setting

/-- The jumps that a loop has collected. -/
def PendingJumps.jumps (l : PendingJumps) : Jumps := ⟨!l.continues.isEmpty, !l.breaks.isEmpty⟩

namespace Jumps

/-- Jumps out of the innermost loop in addition to those of some loops. -/
def addTo (j : Jumps) : List Jumps → List Jumps
  | [] => []
  | l :: ls => (l ∪ j) :: ls

theorem union_def (a b : Jumps) : a ∪ b = ⟨a.continues || b.continues, a.breaks || b.breaks⟩ := rfl

theorem union_empty (a : Jumps) : a ∪ {} = a := by
  rw [union_def, Bool.or_false, Bool.or_false]

theorem empty_union (a : Jumps) : {} ∪ a = a := by
  rw [union_def, Bool.false_or, Bool.false_or]

theorem empty_addTo (ls : List Jumps) : addTo {} ls = ls := by
  cases ls with
  | nil => rfl
  | cons l ls => rw [addTo, union_empty]

theorem addTo_addTo (a b : Jumps) (ls : List Jumps) : b.addTo (a.addTo ls) = (a ∪ b).addTo ls := by
  cases ls with
  | nil => rfl
  | cons l ls => simp only [addTo, union_def, Bool.or_assoc]

theorem isEmpty_addTo (j : Jumps) (ls : List Jumps) : (j.addTo ls).isEmpty = ls.isEmpty := by
  cases ls <;> rfl

end Jumps

namespace Generator

/-! ## The first error -/

/-- The first error of a run: one that has been recorded, or the one with which it fails. -/
def firstError {α : Type} : EStateM.Result CompileError Generator α → Option CompileError
  | .ok _ g => g.errors.toList.head?
  | .error e g => (g.errors.toList ++ [e]).head?

/-- **What has been recorded first stays the first error.** -/
theorem firstError_of_grows (h : g.errors.toList.head? = some e) (hg : Grows g (after r)) :
    firstError r = some e := by
  obtain ⟨rest, hrest⟩ := hg.errors
  have hhead : (after r).errors.toList.head? = some e := by
    rw [← hrest, head?_append, h]
    rfl
  cases r with
  | ok a g' => exact hhead
  | error e' g' =>
    show (g'.errors.toList ++ [e']).head? = some e
    rw [head?_append, show g'.errors.toList.head? = some e from hhead]
    rfl

theorem firstError_bind {k : α → Gen β} (h : firstError (x g) = some e) (hk : ∀ a, Growing (k a)) :
    firstError ((x >>= k) g) = some e := by
  rw [bind_apply]
  cases hx : x g with
  | ok a g' =>
    rw [hx] at h
    exact firstError_of_grows h ((hk a).grows g')
  | error e' g' =>
    rw [hx] at h
    exact h

theorem firstError_recover (mark : Mark) (e : CompileError) (g : Generator) :
    firstError (recover mark e g) = (g.errors.toList ++ [e]).head? := by
  unfold recover
  by_cases ha : g.aborted = true
  · rw [if_pos ha]
    rfl
  · rw [if_neg ha]
    have herr := (unwind_eq { g with table := g.table.truncate mark.scopes } mark.functions).2.2.1
    dsimp only
    rw [herr]
    split
    · simp [firstError]
    · simp [firstError]

theorem firstError_andThen {e : CompileError} (h : firstError (first g) = some e) (hr : Growing rest) :
    firstError (andThen first rest g) = some e := by
  cases hx : first g with
  | ok exits g' =>
    rw [hx] at h
    cases exits with
    | true =>
      rw [andThen_of_exit hx]
      exact h
    | false =>
      rw [andThen_of_go hx]
      exact firstError_of_grows h (hr.grows g')
  | error e' g' =>
    rw [hx] at h
    rw [andThen_error hx]
    exact firstError_bind ((firstError_recover g.mark e' g').trans h) fun _ => hr

theorem firstError_discard (x : Gen α) (g : Generator) : firstError (discard x g) = firstError (x g) := by
  show firstError (EStateM.map _ x g) = _
  unfold EStateM.map
  cases x g <;> rfl

theorem firstError_inBlock (x : Gen α) (g : Generator) :
    firstError (inBlock x g) = firstError (x { g with table := g.table.enter true }) := by
  unfold inBlock
  cases x { g with table := g.table.enter true } <;> rfl

theorem firstError_inLoop :
    firstError (inLoop x g) = firstError (x { g with scope := { g.scope with loops := {} :: g.scope.loops } }) := by
  unfold inLoop
  cases x { g with scope := { g.scope with loops := {} :: g.scope.loops } } <;> rfl

/-! ## Standing and moving -/

/-- The modules that a program can import, and those that are being compiled. -/
structure Backdrop where
  modules : ModuleMap
  busy : List String

/-- Every module that has been compiled can be imported. -/
def Known (M : ModuleMap) (g : Generator) : Prop := ∀ name r, g.modules.get? name = some r → Importable M [] name

variable {α β γ : Type} {B : Backdrop} {c : Setting} {g g' g'' : Generator}
  {names names' : List String} {j j' : Jumps}

/-- **The state stands for a setting.** -/
structure InSetting (B : Backdrop) (c : Setting) (g : Generator) : Prop where
  table : g.table.Shows c
  unit : g.unitDepth ≤ g.outer.length
  inLiteral : (g.outer.length != g.unitDepth) = c.inLiteral
  inLoop : g.scope.loops.isEmpty = !c.inLoop
  importing : g.importing = B.busy
  known : Known B.modules g

/-- **What a step leaves behind that has met no error**: some names are defined in the innermost scope, some jumps
out of the innermost loop are waiting for their targets, and everything else is as it was. -/
structure Goes (B : Backdrop) (names : List String) (j : Jumps) (g g' : Generator) : Prop where
  table : g.table.Binds names g'.table
  sane : g.table.Sane → g'.table.Sane
  loops : g'.scope.loops.map (·.jumps) = j.addTo (g.scope.loops.map (·.jumps))
  outer : g'.outer = g.outer
  unitDepth : g'.unitDepth = g.unitDepth
  importing : g'.importing = g.importing
  known : Known B.modules g → Known B.modules g'

theorem Goes.refl (g : Generator) : Goes B [] {} g g := ⟨.refl _, id, (Jumps.empty_addTo _).symm, rfl, rfl, rfl, id⟩

theorem Goes.of_table (h : g.table.Binds names t) (hs : g.table.Sane → t.Sane) :
    Goes B names {} g { g with table := t } :=
  ⟨h, hs, (Jumps.empty_addTo _).symm, rfl, rfl, rfl, id⟩

theorem Goes.of_frame (h : g'.frame = g.frame) : Goes B [] {} g g' := by
  simp only [frame, Prod.mk.injEq] at h
  obtain ⟨htable, hloops, houter, hunit, himporting, hmodules, -⟩ := h
  refine ⟨htable ▸ .refl _, fun hs => htable ▸ hs, ?_, houter, hunit, himporting, fun hk name r hr => ?_⟩
  · rw [hloops, Jumps.empty_addTo]
  · exact hk name r (hmodules ▸ hr)

theorem Goes.trans (h : Goes B names j g g') (h' : Goes B names' j' g' g'') :
    Goes B (names' ++ names) (j ∪ j') g g'' where
  table := h.table.trans h'.table
  sane := h'.sane ∘ h.sane
  loops := by rw [h'.loops, h.loops, Jumps.addTo_addTo]
  outer := h'.outer.trans h.outer
  unitDepth := h'.unitDepth.trans h.unitDepth
  importing := h'.importing.trans h.importing
  known := h'.known ∘ h.known

/-- **The state stands for the setting after the step.** -/
theorem InSetting.goes (h : InSetting B c g) (hm : Goes B names j g g') : InSetting B (c.defining names) g' where
  table := h.table.binds hm.table (hm.sane h.table.sane)
  unit := by rw [hm.outer, hm.unitDepth]; exact h.unit
  inLiteral := by rw [hm.outer, hm.unitDepth]; exact h.inLiteral
  inLoop := by
    have hempty : g'.scope.loops.isEmpty = g.scope.loops.isEmpty := by
      rw [← isEmpty_map (f := PendingJumps.jumps), hm.loops, Jumps.isEmpty_addTo, isEmpty_map]
    rw [hempty]
    exact h.inLoop
  importing := hm.importing.trans h.importing
  known := hm.known h.known

/-! ## Judging -/

/-- **How a step ends that checks a rule.** -/
def Judged (B : Backdrop) (P : (String → Prop) → Prop) (Q : α → Generator → Prop)
    (r : EStateM.Result CompileError Generator α) : Prop :=
  (∃ a g, r = .ok a g ∧ Clean g ∧ P (Importable B.modules []) ∧ Q a g) ∨ ∃ e, firstError r = some e ∧
      (e.cause.isLimit = true ∨ ∀ R : String → Prop, (∀ m, R m → Importable B.modules B.busy m) → ¬P R)

/-- **A step that checks a rule in a setting**, and so defines some names and leaves some jumps. -/
structure Judges (B : Backdrop) (c : Setting) (P : (String → Prop) → Prop) (names : List String) (j : Jumps)
    (x : Gen α) (Q : α → Prop) : Prop where
  growing : Growing x
  judged : ∀ g, Clean g → InSetting B c g → Judged B P (fun a g' => Q a ∧ Goes B names j g g') (x g)

variable {P P' : (String → Prop) → Prop} {Q : α → Prop} {Q' : β → Prop}

theorem Judged.accept {Q : α → Generator → Prop} (hr : r = .ok a g) (hc : Clean g)
    (hp : P (Importable B.modules [])) (hq : Q a g) : Judged B P Q r :=
  .inl ⟨a, g, hr, hc, hp, hq⟩

theorem Judged.limit {Q : α → Generator → Prop} (hr : r = .error e g) (hc : Clean g)
    (he : e.cause.isLimit = true) : Judged B P Q r := by
  subst hr
  have hnil : g.errors.toList = [] := length_eq_zero_iff.mp hc
  exact .inr ⟨e, by rw [firstError, hnil]; rfl, .inl he⟩

theorem Judged.refuse {Q : α → Generator → Prop} (hr : r = .error e g) (hc : Clean g)
    (hn : ∀ R : String → Prop, (∀ m, R m → Importable B.modules B.busy m) → ¬P R) : Judged B P Q r := by
  subst hr
  have hnil : g.errors.toList = [] := length_eq_zero_iff.mp hc
  exact .inr ⟨e, by rw [firstError, hnil]; rfl, .inr hn⟩

theorem Judges.weaken {Q' : α → Prop} {x : Gen α} (h : Judges B c P names j x Q) (hP : ∀ R, P R ↔ P' R)
    (hQ : ∀ a, Q a → Q' a) : Judges B c P' names j x Q' where
  growing := h.growing
  judged g hc hs := by
    rcases h.judged g hc hs with ⟨a, g', hr, hc', hp, hq, hg⟩ | ⟨e, he, hwhy⟩
    · exact .accept hr hc' ((hP _).mp hp) ⟨hQ a hq, hg⟩
    · exact .inr ⟨e, he, hwhy.imp_right fun hn R hR hp => hn R hR ((hP R).mpr hp)⟩

theorem Judges.iff (h : Judges B c P names j x Q) (hP : ∀ R, P R ↔ P' R) :
    Judges B c P' names j x Q := h.weaken hP fun _ => id

/-- **One step after another.** -/
theorem Judges.bind {k : α → Gen β} (hx : Judges B c P names j x Q) (hgrow : ∀ a, Growing (k a))
    (hk : ∀ a, Q a → Judges B (c.defining names) P' names' j' (k a) Q') :
    Judges B c (fun R => P R ∧ P' R) (names' ++ names) (j ∪ j') (x >>= k) Q' where
  growing := hx.growing.bind hgrow
  judged g hc hs := by
    rcases hx.judged g hc hs with ⟨a, g1, hr, hc1, hp, hq, hg⟩ | ⟨e, he, hwhy⟩
    · rw [bind_apply, hr]
      rcases (hk a hq).judged g1 hc1 (hs.goes hg) with ⟨b, g2, hr', hc2, hp', hq', hg'⟩ | ⟨e, he, hwhy⟩
      · exact .accept hr' hc2 ⟨hp, hp'⟩ ⟨hq', hg.trans hg'⟩
      · exact .inr ⟨e, he, hwhy.imp_right fun hn R hR hp => hn R hR hp.2⟩
    · exact .inr ⟨e, firstError_bind he hgrow, hwhy.imp_right fun hn R hR hp => hn R hR hp.1⟩

theorem Judges.kept {a : α} (hp : P (Importable B.modules [])) (hq : Q a) : Judges B c P [] {} (Pure.pure a) Q where
  growing := Obeys.pure a
  judged g hc _ := .accept rfl hc hp ⟨hq, Goes.refl g⟩

theorem Judges.pure (h : Q a) : Judges B c (fun _ => True) [] {} (Pure.pure a) Q := .kept trivial h

/-- A rule that is broken, as far as modules can be imported without going through those at hand. -/
theorem Judges.refused (h : ∀ R : String → Prop, (∀ m, R m → Importable B.modules B.busy m) → ¬P R) :
    Judges B c P names j (throw e) Q where
  growing := Obeys.throw e
  judged _ hc _ := .refuse rfl hc h

theorem Judges.broken (h : ∀ R, ¬P R) : Judges B c P names j (throw e) Q := .refused fun R _ => h R

theorem Judges.exceeded {e : CompileError} (h : e.cause.isLimit = true) : Judges B c P names j (throw e) Q where
  growing := Obeys.throw e
  judged _ hc _ := .limit rfl hc h

/-! ## Steps that define nothing -/

/-- A step that checks a rule and defines nothing, as the steps for expressions do. -/
abbrev Asks (B : Backdrop) (c : Setting) (P : (String → Prop) → Prop) (x : Gen α) : Prop :=
  Judges B c P [] {} x fun _ => True

/-- Steps leave all but code, constants and heap alone, and fail only at a limit. -/
def quiet : Law where
  ok g g' := g'.frame = g.frame
  error g e g' := g'.frame = g.frame ∧ e.cause.isLimit = true
  idle := id
  limit h := ⟨rfl, h⟩
  trans h h' := h'.trans h
  fails h h' := ⟨h'.1.trans h, h'.2⟩

/-- **A step that breaks no rule**, though it may exceed a limit. -/
abbrev Quiet (x : Gen α) : Prop := Obeys quiet x

theorem Obeys.of_quiet (hx : Quiet x) : Obeys L x := by
  intro g
  have h := hx g
  generalize x g = r at h
  cases r with
  | ok a g' => exact L.idle h
  | error e g' => exact L.fails (L.idle h.1) (L.limit h.2)

theorem Obeys.runs (hx : Quiet x) (hc : Clean g) : (∃ a g', x g = .ok a g' ∧ Clean g' ∧ g'.frame = g.frame) ∨
    ∃ e g', x g = .error e g' ∧ Clean g' ∧ e.cause.isLimit = true := by
  have h := hx g
  have hclean {g' : Generator} (h : g'.frame = g.frame) : Clean g' := by
    have herrors : g'.errors = g.errors := congrArg (·.2.2.2.2.2.2.1) h
    rwa [Clean, herrors]
  cases hr : x g with
  | ok a g' => rw [hr] at h; exact .inl ⟨a, g', rfl, hclean h, h⟩
  | error e g' => rw [hr] at h; exact .inr ⟨e, g', rfl, hclean h.1, h.2⟩

theorem Obeys.kept (hx : Quiet x) (hp : P (Importable B.modules [])) : Asks B c P x where
  growing := hx.of_quiet
  judged g hc _ := by
    rcases hx.runs hc with ⟨a, g', hr, hc', h⟩ | ⟨e, g', hr, hc', he⟩
    · exact .accept hr hc' hp ⟨trivial, .of_frame h⟩
    · exact .limit hr hc' he

theorem Obeys.asks (hx : Quiet x) : Asks B c (fun _ => True) x := hx.kept trivial

theorem Judges.followed (hx : Judges B c P [] j x Q) (hgrow : ∀ a, Growing (k a))
    (hk : ∀ a, Q a → Judges B c P' names j' (k a) Q') :
    Judges B c (fun R => P R ∧ P' R) names (j ∪ j') (x >>= k) Q' := by
  have h : Judges B c (fun R => P R ∧ P' R) (names ++ []) (j ∪ j') (x >>= k) Q' :=
    hx.bind hgrow fun a ha => by rw [Setting.defining_nil]; exact hk a ha
  rwa [append_nil] at h

theorem Judges.learning (hx : Judges B c (fun _ => True) [] {} x Q) (hgrow : ∀ a, Growing (k a))
    (hk : ∀ a, Q a → Judges B c P names j (k a) Q') : Judges B c P names j (x >>= k) Q' := by
  have h := hx.followed hgrow hk
  exact h.iff fun _ => and_iff_right trivial

theorem Asks.bind (hx : Asks B c P x) (hk : ∀ a, Judges B c P' names j (k a) Q') :
    Judges B c (fun R => P R ∧ P' R) names j (x >>= k) Q' := by
  have h := hx.followed (fun a => (hk a).growing) fun a _ => hk a
  rwa [Jumps.empty_union] at h

theorem Obeys.before (hx : Quiet x) (hk : ∀ a, Judges B c P names j (k a) Q') : Judges B c P names j (x >>= k) Q' :=
  (Asks.bind hx.asks hk).iff fun _ => and_iff_right trivial

theorem Judges.naming (hx : Judges B c (fun _ => True) names {} x Q)
    (hk : ∀ a, Judges B (c.defining names) P names' j (k a) Q') :
    Judges B c P (names' ++ names) j (x >>= k) Q' := by
  have h := hx.bind (fun a => (hk a).growing) fun a _ => hk a
  exact h.iff fun _ => and_iff_right trivial

/-- **A step after another one that breaks no rule wherever it stands.** -/
theorem Judges.last (hx : Judges B c P names j x Q) (hgrow : ∀ a, Growing (k a))
    (hk : ∀ a, Q a → ∀ c, Judges B c (fun _ => True) [] {} (k a) Q') : Judges B c P names j (x >>= k) Q' := by
  have h := hx.bind hgrow fun a ha => hk a ha (c.defining names)
  rw [Jumps.union_empty] at h
  exact h.iff fun _ => and_iff_left trivial

theorem Judges.quiet (hx : Judges B c P names j x Q) (hk : ∀ a, Quiet (k a)) :
    Judges B c P names j (x >>= k) fun _ => True :=
  hx.last (fun a => (hk a).of_quiet) fun a _ _ => (hk a).asks

theorem Judges.keep {k : α → Gen γ} {y : α → β} (hx : Judges B c P names j x Q) (hk : ∀ a, Quiet (k a))
    (hq : ∀ a, Q a → Q' (y a)) : Judges B c P names j (x >>= fun a => k a >>= fun _ => Pure.pure (y a)) Q' :=
  hx.last (fun a => (hk a).of_quiet.bind fun _ => Obeys.pure _) fun a ha _ => (hk a).before fun _ => .pure (hq a ha)

theorem Judges.map {x : Gen α} {k : α → β} (hx : Judges B c P names j x Q) (hq : ∀ a, Q a → Q' (k a)) :
    Judges B c P names j (k <$> x) Q' := by
  exact hx.last (fun _ => Obeys.pure _) fun a ha _ => .pure (hq a ha)

theorem Judges.discard (hx : Judges B c P names j x Q) :
    Judges B c P names j (discard x) fun _ => True := hx.map fun _ _ => trivial

theorem Judges.unless [Decidable p] (hx : Judges B c P names j x Q) :
    Judges B c (fun R => ¬p ∧ P R) names j (if p then MonadExcept.throw e else x) Q := by
  by_cases hp : p
  · rw [if_pos hp]
    exact .broken fun R h => h.1 hp
  · rw [if_neg hp]
    exact hx.iff fun R => (and_iff_right hp).symm

theorem Judges.unlessExceeded [Decidable p] (he : e.cause.isLimit = true) (hx : Judges B c P names j x Q) :
    Judges B c P names j (if p then MonadExcept.throw e else x) Q := by
  split
  · exact .exceeded he
  · exact hx

theorem Obeys.emitDefine (pos : Pos) (sym : Symbol) : Obeys L (emitDefine pos sym) := by
  unfold Generator.emitDefine
  split <;> exact emit_ _ _ _

/-! ## Names -/

/-- **Defining a variable.** -/
theorem Judges.define (name : String) :
    Judges B c (fun _ => True) [name] {} (define name) fun sym => sym.kind.isDefined = true where
  growing := Growing.modifyGet fun _ => rfl
  judged g hc _ := .accept rfl hc trivial
    ⟨(kind_define g.table name).2, .of_table (.define g.table name) fun h => h.define name⟩

theorem resolve?_none (h : g.table.resolve name = none) : resolve? name g = .ok none g := by
  show EStateM.Result.ok _ _ = _
  simp only [h]

theorem resolve?_some {table : SymbolTable} (h : g.table.resolve name = some (sym, n, table)) :
    resolve? name g = .ok (some sym) { g with table } := by
  show EStateM.Result.ok _ _ = _
  simp only [h]

/-- **Looking a name up** gives a symbol with the role of the name. -/
theorem Judges.resolve? (name : String) :
    Judges B c (fun _ => True) [] {} (resolve? name) fun found => found.map (·.kind.role) = c.role name where
  growing := (Emits.resolve? name).growing
  judged g hc hs := by
    cases hr : g.table.resolve name with
    | none =>
      refine .accept (resolve?_none hr) hc trivial ⟨?_, Goes.refl g⟩
      rw [← hs.table.role]
      simp only [resolve, Option.map_eq_none_iff] at hr
      exact (roleIn_eq_none_of_resolveIn hr).symm
    | some found =>
      obtain ⟨sym, n, table⟩ := found
      obtain ⟨x, hx⟩ := hs.table.sane
      refine .accept (resolve?_some hr) hc trivial ⟨?_, .of_table (.resolve hx hr) fun h => h.resolve hr⟩
      rw [← hs.table.role]
      simp only [resolve, Option.map_eq_some_iff] at hr
      obtain ⟨⟨sym', crossed, inner⟩, hin, heq⟩ := hr
      cases heq
      exact (resolves hin).roleIn_eq.symm

/-- **Asking whether the innermost scope has the name.** -/
theorem Judges.resolveTop? (name : String) : Judges B c (fun _ => True) [] {} (resolveTop? name) fun found =>
    isShadowable found = !decide (name ∈ c.here) where
  growing g := Grows.refl g
  judged g hc hs := .accept rfl hc trivial ⟨hs.table.isShadowable name, Goes.refl g⟩

/-! ## Blocks, loops and statements in a row -/

/-- **A block.** What it defines is forgotten at its end. -/
theorem Judges.inBlock {x : Gen α} (hx : Judges B c.block P names j x Q) : Judges B c P [] j (inBlock x) Q where
  growing := hx.growing.inBlock
  judged g hc hs := by
    have hstands : InSetting B c.block { g with table := g.table.enter true } :=
      ⟨hs.table.block, hs.unit, hs.inLiteral, hs.inLoop, hs.importing, hs.known⟩
    rcases hx.judged { g with table := g.table.enter true } hc hstands with
      ⟨a, g1, hr, hc1, hp, hq, hg⟩ | ⟨e, he, hwhy⟩
    · unfold Generator.inBlock
      rw [hr]
      exact .accept rfl hc1 hp ⟨hq, hg.table.toAround.leave, fun h => (hg.sane (h.enter true)).leave, hg.loops,
        hg.outer, hg.unitDepth, hg.importing, hg.known⟩
    · exact .inr ⟨e, (firstError_inBlock x g).trans he, hwhy⟩

/-- **The body of a loop**, with the jumps out of it. -/
theorem Judges.inLoop {x : Gen α} (hx : Judges B c.loop P names j x Q) :
    Judges B c P names {} (inLoop x) fun r => Q r.1 ∧ r.2.jumps = j where
  growing := hx.growing.inLoop
  judged g hc hs := by
    have hstands : InSetting B c.loop { g with scope := { g.scope with loops := {} :: g.scope.loops } } :=
      ⟨⟨hs.table.sane, hs.table.builtins, hs.table.role, hs.table.taken, hs.table.inGlobal, hs.table.plain⟩,
        hs.unit, hs.inLiteral, rfl, hs.importing, hs.known⟩
    rcases hx.judged { g with scope := { g.scope with loops := {} :: g.scope.loops } } hc hstands with
      ⟨a, g1, hr, hc1, hp, hq, hg⟩ | ⟨e, he, hwhy⟩
    · unfold Generator.inLoop
      rw [hr]
      have hloops : g1.scope.loops.map (·.jumps) = ({} ∪ j) :: g.scope.loops.map (·.jumps) := hg.loops
      rw [Jumps.empty_union] at hloops
      refine .accept rfl hc1 hp ⟨⟨hq, ?_⟩, hg.table, hg.sane, ?_, hg.outer, hg.unitDepth, hg.importing, hg.known⟩
      · cases hl : g1.scope.loops with
        | nil => rw [hl] at hloops; cases hloops
        | cons l ls =>
          rw [hl, map_cons, cons.injEq] at hloops
          exact hloops.1
      · show g1.scope.loops.tail.map (·.jumps) = _
        rw [map_tail, hloops, Jumps.empty_addTo]
        rfl
    · exact .inr ⟨e, firstError_inLoop.trans he, hwhy⟩

/-- **A statement before others.** Those that follow are dropped if it exits. -/
theorem Judges.andThen {exits exits' : Bool} (hf : Judges B c P names j first (· = exits))
    (hgrow : Growing rest) (hr : exits = false → Judges B (c.defining names) P' names' j' rest (· = exits')) :
    Judges B c (fun R => P R ∧ (exits = false → P' R)) (if exits then names else names' ++ names)
      (if exits then j else j ∪ j') (andThen first rest) (· = (exits || exits')) where
  growing := hf.growing.andThen hgrow
  judged g hc hs := by
    rcases hf.judged g hc hs with ⟨a, g1, hfirst, hc1, hp, rfl, hg⟩ | ⟨e, he, hwhy⟩
    · cases a with
      | true =>
        exact .accept (andThen_of_exit hfirst) hc1 ⟨hp, fun h => by cases h⟩ ⟨rfl, hg⟩
      | false =>
        rw [andThen_of_go hfirst]
        rcases (hr rfl).judged g1 hc1 (hs.goes hg) with ⟨b, g2, hrest, hc2, hp', hq', hg'⟩ | ⟨e, he, hwhy⟩
        · exact .accept hrest hc2 ⟨hp, fun _ => hp'⟩ ⟨hq', hg.trans hg'⟩
        · exact .inr ⟨e, he, hwhy.imp_right fun hn R hR hp => hn R hR (hp.2 rfl)⟩
    · exact .inr ⟨e, firstError_andThen he hgrow, hwhy.imp_right fun hn R hR hp => hn R hR hp.1⟩

end Generator

end Scripting
