import Scripting.Proofs.Compile.Parts
import Scripting.Proofs.Compile.Slots
/-!
# `Proofs.Compile.Recovery` — what a compilation leaves behind when statements fail

A statement that fails stops in the middle: scopes and functions that it has opened may still be open.
`Generator.recover` closes them before the next statement is compiled. The lemmas here are about *all* runs
of the steps of a compilation, those that fail included.

* **tables** — `StaysOpen t t'`: the scopes of `t` are still open in `t'`, maybe with others inside, and the
  books of the root are in order (`Booked`);
* **states** — `Leaves g g'`: in addition, one function is open for each scope too many, and the compilation
  is given up only after too many errors;
* **steps** — `Orderly x`: every run of `x` leaves such a state, and a run that succeeds has closed all
  functions that it has opened. By induction on the rules, all steps are orderly (`Recipe.orderly`).

The scopes that a failed step has not closed are closed by `recover`, unless the compilation has been given
up. After that errors are passed on without recovery, and the functions around the last error stay open.
-/

namespace Scripting

open Code List

/-! ## Tables -/

namespace SymbolTable

/-- Which of the open scopes inside the root are blocks, innermost first. -/
def blocks (t : SymbolTable) : List Bool := t.inner.map (·.block)

/-- **The books of the root are in order**: slots that were given away count as taken as soon as no block
outside every function is open, and the global variables of the root have such slots. -/
structure Booked (t : SymbolTable) : Prop where
  bound : t.root.defined ≤ t.root.peak
  level : t.blocks.getLast? ≠ some true → t.root.peak = t.root.defined
  slots : ∀ name sym, t.root.names.get? name = some sym → sym.kind = .globalVar → sym.index < t.root.peak

/-- The name stands for a global variable in the root. -/
def HasGlobal (t : SymbolTable) (name : String) : Prop :=
  ∃ sym, t.root.names.get? name = some sym ∧ sym.kind = .globalVar

/-- **The scopes of `t` are still open in `t'`**, maybe with others inside. New global variables of the root
have slots that were not given away before. -/
structure StaysOpen (t t' : SymbolTable) : Prop where
  inside : t.blocks <:+ t'.blocks
  booked : t'.Booked
  peak : t.root.peak ≤ t'.root.peak
  kept : ∀ name, t.HasGlobal name → t'.HasGlobal name
  named : ∀ name sym, t'.root.names.get? name = some sym → sym.kind = .globalVar →
    t.root.names.get? name = some sym ∨ t.root.peak ≤ sym.index

variable {t t' t'' : SymbolTable}

theorem StaysOpen.refl (h : t.Booked) : t.StaysOpen t where
  inside := suffix_refl _
  booked := h
  peak := Nat.le_refl _
  kept _ hname := hname
  named _ _ hget _ := .inl hget

theorem StaysOpen.trans (h : t.StaysOpen t') (h' : t'.StaysOpen t'') : t.StaysOpen t'' where
  inside := h.inside.trans h'.inside
  booked := h'.booked
  peak := Nat.le_trans h.peak h'.peak
  kept name hname := h'.kept name (h.kept name hname)
  named name sym hget hk := by
    rcases h'.named name sym hget hk with hget' | hle
    · exact h.named name sym hget' hk
    · exact .inr (Nat.le_trans h.peak hle)

theorem length_blocks (t : SymbolTable) : t.blocks.length = t.inner.length := by
  simp [blocks]

theorem StaysOpen.length_le (h : t.StaysOpen t') : t.inner.length ≤ t'.inner.length := by
  rw [← length_blocks, ← length_blocks]
  exact h.inside.length_le

/-- Outside every function, all open scopes are blocks. -/
theorem inGlobal_of_last (h : t.blocks.getLast? ≠ some true) (hne : t.inner ≠ []) : t.inGlobal = false := by
  rw [inGlobal_eq, ← Bool.not_eq_true, all_eq_true]
  intro hall
  obtain ⟨b, hb⟩ : ∃ b, t.blocks.getLast? = some b := by
    refine Option.ne_none_iff_exists'.mp ?_
    simpa [blocks] using hne
  rw [hb] at h
  refine h ?_
  have hmem : b ∈ t.blocks := mem_of_getLast? hb
  rw [show b = true from hall b hmem]

/-- **Definitions and look-ups leave all scopes open.** The variables that are new in the root have slots that
count as taken now, and did not before. -/
theorem Widens.staysOpen (hw : t.Widens t') (h : t.Booked) (hkept : ∀ name, t.HasGlobal name → t'.HasGlobal name)
    (hnew : ∀ name sym, t'.root.names.get? name = some sym → sym.kind = .globalVar →
      t.root.names.get? name = some sym ∨ t.root.peak ≤ sym.index ∧ sym.index < t'.root.peak) :
    t.StaysOpen t' := by
  have hblocks : t'.blocks = t.blocks := hw.blocks
  have hslots (name : String) (sym : Symbol) (hget : t'.root.names.get? name = some sym)
      (hk : sym.kind = .globalVar) : sym.index < t'.root.peak := by
    rcases hnew name sym hget hk with hold | ⟨-, hlt⟩
    · exact Nat.lt_of_lt_of_le (h.slots name sym hold hk) hw.peak
    · exact hlt
  have hbooked : t'.Booked := by
    by_cases hi : t.inner = []
    · have hlevel : t'.root.peak = t'.root.defined := by
        refine hw.level hi (h.level ?_)
        simp [SymbolTable.blocks, hi]
      exact ⟨Nat.le_of_eq hlevel.symm, fun _ => hlevel, hslots⟩
    · -- inside the root only a bound can have been raised, and inside a function not even that
      obtain ⟨-, hdefined⟩ := hw.nested hi
      refine ⟨?_, fun hlast => ?_, hslots⟩
      · rw [hdefined]
        exact Nat.le_trans h.bound hw.peak
      · rw [hblocks] at hlast
        rw [hw.outside (inGlobal_of_last hlast hi), hdefined]
        exact h.level hlast
  exact ⟨⟨[], hblocks.symm⟩, hbooked, hw.peak, hkept, fun name sym hget hk =>
    (hnew name sym hget hk).imp_right And.left⟩

theorem Widens.staysOpen_same (hw : t.Widens t') (h : t.Booked) (hnames : t'.root.names = t.root.names) :
    t.StaysOpen t' := by
  refine hw.staysOpen h (fun name hname => ?_) fun name sym hget _ => .inl (hnames ▸ hget)
  rw [HasGlobal, hnames]
  exact hname

/-- In the root, a definition takes the first slot that was not given away. -/
theorem define_root (h : t.Booked) (hi : t.inner = []) : (t.define name).1 = ⟨name, .globalVar, t.root.peak⟩ ∧
      (t.define name).2.root.names = t.root.names.insert name ⟨name, .globalVar, t.root.peak⟩ ∧
      (t.define name).2.root.peak = t.root.peak + 1 := by
  obtain ⟨inner, root, builtins⟩ := t
  cases hi
  have hlevel : root.peak = root.defined := h.level (by simp [blocks])
  rw [show (SymbolTable.mk [] root builtins).root.peak = root.defined from hlevel]
  refine ⟨rfl, rfl, ?_⟩
  show max root.peak (root.defined + 1) = root.defined + 1
  rw [hlevel]
  exact Nat.max_eq_right (Nat.le_succ _)

theorem define_staysOpen (h : t.Booked) (name : String) : t.StaysOpen (t.define name).2 := by
  have hw := t.define_widens name
  by_cases hi : t.inner = []
  · obtain ⟨-, hnames, hpeak⟩ := define_root h hi
    refine hw.staysOpen h ?_ ?_
    · rintro name' ⟨sym, hget, hk⟩
      rw [HasGlobal, hnames]
      simp only [Dict.get?_insert]
      split
      · exact ⟨_, rfl, rfl⟩
      · exact ⟨sym, hget, hk⟩
    · intro name' sym hget _
      rw [hnames, Dict.get?_insert] at hget
      rw [hpeak]
      split at hget
      · cases hget
        exact .inr ⟨Nat.le_refl _, Nat.lt_succ_self _⟩
      · exact .inl hget
  · exact hw.staysOpen_same h (hw.nested hi).1

/-- What has been defined in the root stays a global variable with a new slot. -/
theorem StaysOpen.of_define (h : t.Booked) (hi : t.inner = []) (h' : (t.define name).2.StaysOpen t') :
    ∃ sym, t'.root.names.get? name = some sym ∧ sym.kind = .globalVar ∧ t.root.peak ≤ sym.index := by
  obtain ⟨-, hnames, hpeak⟩ := define_root h hi
  have hself : (t.define name).2.root.names.get? name = some ⟨name, .globalVar, t.root.peak⟩ := by
    rw [hnames, Dict.get?_insert, if_pos rfl]
  obtain ⟨sym, hget, hk⟩ := h'.kept name ⟨_, hself, rfl⟩
  refine ⟨sym, hget, hk, ?_⟩
  rcases h'.named name sym hget hk with hsame | hle
  · rw [hself] at hsame
    cases hsame
    exact Nat.le_refl _
  · rw [hpeak] at hle
    exact Nat.le_of_succ_le hle

theorem resolve_staysOpen (h : t.Booked) (hr : t.resolve name = some (sym, n, t')) : t.StaysOpen t' := by
  refine (resolve_widens hr).staysOpen_same h ?_
  obtain ⟨_, _, heq⟩ := Option.map_eq_some_iff.mp hr
  cases heq
  rfl

theorem defineFunction_widens (t : SymbolTable) (name : String) : t.Widens (t.defineFunction name).2 :=
  bindTop_widens (.inl rfl) _

/-- A name that stands for the function at hand is no variable. -/
theorem defineFunction_staysOpen (h : t.Booked) (hnone : t.resolveTop? name = none) :
    t.StaysOpen (t.defineFunction name).2 := by
  have hw := t.defineFunction_widens name
  by_cases hi : t.inner = []
  · obtain ⟨inner, root, builtins⟩ := t
    cases hi
    have hnone' : root.names.get? name = none := hnone
    have hnames : (SymbolTable.defineFunction ⟨[], root, builtins⟩ name).2.root.names =
      root.names.insert name ⟨name, .self, 0⟩ := rfl
    refine hw.staysOpen h ?_ ?_
    · rintro name' ⟨sym, hget, hk⟩
      refine ⟨sym, ?_, hk⟩
      rw [hnames, Dict.get?_insert]
      split
      · rename_i heq
        rw [← heq] at hnone'
        exact absurd (hget.symm.trans hnone') (by simp)
      · exact hget
    · intro name' sym hget hk
      rw [hnames, Dict.get?_insert] at hget
      split at hget
      · cases hget
        cases hk
      · exact .inl hget
  · exact hw.staysOpen_same h (hw.nested hi).1

/-! ### Opening and ending scopes -/

theorem enter_booked (h : t.Booked) : (t.enter block).Booked where
  bound := h.bound
  level hlast := by
    refine h.level fun hold => hlast ?_
    have hblocks : (t.enter block).blocks = block :: t.blocks := rfl
    rw [hblocks, getLast?_cons, hold]
    rfl
  slots := h.slots

theorem blocks_leave : t.leave.2.blocks = t.blocks.tail := by
  rw [blocks, inner_leave, blocks, map_tail]

theorem leave_booked (h : t.Booked) : t.leave.2.Booked := by
  obtain ⟨hnames, hpeak, hdefined⟩ := root_leave t
  cases hi : t.inner with
  | nil =>
    have hsame : t.leave.2 = t := by
      obtain ⟨inner, root, builtins⟩ := t
      cases hi
      rfl
    rw [hsame]
    exact h
  | cons s rest =>
    have hdef := defined_leave hi
    constructor
    · rw [hdef, hpeak]
      split
      · exact Nat.max_le.mpr ⟨h.bound, Nat.le_refl _⟩
      · exact h.bound
    · intro hlast
      rw [hpeak, hdef]
      by_cases hend : s.block && rest.isEmpty
      · -- the outermost block ends: its slots count as taken from now on
        rw [if_pos hend, Nat.max_eq_right h.bound]
      · rw [if_neg hend]
        refine h.level fun hold => ?_
        rw [blocks_leave] at hlast
        have hblocks : t.blocks = s.block :: rest.map (·.block) := by simp [blocks, hi]
        rw [hblocks] at hold hlast
        cases rest with
        | nil => simp_all
        | cons s' rest' => exact hlast (by simpa [getLast?_cons_cons] using hold)
    · intro name sym hget hk
      rw [hnames] at hget
      rw [hpeak]
      exact h.slots name sym hget hk

theorem StaysOpen.leave {block : Bool} (h : (t.enter block).StaysOpen t') : t.StaysOpen t'.leave.2 := by
  obtain ⟨hnames, hpeak, -⟩ := root_leave t'
  have hopened : block :: t.blocks <:+ t'.blocks := h.inside
  refine ⟨?_, leave_booked h.booked, ?_, fun name hname => ?_, ?_⟩
  · rw [blocks_leave]
    obtain ⟨extra, heq⟩ := hopened
    rw [← heq]
    cases extra with
    | nil => exact suffix_refl _
    | cons b extra => exact (suffix_cons block t.blocks).trans (suffix_append extra _)
  · rw [hpeak]
    exact h.peak
  · rw [HasGlobal, hnames]
    exact h.kept name hname
  · intro name sym hget hk
    rw [hnames] at hget
    exact h.named name sym hget hk

theorem leaveMany_booked (h : t.Booked) : (leaveMany n t).Booked ∧
    (leaveMany n t).blocks = t.blocks.drop n ∧ (leaveMany n t).root.names = t.root.names ∧
    (leaveMany n t).root.peak = t.root.peak := by
  induction n generalizing t with
  | zero => exact ⟨h, rfl, rfl, rfl⟩
  | succ n ih =>
    obtain ⟨hb, hblocks, hnames, hpeak⟩ := ih (leave_booked h)
    obtain ⟨hnames', hpeak', -⟩ := root_leave t
    refine ⟨hb, ?_, hnames.trans hnames', hpeak.trans hpeak'⟩
    rw [leaveMany, hblocks, blocks_leave, drop_tail]

/-- **Ending all scopes that were opened after `t`.** -/
theorem StaysOpen.truncate (h : t.StaysOpen t') : t.StaysOpen (t'.truncate t.depth) ∧
    (t'.truncate t.depth).inner.length = t.inner.length := by
  have hcount : t'.depth - max t.depth 1 = t'.blocks.length - t.blocks.length := by
    rw [length_blocks, length_blocks]
    simp only [depth]
    omega
  obtain ⟨hb, hblocks, hnames, hpeak⟩ := leaveMany_booked h.booked
  have hsame : (t'.truncate t.depth).blocks = t.blocks := by
    rw [SymbolTable.truncate, hblocks, hcount]
    exact (suffix_iff_eq_drop.mp h.inside).symm
  have hnames' : (t'.truncate t.depth).root.names = t'.root.names := hnames
  refine ⟨⟨⟨[], hsame.symm⟩, hb, ?_, fun name hname => ?_, ?_⟩, ?_⟩
  · show t.root.peak ≤ (leaveMany _ t').root.peak
    rw [hpeak]
    exact h.peak
  · rw [HasGlobal, hnames']
    exact h.kept name hname
  · intro name sym hget hk
    rw [hnames'] at hget
    exact h.named name sym hget hk
  · rw [← length_blocks, hsame, length_blocks]

theorem ofBuiltins_booked (builtins : Array Symbol) : ((ofBuiltins builtins).enter false).Booked := by
  obtain ⟨-, hpeak, hkinds⟩ := ofBuiltins_bare builtins
  have hdefined : (ofBuiltins builtins).root.defined = 0 := by
    exact Array.foldl_induction (fun _ (t : SymbolTable) => t.root.defined = 0) rfl fun _ _ h => h
  refine enter_booked ⟨?_, fun _ => ?_, ?_⟩
  · rw [hdefined]
    exact Nat.zero_le _
  · rw [hdefined, hpeak]
  · intro name sym hget hk
    rw [hkinds sym ⟨_, by simp, name, hget⟩] at hk
    cases hk

end SymbolTable

namespace Generator

open SymbolTable

/-! ## States and steps -/

/-- **What a step leaves behind**, whether it has failed or not. The scopes that were open are still open;
for each one that has been left open inside them, a function has been left open too. -/
structure Leaves (g g' : Generator) : Prop where
  table : g.table.StaysOpen g'.table
  functions : g'.table.inner.length + g.outer.length = g.table.inner.length + g'.outer.length
  unitDepth : g'.unitDepth = g.unitDepth
  errors : g.errors.size ≤ g'.errors.size
  aborted : g'.aborted = true → g.aborted = true ∨ maxErrors < g'.errors.size

/-- What a step leaves behind that has succeeded: no function has been left open. -/
structure LeavesClosed (g g' : Generator) : Prop extends Leaves g g' where
  outer : g'.outer.length = g.outer.length

theorem Leaves.trans (h : Leaves g1 g2) (h' : Leaves g2 g3) : Leaves g1 g3 where
  table := h.table.trans h'.table
  functions := by have := h.functions; have := h'.functions; omega
  unitDepth := h'.unitDepth.trans h.unitDepth
  errors := Nat.le_trans h.errors h'.errors
  aborted ha := by
    rcases h'.aborted ha with ha | hlt
    · exact (h.aborted ha).imp_right fun hlt => Nat.lt_of_lt_of_le hlt h'.errors
    · exact .inr hlt

theorem LeavesClosed.trans (h : LeavesClosed g1 g2) (h' : LeavesClosed g2 g3) : LeavesClosed g1 g3 where
  toLeaves := h.toLeaves.trans h'.toLeaves
  outer := h'.outer.trans h.outer

theorem LeavesClosed.of_table (ht : g.table.StaysOpen g'.table)
    (hlen : g'.table.inner.length = g.table.inner.length) (ho : g'.outer = g.outer)
    (hu : g'.unitDepth = g.unitDepth) (he : g'.errors = g.errors) (ha : g'.aborted = g.aborted) :
    LeavesClosed g g' where
  table := ht
  functions := by rw [hlen, ho]
  unitDepth := hu
  errors := Nat.le_of_eq (by rw [he])
  aborted h := .inl (ha ▸ h)
  outer := by rw [ho]

theorem LeavesClosed.same (hb : g.table.Booked) (ht : g'.table = g.table) (ho : g'.outer = g.outer)
    (hu : g'.unitDepth = g.unitDepth) (he : g'.errors = g.errors) (ha : g'.aborted = g.aborted) :
    LeavesClosed g g' := by
  refine LeavesClosed.of_table ?_ ?_ ho hu he ha
  · rw [ht]
    exact .refl hb
  · rw [ht]

theorem LeavesClosed.widened {table : SymbolTable} (ht : g.table.StaysOpen table) (hw : g.table.Widens table) :
    LeavesClosed g { g with table } := by
  refine LeavesClosed.of_table ht ?_ rfl rfl rfl rfl
  rw [← length_blocks, ← length_blocks]
  exact congrArg length hw.blocks

theorem LeavesClosed.inner_length (h : LeavesClosed g g') : g'.table.inner.length = g.table.inner.length := by
  have := h.functions
  have := h.outer
  omega

/-- Steps leave things in order, those that fail included. -/
def order : Law where
  ok g g' := g.table.Booked → LeavesClosed g g'
  error g _ g' := g.table.Booked → Leaves g g'
  idle h hb := by
    simp only [frame, Prod.mk.injEq] at h
    exact .same hb h.1 h.2.2.1 h.2.2.2.1 h.2.2.2.2.2.2.1 h.2.2.2.2.2.2.2
  limit _ hb := (LeavesClosed.same hb rfl rfl rfl rfl rfl).toLeaves
  trans h h' hb := (h hb).trans (h' (h hb).table.booked)
  fails h h' hb := (h hb).toLeaves.trans (h' (h hb).table.booked)

instance : order.Lenient := ⟨fun _ _ hb => (LeavesClosed.same hb rfl rfl rfl rfl rfl).toLeaves⟩

theorem order_allows {r : EStateM.Result CompileError Generator α} (h : g.table.Booked → order.Allows g r) :
    order.Allows g r := by
  cases r <;> exact fun hb => h hb hb

/-- **A step whose runs all leave things in order**, those that fail included. -/
abbrev Orderly {α : Type} (x : Gen α) : Prop := Obeys order x

theorem Obeys.closes (hx : Orderly x) (h : x g = .ok a g') (hb : g.table.Booked) : LeavesClosed g g' := by
  have hclosed := hx g
  rw [h] at hclosed
  exact hclosed hb

namespace Orderly

/-! ### Variables -/

theorem emitStore (pos : Pos) (op : Operator) (sym : Symbol) (n : Nat) : Orderly (emitStore pos op sym n) := by
  unfold Generator.emitStore
  split <;> first | exact .emit_ _ _ _ | exact .throw _

theorem define (name : String) : Orderly (define name) :=
  fun g hb => .widened (define_staysOpen hb name) (g.table.define_widens name)

theorem resolve? (name : String) : Orderly (resolve? name) := by
  intro g hb
  show LeavesClosed g _
  cases hr : g.table.resolve name with
  | none => exact LeavesClosed.same hb rfl rfl rfl rfl rfl
  | some p => exact .widened (resolve_staysOpen hb hr) (resolve_widens hr)

theorem resolveTop? (name : String) : Orderly (resolveTop? name) := fun _ => order.idle rfl

/-! ### Blocks and loops -/

/-- **A block ends whether its step fails or not.** If it has failed inside a function, what ends is the
scope of that function; the count is the same. -/
theorem inBlock (hx : Orderly x) : Orderly (inBlock x) := by
  have hclose {g g1 : Generator} (hl : Leaves { g with table := g.table.enter true } g1) :
      Leaves g { g1 with table := g1.table.leave.2 } := by
    refine ⟨StaysOpen.leave hl.table, ?_, hl.unitDepth, hl.errors, hl.aborted⟩
    have hlen := hl.table.length_le
    have hfun := hl.functions
    simp only [SymbolTable.enter, length_cons] at hlen hfun
    simp only [inner_leave, length_tail]
    omega
  refine hx.within (fun _ => rfl) (fun h hb => ?_) fun h hb => hclose (h (enter_booked hb))
  have hin := h (enter_booked hb)
  exact ⟨hclose hin.toLeaves, hin.outer⟩

theorem inLoop (hx : Orderly x) : Orderly (inLoop x) := by
  have hsame {g g1 : Generator} (h : Leaves { g with scope := { g.scope with loops := {} :: g.scope.loops } } g1) :
      Leaves g { g1 with scope := { g1.scope with loops := g1.scope.loops.tail } } :=
    ⟨h.table, h.functions, h.unitDepth, h.errors, h.aborted⟩
  exact hx.within (fun _ => rfl) (fun h hb => ⟨hsame (h hb).toLeaves, (h hb).outer⟩) fun h hb => hsame (h hb)

theorem emitLoopJump (pos : Pos) (cause : CompileCause) (add : Nat → PendingJumps → PendingJumps) :
    Orderly (emitLoopJump pos cause add) := by
  rw [emitLoopJump_eq]
  exact Obeys.get.bind fun _ => .ite (.throw _) ((Obeys.emit _ _ _).bind fun _ => .modify fun _ hb =>
    .same hb rfl rfl rfl rfl rfl)

end Orderly

/-! ## Recovery -/

theorem length_unwind {g : Generator} {depth : Nat} (h : depth ≤ g.outer.length) :
    (g.unwind depth).outer.length = depth := by
  have hlen : ((g.scope :: g.outer).drop (g.outer.length - depth)).length = depth + 1 := by
    simp
    omega
  unfold unwind
  split
  · rename_i scope outer heq
    rw [heq] at hlen
    exact Nat.succ.inj hlen
  · rename_i heq
    rw [heq] at hlen
    cases hlen

/-- **Recovery closes what a failed statement has left open**, unless the compilation has been given up. -/
theorem Leaves.rollBack (h : Leaves g g1) :
    LeavesClosed g ({ g1 with table := g1.table.truncate g.mark.scopes }.unwind g.mark.functions) := by
  obtain ⟨htable, hlength⟩ := h.table.truncate
  have hfun := h.functions
  have hle := h.table.length_le
  obtain ⟨ht, hu, he, ha⟩ := unwind_eq { g1 with table := g1.table.truncate g.mark.scopes } g.mark.functions
  have houter : ({ g1 with table := g1.table.truncate g.mark.scopes }.unwind g.mark.functions).outer.length =
      g.outer.length := length_unwind (show g.outer.length ≤ g1.outer.length by omega)
  refine ⟨⟨?_, ?_, ?_, ?_, ?_⟩, houter⟩
  · rw [ht]
    exact htable
  · rw [ht, houter]
    exact congrArg (· + g.outer.length) hlength
  · rw [hu]
    exact h.unitDepth
  · rw [he]
    exact h.errors
  · rw [ha, he]
    exact h.aborted

/-- A statement has failed: its error is noted and all that it opened is closed, or the compilation is given
up. -/
theorem order_recover (h : order.error g e g1) : order.Allows g (recover g.mark e g1) := by
  unfold recover
  split
  · exact h
  · have hback (hb : g.table.Booked) := (h hb).rollBack
    generalize ({ g1 with table := g1.table.truncate g.mark.scopes }.unwind g.mark.functions) = g2 at hback
    have hmore : g2.errors.size ≤ (g2.errors.push e).size := by simp
    dsimp only
    split
    · rename_i hmany
      intro hb
      have h2 := hback hb
      exact ⟨h2.table, h2.functions, h2.unitDepth, Nat.le_trans h2.errors hmore, fun _ => .inr hmany⟩
    · intro hb
      have h2 := hback hb
      refine ⟨⟨h2.table, h2.functions, h2.unitDepth, Nat.le_trans h2.errors hmore, fun hab => ?_⟩, h2.outer⟩
      exact (h2.aborted hab).imp_right fun hlt => Nat.lt_of_lt_of_le hlt hmore

/-- **A statement before others.** Those that follow are compiled in the state before the first one, but for
what it has defined, whether it has failed or not. -/
theorem Orderly.andThen : Orderly first → Orderly rest → Orderly (andThen first rest) := Obeys.andThen order_recover

/-! ## Constructs -/

namespace Orderly

variable {pos : Pos} {body : Gen Bool}

theorem conditional (ht : Orderly test) (hy : Orderly yes) (hn : Orderly no) :
    Orderly (conditional pos test yes no) :=
  ht.bind fun _ => (Obeys.emit _ _ _).bind fun _ => hy.bind fun _ => (Obeys.emit _ _ _).bind fun _ =>
    (Obeys.patchHere _ _).bind fun _ => hn.bind fun _ => .patchHere _ _

theorem shortCircuit (hl : Orderly lhs) (hr : Orderly rhs) : Orderly (shortCircuit pos op lhs rhs) :=
  hl.bind fun _ => (Obeys.emit _ _ _).bind fun _ => hr.bind fun _ => .patchHere _ _

theorem arms {other : Option (Gen Bool)} (hb : Orderly body) (ho : ∀ x, other = some x → Orderly x) :
    Orderly (arms pos body other) := by
  cases other with
  | none => exact (Obeys.emit _ _ _).bind fun _ => hb.bind fun _ => (Obeys.patchHere _ _).bind fun _ => .pure _
  | some x => exact .arms_some hb (ho x rfl)

/-! ### Functions and modules -/

theorem defineParams : ∀ params : List Name, Orderly (defineParams params)
  | [] => .pure _
  | p :: ps => by
    unfold Generator.defineParams
    exact (resolveTop? _).bind fun _ => .ite (.throw _) ((define _).discard.bind fun _ => defineParams ps)

/-- **A function that fails is left open**, with its scope; one that succeeds is closed. -/
theorem enclosed (hx : Orderly x) : Orderly (enclosed x) := by
  refine fun g => order_allows fun hb => ?_
  have h := hx { g with scope := {}, outer := g.scope :: g.outer, table := g.table.enter false }
  have hstep : Generator.enclosed x g = (x >>= fun _ => closeFunction)
    { g with scope := {}, outer := g.scope :: g.outer, table := g.table.enter false } := rfl
  rw [hstep, bind_apply]
  cases hr : x { g with scope := {}, outer := g.scope :: g.outer, table := g.table.enter false } with
  | error e g1 =>
    rw [hr] at h
    replace h := h (enter_booked hb)
    have hfun := h.functions
    refine fun _ => ⟨⟨(suffix_cons _ _).trans h.table.inside, h.table.booked, h.table.peak, h.table.kept,
      h.table.named⟩, ?_,
      h.unitDepth, h.errors, h.aborted⟩
    simp only [SymbolTable.enter, length_cons] at hfun
    show g1.table.inner.length + _ = _
    omega
  | ok u g1 =>
    rw [hr] at h
    replace h := h (enter_booked hb)
    have hfun := h.functions
    have hout : g1.outer.length = g.outer.length + 1 := h.outer
    obtain ⟨scope, outer, houter⟩ := exists_cons_of_length_eq_add_one hout
    have hlen : outer.length = g.outer.length := by
      rw [houter, length_cons] at hout
      omega
    simp only [closeFunction_apply houter]
    refine fun _ => ⟨⟨StaysOpen.leave h.table, ?_, h.unitDepth, h.errors, h.aborted⟩, hlen⟩
    show g1.table.leave.2.inner.length + _ = _ + outer.length
    rw [inner_leave, length_tail, hlen]
    simp only [SymbolTable.enter, length_cons] at hfun
    omega

theorem emitCaptures (pos : Pos) : ∀ syms : List Symbol, Orderly (emitCaptures pos syms)
  | [] => .pure _
  | sym :: rest => by
    rw [emitCaptures_cons]
    refine Obeys.bind ?_ fun _ => emitCaptures pos rest
    unfold emitCapture
    split <;> first | exact .emit_ _ _ _ | exact .throw _

theorem makeFunction (r : Routine) (captures : List Symbol) : Orderly (makeFunction pos r captures) :=
  (Obeys.newRoutine r).bind fun _ => (Obeys.addConstant _).bind fun _ =>
    .ite (.emit_ _ _ _) ((emitCaptures _ _).bind fun _ => .emit_ _ _ _)

theorem defineSelf (name : String) : Orderly (defineSelf name) := by
  intro g
  have hrun : Generator.defineSelf name g = if (g.table.resolveTop? name).isNone then
      .ok () { g with table := (g.table.defineFunction name).2 } else .ok () g := by
    show (if (g.table.resolveTop? name).isNone then _ else _ : Gen Unit) g = _
    split <;> rfl
  rw [hrun]
  split
  · rename_i hnone
    exact fun hb => .widened (defineFunction_staysOpen hb (Option.isNone_iff_eq_none.mp hnone))
      (g.table.defineFunction_widens name)
  · exact order.idle rfl

theorem function {params : List Name} {variadic : Bool} {self : Option String} (hb : Orderly body) :
    Orderly (function pos params variadic self body) := by
  rw [function_eq]
  refine .ite (.throw _) (.ite (.throw _) (Obeys.bind ?_ fun r => .ite (.throw _) (makeFunction _ _)))
  exact enclosed ((defineParams params).bind fun _ => (Obeys.option_forM defineSelf self).bind fun _ =>
    hb.inBlock.bind .emitFinalReturn)

end Orderly

/-- **A module is closed whether it fails or not**, and the table around it comes back as it was. -/
theorem Leaves.outOfModule {name : String} (hb : g.table.Booked) (h : Leaves (g.intoModule name) g1) :
    LeavesClosed g (g.outOfModule g1) := by
  have hlen := h.table.length_le
  have hfun := h.functions
  have hunit : g1.unitDepth = g.outer.length + 1 := h.unitDepth
  have houter : (g.intoModule name).outer.length = g.outer.length + 1 := rfl
  have hunwound : (g1.unwind g1.unitDepth).outer.length = g.outer.length + 1 := by
    rw [length_unwind (by omega), hunit]
  have hback : (g.outOfModule g1).outer.length = g.outer.length := by
    show (g1.unwind g1.unitDepth).outer.tail.length = _
    rw [length_tail, hunwound, Nat.add_sub_cancel]
  refine ⟨⟨.refl hb, ?_, rfl, h.errors, h.aborted⟩, hback⟩
  rw [hback]
  rfl

namespace Orderly

variable {pos : Pos} {body : Gen Bool}

theorem inModule (hx : Orderly x) : Orderly (inModule name x) := by
  intro g
  have h := hx (g.intoModule name)
  rw [inModule_apply]
  generalize x (g.intoModule name) = r at h
  cases r with
  | ok u g1 => exact fun hb => Leaves.outOfModule hb (h (ofBuiltins_booked _)).toLeaves
  | error e g1 => exact fun hb => (Leaves.outOfModule hb (h (ofBuiltins_booked _))).toLeaves

theorem moduleFunction (hb : Orderly body) : Orderly (moduleFunction pos name body) :=
  Obeys.moduleFunction (fun _ _ hb => LeavesClosed.same hb rfl rfl rfl rfl rfl) (inModule (hb.bind .emitFinalReturn))

theorem load {imports : Importer} (himp : ∀ pos name body, Orderly (imports.compile pos name body))
    (name : String) : Orderly (imports.load pos name) := by
  refine .ite (.throw _) ?_
  cases imports.modules.get? name with
  | none => exact .throw _
  | some m =>
    cases m with
    | builtin d => exact (Obeys.newFrozenMap d).bind (.emitConstant pos)
    | source body => exact (himp pos name body).bind fun r => (Obeys.emitConstant pos _).bind fun _ => .emit_ _ _ _

end Orderly

/-! ## All steps -/

section

variable {imports : Importer}

/-- **Every step leaves things in order.** -/
theorem Recipe.orderly (himp : ∀ pos name body, Orderly (imports.compile pos name body))
    (h : Recipe held e exits x) : Orderly (x imports) := by
  induction h with
  | pure _ => exact .pure _
  | throw error => exact .throw error
  | bind _ _ ihx ihk => exact ihx.bind ihk
  | mono _ _ ih | frame _ _ ih | shallow _ ih => exact ih
  | discard _ ih => exact ih.discard
  | plain _ _ _ => exact .emit_ _ _ _
  | literal _ _ => exact .emitConstant _ _
  | load _ => exact .emitLoad _ _
  | store _ op n => exact .emitStore _ op _ n
  | resolve hnone _ ih =>
    refine (Orderly.resolve? _).bind fun found => ?_
    cases found with
    | none =>
      rw [hnone]
      exact .throw _
    | some sym => exact ih sym
  | resolveTop _ ih => exact (Orderly.resolveTop? _).bind ih
  | define _ ih => exact (Orderly.define _).bind ih
  | checked _ _ ih => exact Obeys.get.bind fun _ => .ite (.throw _) ih
  | inBlock _ ih => exact ih.inBlock
  | conditional _ _ _ iht ihy ihn => exact iht.conditional ihy ihn
  | shortCircuit _ _ _ ihl ihr => exact ihl.shortCircuit ihr
  | arms _ _ ihb iho =>
    refine ihb.arms fun z hz => ?_
    obtain ⟨s, hs, rfl⟩ := Option.map_eq_some_iff.mp hz
    exact iho s hs
  | rounds _ _ _ iht ihb ihp =>
    refine (Obeys.rounds (fun z hz => ?_) ihb.inLoop ihp).bind fun _ => .pure _
    obtain ⟨e, he, rfl⟩ := Option.map_eq_some_iff.mp hz
    exact iht e he
  | exit cause e => exact (Orderly.emitLoopJump _ _ _).bind fun _ => .pure _
  | ret _ => exact (Obeys.emit_ _ _ _).bind fun _ => .pure _
  | function _ ih => exact ih.function
  | imported name => exact .load himp name
  | andThen _ _ ihf ihr => exact ihf.andThen ihr

theorem orderly_stmt (himp : ∀ pos name body, Orderly (imports.compile pos name body)) (s : Stmt) :
    Orderly (compileStmt imports s) := (recipe_stmt s).orderly himp

theorem orderly_stmts (himp : ∀ pos name body, Orderly (imports.compile pos name body)) (body : List Stmt) :
    Orderly (compileStmts imports body) := (recipe_stmts body).orderly himp

end

/-! ## Modules and programs -/

theorem orderly_compileModule (modules : ModuleMap) : ∀ (depth : Nat) (pos : Pos) (name : String)
    (body : List Stmt), Orderly (compileModule modules depth pos name body)
  | 0, _, _, _ => .throw _
  | depth + 1, _, _, body => Orderly.moduleFunction (orderly_stmts (orderly_compileModule modules depth) body)

theorem orderly_importer (modules : ModuleMap) (pos : Pos) (name : String) (body : List Stmt) :
    Orderly ((Importer.ofModules modules).compile pos name body) := orderly_compileModule modules _ pos name body

end Generator

end Scripting
