import Scripting.Proofs.Machine.Replay
import Scripting.Proofs.Program.Safety
import Scripting.Proofs.Value.Copy
import Scripting.Script
/-!
# `Proofs.Script.Isolation` — what a protected run leaves alone

A protected run works on deep copies of the variables. It shares with the instance what copies share with
their originals, closures above all, and the constants of the program (`Instance.Common`). Whatever can be
changed through these is exposed to the run; every other object is afterwards as it was before, and where
nothing of the instance is exposed the next protected run gives the same variables
(`Instance.runProtected_isolated`).
-/

namespace Scripting

open List Renaming Value

namespace Instance

variable {i : Instance} {ρ : Renaming} {heap heap' : Heap} {host : String → List Value → Action Value}

/-- The values that a run begins with. -/
def Begins (i : Instance) (x : Value) : Prop := x ∈ i.program.constants ∨ x ∈ i.globals

/-- The values that a protected run and the instance have in common. -/
def Common (i : Instance) (h : Heap) (x : Value) : Prop :=
  x ∈ i.program.constants ∨ ∃ v ∈ i.globals, Shares h Limits.nesting v x

/-- **The same variables**, with the same values but for where their objects are stored. -/
def SameVariables (i : Instance) (h : Heap) (j : Instance) (k : Heap) : Prop := k.routines = h.routines ∧
    ∃ ρ : Renaming, (∀ {n r s}, ρ.body n r s ↔ s = r) ∧ ρ.Joins h k ∧
      Forall₂ (RenamedEntry ρ) i.bindings j.bindings

theorem Common.meets (hx : i.Common heap x) : Meets heap i.Begins x := by
  rcases hx with hx | ⟨v, hv, hx⟩
  · exact .self (.inl hx)
  · exact ⟨v, .inr hv, hx.leads⟩

theorem bindings_renamed {globals globals' : Array Value} (hg : RenamedAll ρ globals.toList globals'.toList) :
    Forall₂ (RenamedEntry ρ) { i with globals }.bindings { i with globals := globals' }.bindings := by
  unfold bindings
  rw [forall₂_map_left_iff, forall₂_map_right_iff]
  refine forall₂_same.mpr fun e _ => ⟨rfl, ?_⟩
  have hget := getElem?_rel hg e.2
  simp only [Array.getElem?_toList] at hget
  show Renamed ρ (globals.getD e.2 .undefined) (globals'.getD e.2 .undefined)
  rw [Array.getD_eq_getD_getElem?, Array.getD_eq_getD_getElem?]
  generalize globals[e.2]? = a, globals'[e.2]? = b at hget
  cases hget with
  | some hv => exact hv
  | none => exact .undefined

/-- **An instance on two heaps that correspond** gives the same variables on both. -/
theorem run_alike (hfits : ρ.Fits i.program) (hhost : ParametricHost host) (hj : ρ.Joins heap heap')
    {globals globals' : Array Value} (hg : RenamedAll ρ globals.toList globals'.toList) (fuel : Nat) :
    let a := { i with globals }.run host heap fuel
    let b := { i with globals := globals' }.run host heap' fuel
    b.1 = a.1 ∧ (∃ ρ', ρ.Growth ρ' ∧ ρ'.Joins a.2.2 b.2.2) ∧ SameVariables a.2.1 a.2.2 b.2.1 b.2.2 := by
  intro a b
  obtain ⟨houtcome, ρ', hgrow, hj', hg'⟩ := run_replays hfits i.limits hhost hj hg fuel
  refine ⟨houtcome, ⟨ρ', hgrow, hj'⟩, ?_, ρ', ?_, hj', bindings_renamed hg'⟩
  · have hleft := hj'.left.routines
    have hright := hj'.right.routines
    rw [hgrow.left] at hleft
    rw [hgrow.right, hfits.routines] at hright
    exact hright.trans hleft.symm
  · rw [hgrow.body]
    exact hfits.body

/-! ## Protected runs -/

/-- A protected run is a run with copies of the variables. -/
theorem runProtected_eq (i : Instance) (host : String → List Value → Action Value) (heap : Heap) (fuel : Nat) :
    ∃ globals k, i.globals.mapM copy heap = .ok globals k ∧
      i.runProtected host heap fuel = { i with globals }.run host k fuel := by
  obtain ⟨globals, k, hk⟩ := Action.Total.array_mapM (copyTo_total Limits.nesting) i.globals heap
  have hclone : i.clone heap = .ok { i with globals } k := by
    show EStateM.bind (i.globals.mapM copy) _ heap = _
    rw [EStateM.bind, show i.globals.mapM copy heap = .ok globals k from hk]
    rfl
  refine ⟨globals, k, hk, ?_⟩
  rw [runProtected, hclone]

/-- **Protected runs from two heaps that correspond**, if the copies do. -/
theorem runProtected_alike (hfits : ρ.Fits i.program) (hhost : ParametricHost host) (hj : ρ.Joins heap heap')
    (hcopy : ∀ v ∈ i.globals.toList, ρ.Acts (Renamed ρ) v.copy v.copy) (fuel : Nat) :
    let a := i.runProtected host heap fuel
    let b := i.runProtected host heap' fuel
    b.1 = a.1 ∧ (∃ ρ', ρ.Growth ρ' ∧ ρ'.Joins a.2.2 b.2.2) ∧ SameVariables a.2.1 a.2.2 b.2.1 b.2.2 := by
  intro a b
  obtain ⟨globals, k, hk, ha⟩ := runProtected_eq i host heap fuel
  obtain ⟨globals', k', hk', hb⟩ := runProtected_eq i host heap' fuel
  have hcopies : ρ.Acts (fun xs ys : Array Value => RenamedAll ρ xs.toList ys.toList)
      (i.globals.mapM copy) (i.globals.mapM copy) := by
    rw [array_mapM]
    refine .bind (.mapM (Q := fun a b => b = a ∧ a ∈ i.globals.toList) ?_ ?_) fun xs ys hx => .pure hx
    · rintro v w ⟨hw, hv⟩
      rw [hw]
      exact hcopy v hv
    · exact forall₂_same.mpr fun v hv => ⟨rfl, hv⟩
  have hresult := hcopies hj
  rw [hk, hk'] at hresult
  show (i.runProtected host heap' fuel).1 = (i.runProtected host heap fuel).1 ∧ _
  obtain ⟨hg, hheaps⟩ : RenamedAll ρ globals.toList globals'.toList ∧ ρ.Joins k k' := by
    cases hresult with
    | ok hg hheaps => exact ⟨hg, hheaps⟩
  simp only [a, b, ha, hb]
  exact run_alike hfits hhost hheaps hg fuel

/-- **What is not exposed is left alone.** -/
theorem runProtected_keeps (hhost : ParametricHost host) (hcovers : ∀ x, i.Begins x → heap.Covers x) (fuel : Nat) :
    let after := (i.runProtected host heap fuel).2.2
    heap.Later after ∧
      ∀ t r, r < heap.size t → ¬Exposed heap (i.Common heap) t r → after.object t r = heap.object t r := by
  intro after
  have hcommon : ∀ x, i.Common heap x → heap.Covers x := by
    intro x hx u hu
    obtain ⟨y, hy, hl⟩ := hx.meets
    exact hcovers y hy (hl.trans hu)
  have hk := keeping_keeps heap heap (i.Common heap)
  have hfits : (keeping heap heap (i.Common heap)).Fits i.program :=
    ⟨Iff.rfl, rfl, fun v hv => hk.value (.self (.inl hv))⟩
  have hj := keeping_joins rfl (fun _ => Nat.le_refl _) hcommon fun _ => rfl
  obtain ⟨-, ⟨ρ', hgrow, hj'⟩, -⟩ := runProtected_alike hfits hhost hj (fun v hv =>
    copyTo_knowing _ fun x hx => .self (.inr ⟨v, Array.mem_toList_iff.mp hv, hx⟩)) fuel
  constructor
  · have hlater := hj'.left
    rwa [hgrow.left] at hlater
  · intro t r hr hexposed
    have hkept := hj'.kept (t := t) (r := r)
    rw [hgrow.left, hgrow.changeable] at hkept
    refine hkept hr ?_
    rintro (hle | he)
    · exact absurd hr (Nat.not_lt.mpr hle)
    · exact hexposed he

/-- **Protected runs are isolated.** Objects that a protected run cannot change through what it has in common
with the instance are as they were, whether it succeeds or fails. If all that the instance leads to is such,
the next protected run ends in the same way and gives the same variables. -/
theorem runProtected_isolated (i : Instance) (hhost : ParametricHost host)
    (hcovers : ∀ x, i.Begins x → heap.Covers x) (fuel : Nat) :
    let first := i.runProtected host heap fuel
    let second := i.runProtected host first.2.2 fuel
    (∀ t r, r < heap.size t → ¬Exposed heap (i.Common heap) t r → first.2.2.object t r = heap.object t r) ∧
      ((∀ t r, Reached heap i.Begins t r → ¬Exposed heap (i.Common heap) t r) →
        second.1 = first.1 ∧ SameVariables first.2.1 first.2.2 second.2.1 second.2.2) := by
  intro first second
  obtain ⟨hlater, hkeeps⟩ := runProtected_keeps (i := i) hhost hcovers fuel
  refine ⟨hkeeps, fun hnone => ?_⟩
  have hk := keeping_keeps heap first.2.2 i.Begins
  have hfits : (keeping heap first.2.2 i.Begins).Fits i.program :=
    ⟨Iff.rfl, hlater.routines, fun v hv => hk.value (.self (.inl hv))⟩
  have hj : (keeping heap first.2.2 i.Begins).Joins heap first.2.2 :=
    keeping_joins hlater.hosts hlater.size hcovers fun hr => hkeeps _ _ (hr.inside hcovers) (hnone _ _ hr)
  have hagain := runProtected_alike hfits hhost hj
    (fun v hv => copy_renamed (hk.value (.self (.inr (Array.mem_toList_iff.mp hv))))) fuel
  exact ⟨hagain.1, hagain.2.2⟩

end Instance

/-! ## A list of lists and a counter -/

theorem echoHost_parametric : ParametricHost echoHost := by
  intro ρ name args args' hargs
  refine .pure ?_
  cases hargs with
  | nil => exact .undefined
  | cons hv _ => exact hv

/-- An instance with these variables. -/
def Instance.compiled? (names : List String) (body : List Stmt) (globals : Array Value) (heap : Heap) :
    Option (Instance × Heap) :=
  match Generator.compile {} .empty body { table := (Script.defineAll names SymbolTable.withBuiltins).2, heap } with
  | (.ok program, g) =>
    some ({ program, globals, slots := Dict.ofList (names.zip (range names.length)) }, g.heap)
  | (.error _, _) => none

/-- `a[0][0]++` -/
def tallyingBody : List Stmt := [
  .step .none (.index .none (.index .none (.ident .none "a") (.int .none 0)) (.int .none 0)) .increment]

/-- A list of lists. -/
def tallyHeap : Heap := { arrays := #[#[.array .mutable 1], #[.int 1]] }

/-- The tally has everything that it leads to, and its copies share nothing but numbers. -/
theorem tallying_compiled : ∃ i heap,
    Instance.compiled? ["a"] tallyingBody #[.array .mutable 0] tallyHeap = some (i, heap) ∧
      i.globals = #[.array .mutable 0] ∧ heap.arrayAt 0 = #[.array .mutable 1] ∧ heap.arrayAt 1 = #[.int 1] ∧
      (∀ x, i.Begins x → heap.Covers x) ∧ ∀ x, i.Common heap x → ∃ n, x = .int n := by
  have hfacts : (Instance.compiled? ["a"] tallyingBody #[.array .mutable 0] tallyHeap).map
      (fun p => (p.1.globals, p.1.program.constants, p.2.arrays)) =
      some (#[.array .mutable 0], #[.int 0, .int 0, .int 1, .int 0, .int 0], tallyHeap.arrays) := by
    decide +kernel
  obtain ⟨⟨i, heap⟩, hi, hfacts⟩ := Option.map_eq_some_iff.mp hfacts
  obtain ⟨hglobals, hconstants, harrays⟩ : i.globals = #[.array .mutable 0] ∧
      i.program.constants = #[.int 0, .int 0, .int 1, .int 0, .int 0] ∧ heap.arrays = tallyHeap.arrays := by
    simpa using hfacts
  have houter : heap.arrayAt 0 = #[.array .mutable 1] := by simp [Heap.arrayAt, harrays, tallyHeap]
  have hinner : heap.arrayAt 1 = #[.int 1] := by simp [Heap.arrayAt, harrays, tallyHeap]
  have hsize : heap.size .arrays = 2 := by simp [Heap.size, harrays, tallyHeap]
  have hconstant {x : Value} (hx : x ∈ i.program.constants) : ∃ n, x = .int n := by
    rw [hconstants] at hx
    simp only [mem_toArray, mem_cons, not_mem_nil, or_false] at hx
    rcases hx with rfl | rfl | rfl | rfl | rfl <;> exact ⟨_, rfl⟩
  have hint (n : Int64) : heap.Covers (.int n) := by
    refine .of_parts ?_ ?_
    · rintro t r ⟨⟩
    · rintro u ⟨⟩
  have hlist {r : Ref} {u : Value} (hr : r < heap.size .arrays) (hitems : heap.arrayAt r = #[u]) (hu : heap.Covers u) :
      heap.Covers (.array .mutable r) := by
    refine .of_parts ?_ ?_
    · rintro t r ⟨⟩
      exact hr
    · rintro w ⟨hw⟩
      rw [hitems] at hw
      obtain rfl := mem_singleton.mp hw
      exact hu
  refine ⟨i, heap, hi, hglobals, houter, hinner, ?_, ?_⟩
  · rintro x (hx | hx)
    · obtain ⟨n, rfl⟩ := hconstant hx
      exact hint n
    · obtain rfl : x = .array .mutable 0 := by simpa [hglobals] using hx
      exact hlist (by simp [hsize]) houter (hlist (by simp [hsize]) hinner (hint 1))
  · rintro x (hx | ⟨v, hv, hx⟩)
    · exact hconstant hx
    · -- there are numbers two levels down, and a copy shares none of them
      obtain rfl : v = .array .mutable 0 := by simpa [hglobals] using hv
      obtain ⟨depth, hdepth⟩ : ∃ depth, Limits.nesting = depth + 3 := ⟨253, by simp [Limits.nesting]⟩
      rw [hdepth] at hx
      cases hx with
      | item hmem hx =>
        rw [houter] at hmem
        obtain rfl := mem_singleton.mp hmem
        cases hx with
        | item hmem hx =>
          rw [hinner] at hmem
          obtain rfl := mem_singleton.mp hmem
          cases hx

/-- Numbers lead to nothing. -/
theorem not_reached_of_numbers (hS : ∀ x, S x → ∃ n, x = .int n) (t : Table) (r : Ref) : ¬Reached h S t r := by
  rintro ⟨u, ⟨x, hx, hl⟩, hu⟩
  obtain ⟨n, rfl⟩ := hS x hx
  rcases Relation.ReflTransGen.cases_head hl with rfl | ⟨_, hpart, -⟩
  · cases hu
  · cases hpart

/-- A tally in a list of lists is left alone, and comes out the same again. -/
theorem tallying_isolated : ∃ i heap,
    Instance.compiled? ["a"] tallyingBody #[.array .mutable 0] tallyHeap = some (i, heap) ∧
      let first := i.runProtected echoHost heap 100
      let second := i.runProtected echoHost first.2.2 100
      first.2.2.object .arrays 1 = .items #[.int 1] ∧ second.1 = first.1 ∧
        Instance.SameVariables first.2.1 first.2.2 second.2.1 second.2.2 := by
  obtain ⟨i, heap, hi, hglobals, houter, hinner, hcovers, hcommon⟩ := tallying_compiled
  have hnothing (t : Table) (r : Ref) : ¬Exposed heap (i.Common heap) t r :=
    fun he => not_reached_of_numbers hcommon t r he.reached
  have hthere : 1 < heap.size .arrays := by
    refine hcovers (.array .mutable 0) (.inr (by simp [hglobals])) (.single (.item ?_)) (.array .mutable 1)
    simp [houter]
  obtain ⟨hkept, hagain⟩ := i.runProtected_isolated echoHost_parametric hcovers 100
  refine ⟨i, heap, hi, ?_, hagain fun t r _ => hnothing t r⟩
  rw [hkept .arrays 1 hthere (hnothing _ _)]
  exact congrArg Object.items hinner

/-- `if is_undefined(f) { f = (func() { n := 0; return func() { n++; return n } })() }; out = f()` -/
def countingBody : List Stmt := [
  .branch .none none (.call .none (.ident .none "is_undefined") [.ident .none "f"] false) [
    .assign .none [.ident .none "f"] .assign [.call .none (.func .none [] false [
      .assign .none [.ident .none "n"] .define [.int .none 0],
      .ret .none (some (.func .none [] false [
        .step .none (.ident .none "n") .increment, .ret .none (some (.ident .none "n"))]))]) [] false]] none,
  .assign .none [.ident .none "out"] .assign [.call .none (.ident .none "f") [] false]]

/-- The counter after a run. -/
def counting? : Option (Instance × Heap) :=
  (Instance.compiled? ["f", "out"] countingBody #[.undefined, .undefined] {}).map fun p => (p.1.run echoHost p.2 100).2

/-- **A closure is not protected**: the variable that it has captured counts on from one protected run to the
next, and so does what the runs give. -/
theorem counting_not_isolated : ∃ i heap, counting? = some (i, heap) ∧
    let first := i.runProtected echoHost heap 100
    let second := i.runProtected echoHost first.2.2 100
    Reached heap i.Begins .cells 0 ∧ first.2.2.object .cells 0 ≠ heap.object .cells 0 ∧
      first.2.1.get? "out" = some (.int 2) ∧ second.2.1.get? "out" = some (.int 3) := by
  have hbefore : counting?.map (fun p => (p.1.globals, (p.2.closureAt 0).cells, p.2.cellAt 0)) =
      some (#[.closure 0, .int 1], #[0], .int 1) := by
    decide +kernel
  have hafter : counting?.map (fun p => (p.1.runProtected echoHost p.2 100).2.2.cellAt 0) = some (.int 2) := by
    decide +kernel
  have hout : counting?.map (fun p =>
      let first := p.1.runProtected echoHost p.2 100
      (first.2.1.get? "out", (p.1.runProtected echoHost first.2.2 100).2.1.get? "out")) =
      some (some (.int 2), some (.int 3)) := by
    decide +kernel
  obtain ⟨⟨i, heap⟩, hi, hbefore⟩ := Option.map_eq_some_iff.mp hbefore
  rw [hi, Option.map_some] at hafter hout
  simp only [Prod.mk.injEq, Option.some.injEq] at hbefore hafter hout
  obtain ⟨hglobals, hcells, hbefore⟩ := hbefore
  obtain ⟨hfirst, hsecond⟩ := hout
  refine ⟨i, heap, hi, ?_, ?_, hfirst, hsecond⟩
  · refine ⟨.closure 0, .self (.inr ?_), .cell ?_⟩
    · simp [hglobals]
    · simp [hcells]
  · intro hsame
    have hvalue := Object.value.inj hsame
    rw [hafter, hbefore] at hvalue
    exact absurd hvalue (by decide)

end Scripting
