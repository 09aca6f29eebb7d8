import Scripting.Proofs.Compile.Outcome
import Scripting.Proofs.Machine.Discipline
import Scripting.Proofs.Program.Merge
import Scripting.Proofs.Value.Reach
/-!
# `Proofs.Program.Safety` — compiled code never breaks the machine

A compiled program may run in any heap that has the functions and module maps of the compilation
(`Heap.Carries`), on global variables and with modules of the host that contain no compiled functions.
Every such run keeps the stack discipline and never ends because the code is broken
(`compiled_runs_safely`). The same holds of the program with its constants merged.

A program is linked with itself there: the relation between two runs becomes an invariant of one run.
-/

namespace Scripting

open Code Machine Generator Array

variable {B : Nat → Ref → Prop} {constants : Array Value} {routines : Array Routine} {h : Heap}

/-! ## Checked programs -/

theorem Checked.congr (hc : Checked constants routines B)
    (heq : ∀ {n r}, B n r → routines'.getD r {} = routines.getD r {}) : Checked constants routines' B where
  free hb := by rw [heq hb]; exact hc.free hb
  code hb := by rw [heq hb]; exact hc.code hb

/-- Each function corresponds to itself. -/
def Pairing.itself (B : Nat → Ref → Prop) : Pairing where
  body n r s := r = s ∧ B n r
  unique h h' := by rw [h.1, h'.1]

/-- **A checked program is linked with itself**, if its other constants contain no functions. -/
theorem Checked.linked_itself (hc : Checked env.constants h.routines B)
    (hconst : ∀ {k : Nat} {v : Value}, env.constants[k]? = some v → (∀ r, v ≠ .function r) → ¬ContainsFunction h v)
    (hu : UniformHost env.host) : ∃ shape, Linked (World.onHeap h (.itself B)) id env env shape := by
  refine Checked.linked hc rfl rfl hu ?_ ?_ ?_
  · rintro n n' r s s' ⟨rfl, -⟩ ⟨rfl, -⟩
    rfl
  · rintro n r s ⟨rfl, hb⟩
    exact ⟨hb, .refl _⟩
  · intro k v hv
    refine ⟨v, hv, ⟨?_, fun hf => World.onHeap_self (hconst hv hf)⟩⟩
    rintro r rfl
    exact ⟨r, rfl, fun n hb => ⟨rfl, hb⟩⟩

/-- What a program is at the beginning of a run: its functions are typed, and neither its other constants nor
the global variables contain functions. -/
structure Loaded (B : Nat → Ref → Prop) (p : Program) (globals : Array Value) (h : Heap) : Prop where
  checked : Checked p.constants h.routines B
  constants : ∀ {k : Nat} {v : Value}, p.constants[k]? = some v → (∀ r, v ≠ .function r) → ¬ContainsFunction h v
  main : B 0 p.main
  locals : (h.routineAt p.main).locals = 0
  globals : ∀ v ∈ globals, ¬ContainsFunction h v

/-- **Runs of a loaded program are safe.** -/
theorem Loaded.safe {globals : Array Value} (hl : Loaded B p globals h) (hhost : UniformHost host) :
    (∀ fuel, (p.run limits host globals h fuel).outcome.Sound) ∧
      StackSafe { constants := p.constants, limits, host } (Machine.start p.main limits globals h) := by
  let env : Env := { constants := p.constants, limits, host }
  have hchecked : Checked env.constants h.routines B := hl.checked
  obtain ⟨shape, hL⟩ := hchecked.linked_itself hl.constants hhost
  have hrun := hL.starts limits globals ⟨rfl, hl.main⟩ hl.locals h
  have htwins := (World.onHeap h (.itself B)).starts shape limits ⟨rfl, hl.main⟩ World.onHeap_related
    (World.onHeap_all fun v hv => hl.globals v (by simpa using hv))
  constructor
  · intro fuel
    exact (runFor_lockstep hL p.files fuel (.refl _) htwins hrun).2.1
  · exact Disciplined.stackSafe ⟨_, _, _, _, hL, .refl _, htwins, hrun⟩ rfl

/-! ## Compiled programs -/

/-- **A heap that has the functions and maps made between two others**, wherever else it comes from. -/
structure Heap.Carries (before after h : Heap) : Prop where
  routines : ∀ r, before.routines.size ≤ r → r < after.routines.size → h.routineAt r = after.routineAt r
  maps : ∀ r, before.maps.size ≤ r → r < after.maps.size → h.mapAt r = after.mapAt r

/-- No module of the host has a function among its attributes. -/
def ModuleMap.FunctionFree (modules : ModuleMap) (h : Heap) : Prop :=
  ∀ name attributes, modules.get? name = some (.builtin attributes) → ∀ v ∈ attributes.values, ¬ContainsFunction h v

variable {O : Origin} {p q : Program} {k k' : Heap} {globals : Array Value} {places : Array Nat}
  {copy : Ref → Ref → Prop}

theorem Generator.Allowed.functionFree (hv : Allowed O k v) (hf : ∀ r, v ≠ .function r)
    (hmaps : ∀ r, O.maps ≤ r → r < k.maps.size → h.mapAt r = k.mapAt r) (hmodules : O.modules.FunctionFree h) :
    ¬ContainsFunction h v := by
  intro hc
  cases hc with
  | function r => exact hf r rfl
  | @entry kind m e mem inside =>
    cases kind with
    | mutable => exact hv
    | frozen =>
      obtain ⟨hold, hlt, name, hname⟩ := hv
      rw [hmaps m hold hlt] at mem
      exact hmodules name _ hname e.2 (List.mem_map_of_mem mem) inside
  | _ => exact hv

theorem Generator.Compiled.loaded (hc : Compiled O p k)
    (hroutines : ∀ r, O.routines ≤ r → r < k.routines.size → h.routineAt r = k.routineAt r)
    (hconst : ∀ {i : Nat} {v : Value}, p.constants[i]? = some v → (∀ r, v ≠ .function r) → ¬ContainsFunction h v)
    (hglobals : ∀ v ∈ globals, ¬ContainsFunction h v) : Loaded (Made O k) p globals h where
  checked := hc.checked.congr fun hb => hroutines _ hb.new hb.lt
  constants := hconst
  main := hc.main
  locals := by rw [hroutines _ hc.main.new hc.main.lt]; exact hc.locals
  globals := hglobals

/-! ## Merged programs -/

/-- A kind that fits a constant fits the one that is kept for it. -/
theorem StandsFor.has {κ : Kind} (hs : StandsFor k v w) (hκ : κ.Has v) : κ.Has w := by
  intro htext
  obtain ⟨s, rfl⟩ := hκ htext
  exact ⟨s, hs.eq rfl⟩

/-- The copies of the functions in `B`. -/
def Copied (copy : Ref → Ref → Prop) (B : Nat → Ref → Prop) (n : Nat) (s : Ref) : Prop := ∃ r, copy r s ∧ B n r

/-- What code may refer to, it may refer to in the merged program, in another place. -/
theorem Merging.maps (hm : Merging p k q k' places copy) {locals locals' n : Nat} (hl : locals ≤ locals') :
    (constantSig p.constants B locals n).Maps (placeOf places)
      (constantSig q.constants (Copied copy B) locals' n) := by
  refine ⟨hl, Nat.le_refl _, ?_, ?_⟩
  · rintro i κ ⟨v, hv, hκ, hfun⟩
    by_cases hf : ∃ r, v = .function r
    · obtain ⟨r, rfl⟩ := hf
      obtain ⟨s, hs, hcopy⟩ := hm.function hv
      refine ⟨_, hs, fun htext => ?_, fun s' hs' => ?_⟩
      · obtain ⟨_, hstr⟩ := hκ htext
        cases hstr
      · cases hs'
        exact ⟨r, hcopy, hfun r rfl⟩
    · obtain ⟨w, hw, hs⟩ := hm.other hv fun r hr => hf ⟨r, hr⟩
      refine ⟨w, hw, hs.has hκ, ?_⟩
      rintro r rfl
      rcases hs with rfl | ⟨-, hfrozen, -⟩
      · exact absurd ⟨r, rfl⟩ hf
      · cases hfrozen
  · rintro i n' ⟨r, hr, hb⟩
    obtain ⟨s, hs, hcopy⟩ := hm.function hr
    exact ⟨s, hs, r, hcopy, hb⟩

/-- **A checked program is checked after merging.** -/
theorem Merging.checked (hm : Merging p k q k' places copy) (hc : Checked p.constants k.routines B) :
    Checked q.constants k'.routines (Copied copy B) where
  free := by
    rintro n s ⟨r, hcopy, hb⟩
    have hmoved : k'.routines.getD s {} = _ := hm.routine hcopy
    rw [hmoved]
    exact hc.free hb
  code := by
    rintro n s ⟨r, hcopy, hb⟩
    obtain ⟨f, hasm, ht⟩ := hc.code hb
    have hren := hm.renumbered hcopy
    have hlocals : (k'.routines.getD s {}).locals = (k.routines.getD r {}).locals := hren.alike.locals
    exact ⟨f.renumber (placeOf places), hren.code hasm, ht.renumber (hm.maps (Nat.le_of_eq hlocals.symm))⟩

theorem Merging.loaded (hm : Merging p k q k' places copy) (hc : Compiled O p k)
    (hroutines : ∀ r, O.routines ≤ r → r < k'.routines.size → h.routineAt r = k'.routineAt r)
    (hconst : ∀ {i : Nat} {v : Value}, p.constants[i]? = some v → (∀ r, v ≠ .function r) → ¬ContainsFunction h v)
    (hglobals : ∀ v ∈ globals, ¬ContainsFunction h v) : Loaded (Copied copy (Made O k)) q globals h := by
  have hroutine {r s : Ref} (hcopy : copy r s) (hb : O.routines ≤ r ∧ r < k.routines.size) :
      h.routineAt s = k'.routineAt s := by
    obtain ⟨hle, hlt⟩ := hm.fresh hcopy
    exact hroutines s (Nat.le_trans hb.1 (Nat.le_trans (Nat.le_of_lt hb.2) hle)) hlt
  refine ⟨(hm.checked hc.checked).congr ?_, ?_, ⟨p.main, hm.main, hc.main⟩, ?_, hglobals⟩
  · rintro n s ⟨r, hcopy, hb⟩
    exact hroutine hcopy ⟨hb.new, hb.lt⟩
  · intro j w hw hf
    obtain ⟨i, hi⟩ := getElem?_of_mem (hm.origin hw hf)
    exact hconst hi hf
  · rw [hroutine hm.main ⟨hc.main.new, hc.main.lt⟩, hm.routine hm.main]
    exact hc.locals

/-- A heap that has what the merged program needs has what the program needs. -/
theorem Merging.carries (hm : Merging p k q k' places copy) (hc : Heap.Carries before k' h) :
    Heap.Carries before k h := by
  obtain ⟨extra, rfl⟩ := hm.heap
  refine ⟨fun r hle hlt => ?_, hc.maps⟩
  rw [hc.routines r hle (Nat.lt_of_lt_of_le hlt (by simp))]
  simp only [Heap.routineAt, getD_eq_getD_getElem?, getElem?_append_left hlt]

/-- A compiled program can be merged. -/
theorem Generator.Compiled.merging (hc : Compiled O p k) :
    ∃ places copy, Merging p k (p.merged k).1 (p.merged k).2 places copy := by
  refine merged_merging hc.main.lt ?_ ?_
  · intro r hr
    obtain ⟨i, hi⟩ := getElem?_of_mem hr
    exact Nat.lt_trans (hc.last hi) hc.main.lt
  · intro hmem
    obtain ⟨i, hi⟩ := getElem?_of_mem hmem
    exact Nat.lt_irrefl _ (hc.last hi)

/-! ## Safety -/

/-- **Compiled code never breaks the machine.** Take a program that compiles, as it is or with its constants
merged, and run it with any limits in a heap that has what the compilation made, on global variables and with
modules of the host that contain no functions. No run ends because the code is broken, the height of the
operand stack is a matter of the function and the offset, and every return leaves the stack of its caller as
it was before the call, plus one result. -/
theorem compiled_runs_safely {files : FileSet} {modules : ModuleMap} {body : List Stmt} {g g' : Generator}
    (ht : g.table.Standard) (hcompile : compile files modules body g = (.ok p, g'))
    (hq : (q, k) = (p, g'.heap) ∨ (q, k) = p.merged g'.heap) (hcarries : Heap.Carries g.heap k h)
    (hmodules : modules.FunctionFree h) (hglobals : ∀ v ∈ globals, ¬ContainsFunction h v)
    (limits : Limits.Run) {host : String → List Value → Action Value} (hhost : UniformHost host) :
    (∀ fuel, (q.run limits host globals h fuel).outcome.Sound) ∧
      StackSafe { constants := q.constants, limits, host } (Machine.start q.main limits globals h) := by
  have hc := compile_sound ht hcompile
  have hconst (hmaps : ∀ r, g.heap.maps.size ≤ r → r < g'.heap.maps.size → h.mapAt r = g'.heap.mapAt r)
      {i : Nat} {v : Value} (hv : p.constants[i]? = some v) (hf : ∀ r, v ≠ .function r) :
      ¬ContainsFunction h v := (hc.constants hv).functionFree hf hmaps hmodules
  rcases hq with heq | heq
  · cases heq
    exact (hc.loaded hcarries.routines (hconst hcarries.maps) hglobals).safe hhost
  · obtain ⟨places, copy, hm⟩ := hc.merging
    rw [← heq] at hm
    exact (hm.loaded hc hcarries.routines (hconst (hm.carries hcarries).maps) hglobals).safe hhost

theorem ok_of_isOk {x : Except ε α × β} (h : x.1.isOk) : ∃ a b, x = (.ok a, b) := by
  obtain ⟨r, b⟩ := x
  cases r with
  | ok a => exact ⟨a, b, rfl⟩
  | error e => cases h

/-- A host whose functions give back their first argument. -/
def echoHost : String → List Value → Action Value := fun _ args => pure (args.headD .undefined)

theorem echoHost_uniform : UniformHost echoHost := by
  intro W name args args' hargs
  refine Action.Related.pure ?_
  cases hargs with
  | nil => exact Related.undefined
  | cons hv _ => exact hv

/-- A module of the host with a number and a text. -/
def limitsModule : ModuleMap :=
  Dict.empty.insert "limits" (.builtin ((Dict.empty.insert "step" (.int 2)).insert "unit" (.str "px")))

/-- `limits := import("limits")`, then a function that uses it, called in a loop. -/
def scalingBody : List Stmt := [ .assign .none [.ident .none "limits"] .define [.load .none "limits"],
  .assign .none [.ident .none "f"] .define [.func .none [⟨.none, "a"⟩] false [
    .ret .none (some (.binary .none (.arith .add) (.ident .none "a")
      (.selector .none (.ident .none "limits") "step")))]],
  .loop .none (some (.assign .none [.ident .none "i"] .define [.int .none 0]))
    (some (.binary .none (.order .less) (.ident .none "i") (.int .none 10))) none [
    .assign .none [.ident .none "i"] .assign [.call .none (.ident .none "f") [.ident .none "i"] false]]]

/-- The merged program runs safely right after it has been compiled. -/
theorem scaling_runs_safely : ∃ p g', compile {} limitsModule scalingBody {} = (.ok p, g') ∧
    (∀ fuel, ((p.merged g'.heap).1.run {} echoHost #[.int 7] (p.merged g'.heap).2 fuel).outcome.Sound) ∧
    StackSafe { constants := (p.merged g'.heap).1.constants, limits := {}, host := echoHost }
      (Machine.start (p.merged g'.heap).1.main {} #[.int 7] (p.merged g'.heap).2) := by
  obtain ⟨p, g', hcompile⟩ := ok_of_isOk (show (compile {} limitsModule scalingBody {}).1.isOk by decide +kernel)
  refine ⟨p, g', hcompile, ?_⟩
  refine compiled_runs_safely SymbolTable.withBuiltins_standard hcompile (.inr rfl)
    ⟨fun _ _ _ => rfl, fun _ _ _ => rfl⟩ ?_ ?_ {} echoHost_uniform
  · intro name attributes hname v hv hc
    have hget : limitsModule.get? name = some (.builtin attributes) := hname
    rw [limitsModule, Dict.get?_insert] at hget
    split at hget
    · cases hget
      simp [Dict.values, Dict.insert, Dict.insertEntry, Dict.empty] at hv
      rcases hv with rfl | rfl <;> cases hc
    · cases hget
  · intro v hv hc
    simp only [mem_singleton] at hv
    subst hv
    cases hc

end Scripting
