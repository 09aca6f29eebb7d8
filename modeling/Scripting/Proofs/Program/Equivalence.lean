import Scripting.Proofs.Program.Safety
/-!
# `Proofs.Program.Equivalence` — merging constants does not change runs

A program and its merged version run in lock step: after any number of instructions both have done the same
(`merged_runs_alike`). Their functions differ in the numbers of constants and in nothing else, so values that
correspond are equal in one run exactly if they are in the other.

Frozen maps are the exception: those of two modules may be merged although a program can tell them apart. A
program has such a constant only if it imports a module of the host.
-/

namespace Scripting

open Code Machine Generator

variable {O : Origin} {p q : Program} {h k k' : Heap} {globals : Array Value} {places : Array Nat}
  {copy : Ref → Ref → Prop} {μ : Mirror} {v : Value} {W : World} {host : String → List Value → Action Value}

/-- **What two runs have come to**, of a program and of the version with its constants at `places`: the same
outcome after the same number of steps, and objects and global variables that correspond. Functions that
correspond have the same code up to the numbers of constants. -/
structure Machine.Result.Matches (places : Array Nat) (a b : Machine.Result) : Prop where
  outcome : b.outcome = a.outcome
  steps : b.steps = a.steps
  world : ∃ W : World, Heap.Related W a.heap b.heap ∧ RelatedAll W a.globals.toList b.globals.toList ∧
    (∀ {n r s}, W.body n r s → b.heap.routineAt s = (a.heap.routineAt r).moved places) ∧
    ∀ {v v' w w'}, Related W v v' → Related W w w' → v'.equals b.heap w' = v.equals a.heap w

/-- Each function corresponds to its copy. -/
def Merging.pairing (hm : Merging p k q k' places copy) (O : Origin) : Pairing where
  body n r s := copy r s ∧ Made O k n r
  unique h h' := hm.unique h.1 h'.1

/-- Twin runs of a program and its merged version have come to matching results. -/
theorem Merging.matches (hm : Merging p k q k' places copy) {x y : Outcome × Machine}
    (hle : (World.onHeap h (hm.pairing O)).Le W) (ho : y.1 = x.1) (ht : Twins W μ x.2 y.2)
    (hroutine : ∀ {r s}, copy r s → (∃ n, Made O k n r) → h.routineAt s = (h.routineAt r).moved places) :
    Machine.Result.Matches places ⟨x.1, x.2.globals, x.2.steps, x.2.heap⟩
      ⟨y.1, y.2.globals, y.2.steps, y.2.heap⟩ := by
  refine ⟨ho, ht.steps, W, ht.heap, ht.globals, ?_, fun hv hw => Related.equals ht.heap hv hw⟩
  obtain ⟨closures, rfl, -⟩ := hle
  rintro n r s ⟨hcopy, hb⟩
  have hleft := ht.heap.left
  have hright := ht.heap.right
  simp only [Heap.routineAt] at hroutine ⊢
  rw [hleft, hright]
  exact hroutine hcopy ⟨_, hb⟩

/-- A program that imports no module of the host is linked with its merged version. -/
theorem Merging.linked (hm : Merging p k q k' places copy) (hl : Loaded (Made O k) p globals h)
    (hplain : ∀ {i : Nat} {v : Value}, p.constants[i]? = some v → v.isFrozenContainer = false)
    (hroutine : ∀ {r s}, copy r s → (∃ n, Made O k n r) → Routine.Renumbered (placeOf places) (h.routineAt r)
      (h.routineAt s))
    (limits : Limits.Run) (hhost : UniformHost host) :
    ∃ shape, Linked (World.onHeap h (hm.pairing O)) (placeOf places) { constants := p.constants, limits, host }
      { constants := q.constants, limits, host } shape := by
  let env : Env := { constants := p.constants, limits, host }
  have hchecked : Checked env.constants (World.onHeap h (hm.pairing O)).left (Made O k) := hl.checked
  refine hchecked.linked rfl rfl hhost ?_ ?_ ?_
  · rintro n n' r s s' ⟨hcopy, -⟩ ⟨hcopy', -⟩
    exact (hm.unique hcopy hcopy').mp rfl
  · rintro n r s ⟨hcopy, hb⟩
    exact ⟨hb, hroutine hcopy ⟨n, hb⟩⟩
  · intro i v hv
    by_cases hf : ∃ r, v = .function r
    · obtain ⟨r, rfl⟩ := hf
      obtain ⟨s, hs, hcopy⟩ := hm.function hv
      refine ⟨_, hs, ?_, fun hne => absurd rfl (hne r)⟩
      rintro r' ⟨⟩
      exact ⟨s, rfl, fun n hb => ⟨hcopy, hb⟩⟩
    · have hne : ∀ r, v ≠ .function r := fun r hr => hf ⟨r, hr⟩
      obtain ⟨w, hw, hs⟩ := hm.other hv hne
      rw [hs.eq (hplain hv)] at hw
      exact ⟨v, hw, fun r hr => absurd hr (hne r), fun _ => World.onHeap_self (hl.constants hv hne)⟩

theorem Generator.Allowed.frozen (hv : Allowed O k v) (hf : v.isFrozenContainer = true) :
    ∃ m, v = .map .frozen m := by
  unfold Value.isFrozenContainer at hf
  split at hf
  · exact hv.elim
  · exact ⟨_, rfl⟩
  · cases hf

theorem Generator.Allowed.plain (hv : Allowed O k v) (hplain : v.isFrozenContainer = false)
    (hf : ∀ r, v ≠ .function r) : ¬ContainsFunction h v := by
  intro hc
  cases hc with
  | function r => exact hf r rfl
  | @entry kind m e mem inside =>
    cases kind with
    | mutable => exact hv
    | frozen => cases hplain
  | _ => exact hv

/-- **Merging constants does not change runs.** Take a program that compiles and has no attributes of a module
of the host among its constants. Each constant is found in the merged program at its new place: the same value,
or the function with the numbers of constants replaced. And with any limits and any host, in a heap that has the
functions of both and on global variables that contain no functions, the two programs have come to matching
results after every number of steps. -/
theorem merged_runs_alike {files : FileSet} {modules : ModuleMap} {body : List Stmt} {g g' : Generator}
    (ht : g.table.Standard) (hcompile : compile files modules body g = (.ok p, g'))
    (hplain : ∀ m, .map .frozen m ∉ p.constants) (hcarries : Heap.Carries g.heap (p.merged g'.heap).2 h)
    (hglobals : ∀ v ∈ globals, ¬ContainsFunction h v) :
    ∃ places, (∀ i v, p.constants[i]? = some v → ∃ w, (p.merged g'.heap).1.constants[placeOf places i]? = some w ∧
        (w = v ∨ ∃ r s, v = .function r ∧ w = .function s ∧ h.routineAt s = (h.routineAt r).moved places)) ∧
      ∀ limits host, UniformHost host → ∀ fuel, (p.run limits host globals h fuel).Matches places
        ((p.merged g'.heap).1.run limits host globals h fuel) := by
  have hc := compile_sound ht hcompile
  obtain ⟨places, copy, hm⟩ := hc.merging
  have hfrozen {i : Nat} {v : Value} (hv : p.constants[i]? = some v) : v.isFrozenContainer = false := by
    refine Bool.eq_false_iff.mpr fun hf => ?_
    obtain ⟨m, rfl⟩ := (hc.constants hv).frozen hf
    exact hplain m (Array.mem_of_getElem? hv)
  have hcarries' := hm.carries hcarries
  have hroutine {r s : Ref} (hcopy : copy r s) (hb : ∃ n, Made (g.origin modules) g'.heap n r) :
      h.routineAt s = (h.routineAt r).moved places := by
    obtain ⟨n, hb⟩ := hb
    obtain ⟨hle, hlt⟩ := hm.fresh hcopy
    rw [hcarries'.routines r hb.new hb.lt, ← hm.routine hcopy]
    exact hcarries.routines s (Nat.le_trans hb.new (Nat.le_trans (Nat.le_of_lt hb.lt) hle)) hlt
  have hrenumbered {r s : Ref} (hcopy : copy r s) (hb : ∃ n, Made (g.origin modules) g'.heap n r) :
      Routine.Renumbered (placeOf places) (h.routineAt r) (h.routineAt s) := by
    rw [hroutine hcopy hb]
    exact ⟨⟨rfl, rfl, rfl, rfl⟩, assembled_renumber hm.le⟩
  have hl : Loaded (Made (g.origin modules) g'.heap) p globals h := hc.loaded hcarries'.routines
    (fun hv hf => (hc.constants hv).plain (hfrozen hv) hf) hglobals
  refine ⟨places, fun i v hv => ?_, fun limits host hhost fuel => ?_⟩
  · by_cases hf : ∃ r, v = .function r
    · obtain ⟨r, rfl⟩ := hf
      obtain ⟨s, hs, hcopy⟩ := hm.function hv
      exact ⟨_, hs, .inr ⟨r, s, rfl, rfl, hroutine hcopy (hc.constants hv)⟩⟩
    · obtain ⟨w, hw, hs⟩ := hm.other hv fun r hr => hf ⟨r, hr⟩
      exact ⟨w, hw, .inl (hs.eq (hfrozen hv))⟩
  · obtain ⟨shape, hL⟩ := hm.linked hl hfrozen hrenumbered limits hhost
    have hrun := hL.starts limits globals ⟨hm.main, hc.main⟩ hl.locals h
    have hstart := (World.onHeap h (hm.pairing _)).starts shape limits ⟨hm.main, hc.main⟩ World.onHeap_related
      (World.onHeap_all fun v hv => hglobals v (by simpa using hv))
    obtain ⟨hsame, -, W, hle, htwins⟩ := runFor_lockstep hL p.files fuel (.refl _) hstart hrun
    exact hm.matches hle hsame htwins hroutine

/-- A source module that exports a function. -/
def twiceModule : ModuleMap :=
  Dict.empty.insert "twice" (.source [.exportValue .none (.func .none [⟨.none, "x"⟩] false [
    .ret .none (some (.binary .none (.arith .mul) (.ident .none "x") (.int .none 2)))])])

/-- The module is imported two times, and a closure is made over a variable: `2` is a constant three times. -/
def doublingBody : List Stmt := [ .assign .none [.ident .none "f"] .define [.load .none "twice"],
  .assign .none [.ident .none "g"] .define [.load .none "twice"],
  .assign .none [.ident .none "adder"] .define [.func .none [⟨.none, "n"⟩] false [
    .ret .none (some (.func .none [⟨.none, "x"⟩] false [
      .ret .none (some (.binary .none (.arith .add) (.ident .none "x") (.ident .none "n")))]))]],
  .assign .none [.ident .none "y"] .define [.call .none (.call .none (.ident .none "adder") [.int .none 2] false)
    [.call .none (.ident .none "f") [.int .none 2] false] false],
  .assign .none [.ident .none "same"] .define [.binary .none .equal (.ident .none "f") (.ident .none "g")]]

/-- The merged program runs like the compiled one. -/
theorem doubling_runs_alike : ∃ p g', compile {} twiceModule doublingBody {} = (.ok p, g') ∧ ∃ places,
    (∀ i v, p.constants[i]? = some v → ∃ w, (p.merged g'.heap).1.constants[placeOf places i]? = some w ∧
      (w = v ∨ ∃ r s, v = .function r ∧ w = .function s ∧
        (p.merged g'.heap).2.routineAt s = ((p.merged g'.heap).2.routineAt r).moved places)) ∧
    ∀ limits host, UniformHost host → ∀ fuel, (p.run limits host #[.int 7] (p.merged g'.heap).2 fuel).Matches places
        ((p.merged g'.heap).1.run limits host #[.int 7] (p.merged g'.heap).2 fuel) := by
  have hplain : ((compile {} twiceModule doublingBody {}).1.toOption.map
      fun p => p.constants.all fun v => !v.isFrozenContainer) = some true := by decide +kernel
  obtain ⟨p, g', hcompile⟩ := ok_of_isOk (show (compile {} twiceModule doublingBody {}).1.isOk by decide +kernel)
  rw [hcompile] at hplain
  refine ⟨p, g', hcompile, merged_runs_alike SymbolTable.withBuiltins_standard hcompile ?_
    ⟨fun _ _ _ => rfl, fun _ _ _ => rfl⟩ ?_⟩
  · intro m hm
    have hall := Array.all_eq_true_iff_forall_mem.mp (Option.some.inj hplain) _ hm
    cases hall
  · intro v hv hc
    simp only [Array.mem_singleton] at hv
    subst hv
    cases hc

end Scripting
