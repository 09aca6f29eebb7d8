import Mathlib.Data.List.Nodup
import Scripting.Proofs.Script.Isolation
import Scripting.Proofs.Value.Duplicate
/-!
# `Proofs.Script.Protection` — protected runs and plain runs

A protected run computes what a plain run would have computed, as long as copying loses nothing that a program
can observe (`Instance.Copyable`): no frozen container is thawed, no object is duplicated twice, and none is
duplicated that the copies also share. Then originals and copies are paired one to one, and the two runs go the
same way (`Instance.runProtected_computes`).
-/

namespace Scripting

open Duplicate Renaming List

variable {h k : Heap}

theorem Value.leads_of_mem_duplicated : ∀ (depth : Nat) {v : Value} {t : Table} {r : Ref},
    (t, r) ∈ v.duplicated h depth → ∃ u, Value.Leads h v u ∧ Value.Refers h u t r := by
  intro depth
  induction depth with
  | zero => exact fun hmem => absurd hmem not_mem_nil
  | succ depth ih =>
    intro v t r hmem
    cases v with
    | bytes r' =>
      obtain ⟨rfl, rfl⟩ := Prod.mk.inj (mem_singleton.mp hmem)
      exact ⟨_, .refl, .bytes r⟩
    | array kind r' =>
      rcases mem_append.mp hmem with hmem | hmem
      · obtain ⟨u, hu, hmem⟩ := mem_flatMap.mp hmem
        obtain ⟨w, hl, hw⟩ := ih hmem
        exact ⟨w, .head (.item hu) hl, hw⟩
      · obtain ⟨rfl, rfl⟩ := Prod.mk.inj (mem_singleton.mp hmem)
        exact ⟨_, .refl, .array kind r⟩
    | map kind r' =>
      rcases mem_append.mp hmem with hmem | hmem
      · obtain ⟨u, hu, hmem⟩ := mem_flatMap.mp hmem
        obtain ⟨e, he, rfl⟩ := mem_map.mp hu
        obtain ⟨w, hl, hw⟩ := ih hmem
        exact ⟨w, .head (.entry he) hl, hw⟩
      · obtain ⟨rfl, rfl⟩ := Prod.mk.inj (mem_singleton.mp hmem)
        exact ⟨_, .refl, .map kind r⟩
    | error r' =>
      rcases mem_append.mp hmem with hmem | hmem
      · obtain ⟨w, hl, hw⟩ := ih hmem
        exact ⟨w, .head (.payload r') hl, hw⟩
      · obtain ⟨rfl, rfl⟩ := Prod.mk.inj (mem_singleton.mp hmem)
        exact ⟨_, .refl, .error r⟩
    | iterator r' =>
      obtain ⟨rfl, rfl⟩ := Prod.mk.inj (mem_singleton.mp hmem)
      exact ⟨_, .refl, .iterator r⟩
    | _ => exact absurd hmem not_mem_nil

/-! ## Pairing originals with their copies -/

/-- What `S` leads to keeps its place, and these originals have these copies. -/
def Renaming.duplicating (h k : Heap) (S : Value → Prop) (ds : List Duplicate) : Renaming :=
  .ofPairs (fun t r s => (s = r ∧ Reached h S t r) ∨ ⟨t, r, s⟩ ∈ ds) (fun _ _ => True) h k

section

variable {S : Value → Prop} {ds : List Duplicate}

theorem Renaming.duplicating_keeps (h k : Heap) (S : Value → Prop) (ds : List Duplicate) :
    (duplicating h k S ds).Keeps h S where
  refs hr := .inl (.inl ⟨rfl, hr⟩)
  changeable _ := .inr trivial
  body _ _ := rfl
  skips := rfl

theorem Renaming.duplicating_paired (h k : Heap) (S : Value → Prop) (ds : List Duplicate) :
    Paired (duplicating h k S ds) ds :=
  fun _ hd => ⟨.inl (.inr hd), .inr trivial⟩

/-- **Originals and copies are paired one to one** if nothing is duplicated twice, and nothing that also keeps
its place. -/
theorem Renaming.duplicating_joins (covers : ∀ x, S x → h.Covers x) (made : Duplicated h S A R h a k ds)
    (hA : A (duplicating h k S ds)) (inside : ∀ d ∈ ds, d.original < h.size d.table)
    (once : ((ds.map fun d => (d.table, d.original)).filter (·.1 ≠ .bytes)).Nodup)
    (apart : ∀ d ∈ ds, d.table ≠ .bytes → ¬Reached h S d.table d.original) :
    (duplicating h k S ds).Joins h k := by
  have hcopy (d d' : Duplicate) (hd : d ∈ ds) (hd' : d' ∈ ds) (ht : d.table = d'.table) (hs : d.copy = d'.copy) :
      d = d' :=
    inj_on_of_nodup_map made.distinct hd hd' (Prod.ext ht hs)
  have horiginal (d d' : Duplicate) (hd : d ∈ ds) (hd' : d' ∈ ds) (hbytes : d.table ≠ .bytes)
      (ht : d.table = d'.table) (hr : d.original = d'.original) : d = d' := by
    rw [filter_map] at once
    refine inj_on_of_nodup_map once ?_ ?_ (Prod.ext ht hr)
    · exact mem_filter.mpr ⟨hd, by simpa using hbytes⟩
    · exact mem_filter.mpr ⟨hd', by simpa using ht ▸ hbytes⟩
  refine ofPairs_joins made.grown.later.hosts ?_ ?_ ?_
  · rintro t r s (⟨rfl, hr⟩ | hd)
    · exact ⟨hr.inside covers, Nat.lt_of_lt_of_le (hr.inside covers) (made.grown.later.size t)⟩
    · exact ⟨inside _ hd, (made.new _ hd).2⟩
  · intro t r s r' s' ht hr hr'
    rcases hr with ⟨rfl, hr⟩ | hd <;> rcases hr' with ⟨rfl, hr'⟩ | hd'
    · exact Iff.rfl
    · -- what keeps its place is not duplicated, and a copy is new
      refine iff_of_false (fun he => apart _ hd' ht (he ▸ hr)) fun he => ?_
      exact absurd (hr.inside covers) (Nat.not_lt.mpr (he ▸ (made.new _ hd').1))
    · refine iff_of_false (fun he => apart _ hd ht (he ▸ hr')) fun he => ?_
      exact absurd (hr'.inside covers) (Nat.not_lt.mpr (he ▸ (made.new _ hd).1))
    · constructor
      · rintro rfl
        exact congrArg Duplicate.copy (horiginal _ _ hd hd' ht rfl rfl)
      · rintro rfl
        exact congrArg Duplicate.original (hcopy _ _ hd hd' rfl rfl)
  · have hk := duplicating_keeps h k S ds
    rintro t r s (⟨rfl, hr⟩ | hd)
    · rw [made.grown.object (hr.inside covers)]
      exact hk.object hr
    · exact (made.alike _ hk (duplicating_paired h k S ds) hA).2 _ hd

end

/-! ## Runs on copies -/

namespace Instance

/-- The objects that a copy of the instance duplicates. -/
def duplicated (i : Instance) (h : Heap) : List (Table × Ref) :=
  i.globals.toList.flatMap (Value.duplicated h Limits.nesting)

/-- **An instance whose copies are like it** in all that a program can observe. -/
structure Copyable (i : Instance) (h : Heap) : Prop where
  covers : ∀ x, i.Begins x → h.Covers x
  /-- No frozen container becomes changeable. -/
  frozen : ∀ v ∈ i.globals, ¬v.Thaws h Limits.nesting
  /-- Nothing that can be told apart from its copy is duplicated twice. -/
  once : ((i.duplicated h).filter (·.1 ≠ .bytes)).Nodup
  /-- Nothing of the kind is duplicated that the copies share as well. -/
  apart : ∀ p ∈ i.duplicated h, p.1 ≠ .bytes → ¬Reached h (i.Common h) p.1 p.2

/-- **A protected run computes what a plain run computes**: the outcome, error trace included, and the
variables. -/
theorem runProtected_computes {i : Instance} {heap : Heap} {host : String → List Value → Action Value}
    (hhost : ParametricHost host) (hcopy : i.Copyable heap) (fuel : Nat) :
    let plain := i.run host heap fuel
    let guarded := i.runProtected host heap fuel
    guarded.1 = plain.1 ∧ SameVariables plain.2.1 plain.2.2 guarded.2.1 guarded.2.2 := by
  intro plain guarded
  obtain ⟨globals, k, hk, hguarded⟩ := runProtected_eq i host heap fuel
  have hmakes : Duplicates heap (i.Common heap) (i.duplicated heap) (fun _ => True)
      (fun ρ xs => RenamedAll ρ i.globals.toList xs) (i.globals.toList.mapM Value.copy) := by
    refine Duplicates.mapM (fun v hv => copyTo_makes _ ?_ ?_ ?_) _
    · exact hcopy.covers v (.inr (Array.mem_toList_iff.mp hv))
    · exact fun x hx => .self (.inr ⟨v, Array.mem_toList_iff.mp hv, hx⟩)
    · exact hcopy.frozen v (Array.mem_toList_iff.mp hv)
  obtain ⟨ws, k', ds, hrun, horiginals, hmade⟩ := hmakes heap (.refl heap)
  obtain ⟨rfl, rfl⟩ : ws.toArray = globals ∧ k' = k := by
    rw [array_mapM] at hk
    have hbind : (i.globals.toList.mapM Value.copy >>= fun ys => pure ys.toArray) heap = .ok ws.toArray k' := by
      show EStateM.bind (i.globals.toList.mapM Value.copy) _ heap = _
      rw [EStateM.bind, hrun]
      rfl
    rw [hbind] at hk
    exact EStateM.Result.ok.inj hk
  have hcovers : ∀ x, i.Common heap x → heap.Covers x := by
    intro x hx u hu
    obtain ⟨y, hy, hl⟩ := hx.meets
    exact hcopy.covers y hy (hl.trans hu)
  have hkeeps := duplicating_keeps heap k' (i.Common heap) ds
  have hpaired := duplicating_paired heap k' (i.Common heap) ds
  have hmem {d : Duplicate} (hd : d ∈ ds) : (d.table, d.original) ∈ i.duplicated heap :=
    horiginals ▸ mem_map_of_mem hd
  have hj : (duplicating heap k' (i.Common heap) ds).Joins heap k' := by
    refine duplicating_joins hcovers hmade trivial (fun d hd => ?_) (horiginals ▸ hcopy.once)
      fun d hd => hcopy.apart _ (hmem hd)
    obtain ⟨v, hv, hd⟩ := mem_flatMap.mp (hmem hd)
    obtain ⟨u, hl, hu⟩ := Value.leads_of_mem_duplicated _ hd
    exact hcopy.covers v (.inr (Array.mem_toList_iff.mp hv)) hl hu
  have hfits : (duplicating heap k' (i.Common heap) ds).Fits i.program :=
    ⟨Iff.rfl, hmade.grown.later.routines, fun v hv => hkeeps.value (.self (.inl hv))⟩
  obtain ⟨houtcome, -, hsame⟩ := run_alike hfits hhost hj (hmade.alike _ hkeeps hpaired trivial).1 fuel
  simp only [guarded, hguarded]
  exact ⟨houtcome, hsame⟩

end Instance

/-- A protected run of the tally counts as a plain one does. -/
theorem tallying_computes : ∃ i heap,
    Instance.compiled? ["a"] tallyingBody #[.array .mutable 0] tallyHeap = some (i, heap) ∧ i.Copyable heap ∧
      let plain := i.run echoHost heap 100
      let guarded := i.runProtected echoHost heap 100
      guarded.1 = plain.1 ∧ Instance.SameVariables plain.2.1 plain.2.2 guarded.2.1 guarded.2.2 := by
  obtain ⟨i, heap, hi, hglobals, houter, hinner, hcovers, hcommon⟩ := tallying_compiled
  obtain ⟨depth, hdepth⟩ : ∃ depth, Limits.nesting = depth + 3 := ⟨253, by simp [Limits.nesting]⟩
  have hcopyable : i.Copyable heap := by
    refine ⟨hcovers, ?_, ?_, fun p _ _ => not_reached_of_numbers hcommon p.1 p.2⟩
    · intro v hv hthaws
      obtain rfl : v = .array .mutable 0 := by simpa [hglobals] using hv
      cases hthaws with
      | item hmem hthaws =>
        rw [houter] at hmem
        obtain rfl := mem_singleton.mp hmem
        cases hthaws with
        | item hmem hthaws =>
          rw [hinner] at hmem
          obtain rfl := mem_singleton.mp hmem
          cases hthaws
    · have hobjects : i.duplicated heap = [(.arrays, 1), (.arrays, 0)] := by
        simp [Instance.duplicated, hglobals, hdepth, Value.duplicated, houter, hinner]
      rw [hobjects]
      decide
  exact ⟨i, heap, hi, hcopyable, Instance.runProtected_computes echoHost_parametric hcopyable 100⟩

/-- `k = type_name(a)` -/
def namingBody : List Stmt := [
  .assign .none [.ident .none "k"] .assign [.call .none (.ident .none "type_name") [.ident .none "a"] false]]

/-- **A copy of a frozen list is not frozen**, and a program can tell. -/
theorem naming_tells_copies : ∃ i heap,
    Instance.compiled? ["a", "k"] namingBody #[.array .frozen 0, .undefined] { arrays := #[#[.int 1]] } =
        some (i, heap) ∧
      (i.run echoHost heap 100).2.1.get? "k" = some (.str "immutable-array") ∧
      (i.runProtected echoHost heap 100).2.1.get? "k" = some (.str "array") := by
  have hkinds : (Instance.compiled? ["a", "k"] namingBody #[.array .frozen 0, .undefined]
      { arrays := #[#[.int 1]] }).map (fun p =>
        ((p.1.run echoHost p.2 100).2.1.get? "k", (p.1.runProtected echoHost p.2 100).2.1.get? "k")) =
      some (some (.str "immutable-array"), some (.str "array")) := by
    decide +kernel
  obtain ⟨⟨i, heap⟩, hi, hkinds⟩ := Option.map_eq_some_iff.mp hkinds
  obtain ⟨hplain, hguarded⟩ := Prod.mk.inj hkinds
  exact ⟨i, heap, hi, hplain, hguarded⟩

end Scripting
