import Scripting.Proofs.Program.Linking
/-!
# `Proofs.Program.Merge` — what merging constants does

Merging keeps the first of all constants that belong together. Each constant is found again at a place no
later than its own (`Pool.Holds`), each function is copied once with its constants in their new places
(`Copies`), and nothing else changes. `Merging` says all of this about a program and its merged version,
and `merged_merging` proves it.
-/

namespace Scripting

open Code Fragment Program List

/-! ## The pool -/

/-- The constant that is kept for another one: the same, or an equal frozen container. -/
def StandsFor (h : Heap) (v w : Value) : Prop :=
  w = v ∨ v.isFrozenContainer = true ∧ w.isFrozenContainer = true ∧ w.equals h v = true

/-- **What a pool holds** after the constants `vs` have found their places. -/
structure Pool.Holds (h : Heap) (vs : List Value) (pool : Pool) (places : Array Nat) : Prop where
  size : places.size = vs.length
  le : pool.kept.size ≤ vs.length
  place : ∀ {k : Nat} {v : Value}, vs[k]? = some v → ∃ j w, places[k]? = some j ∧ j ≤ k ∧
    pool.kept[j]? = some w ∧ StandsFor h v w
  origin : ∀ w ∈ pool.kept, w ∈ vs
  found : ∀ {v : Value} {j : Nat}, pool.places[v]? = some j → pool.kept[j]? = some v
  once : ∀ {v : Value} {j : Nat}, v.isPlainConstant = true → pool.kept[j]? = some v → pool.places[v]? = some j

namespace Pool

variable {h : Heap} {vs : List Value} {v : Value} {pool : Pool} {places : Array Nat}

theorem Holds.empty (h : Heap) : Holds h [] {} #[] where
  size := rfl
  le := Nat.le_refl _
  place hk := by cases hk
  origin _ hw := by simp at hw
  found hj := by simp at hj
  once _ hj := by simp at hj

theorem find?_stands (hold : Holds h vs pool places) (hf : pool.find? h v = some j) :
    ∃ w, pool.kept[j]? = some w ∧ StandsFor h v w := by
  unfold find? at hf
  split at hf
  · exact ⟨v, hold.found hf, .inl rfl⟩
  · split at hf
    · rename_i hfrozen
      obtain ⟨hlt, hw, -⟩ := Array.findIdx?_eq_some_iff_getElem.mp hf
      rw [Bool.and_eq_true] at hw
      exact ⟨pool.kept[j], Array.getElem?_eq_getElem hlt, .inr ⟨hfrozen, hw.1, hw.2⟩⟩
    · cases hf

theorem getElem?_snoc (hk : (xs ++ [x])[k]? = some y) : xs[k]? = some y ∨ k = xs.length ∧ y = x := by
  rw [getElem?_append] at hk
  split at hk
  · exact .inl hk
  · rw [getElem?_singleton] at hk
    split at hk
    · cases hk
      exact .inr ⟨by omega, rfl⟩
    · cases hk

theorem getElem?_push_of_some {xs : Array α} {k : Nat} (hk : xs[k]? = some y) : (xs.push x)[k]? = some y := by
  have hlt := (Array.getElem?_eq_some_iff.mp hk).1
  rw [Array.getElem?_push, if_neg (Nat.ne_of_lt hlt)]
  exact hk

theorem Holds.old {j : Nat} (hold : Holds h vs pool places) (hf : pool.find? h v = some j) :
    Holds h (vs ++ [v]) pool (places.push j) where
  size := by simp [hold.size]
  le := by simpa using Nat.le_succ_of_le hold.le
  place := by
    intro k u hk
    rcases getElem?_snoc hk with hk | ⟨rfl, rfl⟩
    · obtain ⟨i, w, hi, hle, hw, hs⟩ := hold.place hk
      exact ⟨i, w, getElem?_push_of_some hi, hle, hw, hs⟩
    · obtain ⟨w, hw, hs⟩ := find?_stands hold hf
      have hlt := (Array.getElem?_eq_some_iff.mp hw).1
      exact ⟨j, w, by rw [← hold.size]; simp, Nat.le_of_lt (Nat.lt_of_lt_of_le hlt hold.le), hw, hs⟩
  origin w hw := mem_append_left _ (hold.origin w hw)
  found := hold.found
  once := hold.once

theorem Holds.new (hold : Holds h vs pool places) (hf : pool.find? h v = none) :
    Holds h (vs ++ [v]) (pool.push v) (places.push pool.kept.size) where
  size := by simp [hold.size]
  le := by simpa [push] using hold.le
  place := by
    intro k u hk
    rcases getElem?_snoc hk with hk | ⟨rfl, rfl⟩
    · obtain ⟨i, w, hi, hle, hw, hs⟩ := hold.place hk
      exact ⟨i, w, getElem?_push_of_some hi, hle, getElem?_push_of_some hw, hs⟩
    · exact ⟨pool.kept.size, u, by rw [← hold.size]; simp, hold.le, by simp [push], .inl rfl⟩
  origin w hw := by
    rcases Array.mem_push.mp hw with hw | rfl
    · exact mem_append_left _ (hold.origin w hw)
    · simp
  found := by
    intro u j hj
    unfold push at hj ⊢
    split at hj
    · rw [Std.HashMap.getElem?_insert] at hj
      split at hj
      · rename_i heq
        cases hj
        rw [eq_of_beq heq]
        simp
      · exact getElem?_push_of_some (hold.found hj)
    · exact getElem?_push_of_some (hold.found hj)
  once := by
    intro u j hplain hj
    unfold push at hj ⊢
    dsimp only at hj ⊢
    rw [Array.getElem?_push] at hj
    split at hj
    · cases hj
      rename_i heq
      rw [if_pos hplain, heq]
      simp
    · have hold' := hold.once hplain hj
      split
      · rename_i hv
        -- the new constant was not among the kept ones
        have hne : (v == u) = false := by
          rw [beq_eq_false_iff_ne]
          rintro rfl
          simp only [find?, hv, hold'] at hf
          cases hf
        rw [Std.HashMap.getElem?_insert, hne]
        exact hold'
      · exact hold'

/-- **All constants find their places.** -/
theorem place_holds : ∀ (rest : List Value) {vs : List Value} {pool : Pool} {places : Array Nat},
    Holds h vs pool places → Holds h (vs ++ rest) (place h rest pool places).2 (place h rest pool places).1
  | [], vs, pool, places, hold => by simpa [place] using hold
  | v :: rest, vs, pool, places, hold => by
    unfold place
    split
    · rename_i j hf
      simpa using place_holds rest (hold.old hf)
    · rename_i hf
      simpa using place_holds rest (hold.new hf)

end Pool

/-! ## Copies of functions -/

/-- The routine with its constants in their new places. -/
def Routine.moved (places : Array Nat) (f : Routine) : Routine := { f with code := Code.renumber places f.code }

/-- **What copying the functions among `vs` does.** The copies are new routines, one for each function, and
all other values stay. -/
structure Copies (places : Array Nat) (h : Heap) (vs : List Value) (done : Array Value) (k : Heap) : Prop where
  size : done.size = vs.length
  heap : ∃ extra, k = { h with routines := h.routines ++ extra }
  function : ∀ {i : Nat} {r : Ref}, vs[i]? = some (.function r) → ∃ s, done[i]? = some (.function s) ∧
    h.routines.size ≤ s ∧ s < k.routines.size ∧ k.routineAt s = (h.routineAt r).moved places
  other : ∀ {i : Nat} {v : Value}, vs[i]? = some v → (∀ r, v ≠ .function r) → done[i]? = some v
  injective : ∀ {i j : Nat} {s : Ref}, done[i]? = some (.function s) → done[j]? = some (.function s) → i = j

namespace Copies

variable {places : Array Nat} {h k : Heap} {vs : List Value} {done : Array Value}

theorem empty (places : Array Nat) (h : Heap) : Copies places h [] #[] h where
  size := rfl
  heap := ⟨#[], by simp⟩
  function hi := by cases hi
  other hi := by cases hi
  injective hi := by simp at hi

theorem lt_size (hc : Copies places h vs done k) {i : Nat} (hs : done[i]? = some (.function s)) :
    s < k.routines.size := by
  have hlt : i < vs.length := by
    rw [← hc.size]
    exact (Array.getElem?_eq_some_iff.mp hs).1
  have hv : vs[i]? = some vs[i] := getElem?_eq_getElem hlt
  by_cases hf : ∃ r, vs[i] = .function r
  · obtain ⟨r, hr⟩ := hf
    rw [hr] at hv
    obtain ⟨s', hs', -, hlt', -⟩ := hc.function hv
    rw [hs] at hs'
    cases hs'
    exact hlt'
  · have := hc.other hv fun r hr => hf ⟨r, hr⟩
    rw [hs] at this
    exact absurd (Option.some.inj this).symm fun hr => hf ⟨s, hr⟩

theorem copy {r : Ref} (hc : Copies places h vs done k) (hr : r < h.routines.size) :
    Copies places h (vs ++ [.function r]) (done.push (.function (renumbered places k r).1))
      (renumbered places k r).2 := by
  have hfresh : (renumbered places k r).1 = k.routines.size := rfl
  obtain ⟨extra, hk⟩ := hc.heap
  have hold : k.routineAt r = h.routineAt r := by
    simp only [hk, Heap.routineAt, Array.getD_eq_getD_getElem?, Array.getElem?_append_left hr]
  have hat (s : Ref) : (renumbered places k r).2.routineAt s =
      if s = k.routines.size then (h.routineAt r).moved places else k.routineAt s := by
    rw [renumbered, Generator.routineAt_newFunction, hold]
    rfl
  have hsize : (renumbered places k r).2.routines.size = k.routines.size + 1 := by
    simp [renumbered, Heap.newFunction]
  refine ⟨by simp [hc.size], ⟨extra.push ((h.routineAt r).moved places), ?_⟩, ?_, ?_, ?_⟩
  · simp only [renumbered, Heap.newFunction, hold]
    rw [hk]
    simp [Routine.moved]
  · intro i r' hi
    rcases Pool.getElem?_snoc hi with hi | ⟨rfl, heq⟩
    · obtain ⟨s, hs, hle, hlt, hat'⟩ := hc.function hi
      refine ⟨s, Pool.getElem?_push_of_some hs, hle, hsize ▸ Nat.lt_succ_of_lt hlt, ?_⟩
      rw [hat, if_neg (Nat.ne_of_lt hlt)]
      exact hat'
    · cases heq
      refine ⟨k.routines.size, ?_, ?_, hsize ▸ Nat.lt_succ_self _, ?_⟩
      · rw [← hc.size, hfresh]
        simp
      · simp [hk]
      · rw [hat, if_pos rfl]
  · intro i v hi hv
    rcases Pool.getElem?_snoc hi with hi | ⟨rfl, rfl⟩
    · exact Pool.getElem?_push_of_some (hc.other hi hv)
    · exact absurd rfl (hv r)
  · intro i j s hi hj
    rw [Array.getElem?_push] at hi hj
    split at hi
    · split at hj
      · omega
      · cases hi
        exact absurd (hc.lt_size hj) (Nat.lt_irrefl _)
    · split at hj
      · cases hj
        exact absurd (hc.lt_size hi) (Nat.lt_irrefl _)
      · exact hc.injective hi hj

theorem keep {v : Value} (hc : Copies places h vs done k) (hv : ∀ r, v ≠ .function r) :
    Copies places h (vs ++ [v]) (done.push v) k := by
  refine ⟨by simp [hc.size], hc.heap, ?_, ?_, ?_⟩
  · intro i r hi
    rcases Pool.getElem?_snoc hi with hi | ⟨rfl, heq⟩
    · obtain ⟨s, hs, hrest⟩ := hc.function hi
      exact ⟨s, Pool.getElem?_push_of_some hs, hrest⟩
    · exact absurd heq.symm (hv r)
  · intro i u hi hu
    rcases Pool.getElem?_snoc hi with hi | ⟨rfl, rfl⟩
    · exact Pool.getElem?_push_of_some (hc.other hi hu)
    · rw [← hc.size]
      simp
  · intro i j s hi hj
    rw [Array.getElem?_push] at hi hj
    split at hi
    · cases hi
      exact absurd rfl (hv s)
    · split at hj
      · cases hj
        exact absurd rfl (hv s)
      · exact hc.injective hi hj

/-- **All functions are copied.** -/
theorem renumberAll (places : Array Nat) : ∀ (rest : List Value) {vs : List Value} {done : Array Value}
    {k : Heap}, Copies places h vs done k → (∀ r, .function r ∈ rest → r < h.routines.size) →
      Copies places h (vs ++ rest) (renumberAll places rest done k).1
        (renumberAll places rest done k).2
  | [], vs, done, k, hc, _ => by simpa [Program.renumberAll] using hc
  | v :: rest, vs, done, k, hc, hlt => by
    have hrest : ∀ r, .function r ∈ rest → r < h.routines.size := fun r hr => hlt r (mem_cons_of_mem _ hr)
    unfold Program.renumberAll
    split
    · cases ‹_ :: _ = _›
    · rename_i r vs' heq
      cases heq
      simpa using renumberAll places rest (hc.copy (hlt r (mem_cons_self ..))) hrest
    · rename_i v' vs' hne heq
      cases heq
      simpa using renumberAll places rest (hc.keep fun r hr => hne r hr) hrest

/-- A function and its copy: they stand in the same place. -/
def Pair (vs : List Value) (done : Array Value) (r s : Ref) : Prop :=
  ∃ i : Nat, vs[i]? = some (.function r) ∧ done[i]? = some (.function s)

theorem pair_routine (hc : Copies places h vs done k) (hp : Pair vs done r s) :
    h.routines.size ≤ s ∧ s < k.routines.size ∧ k.routineAt s = (h.routineAt r).moved places := by
  obtain ⟨i, hr, hs⟩ := hp
  obtain ⟨s', hs', hrest⟩ := hc.function hr
  rw [hs] at hs'
  cases hs'
  exact hrest

/-- If no function stands in two places, each one has one copy and is the copy of one. -/
theorem pair_unique (hc : Copies places h vs done k)
    (honce : ∀ {i j : Nat} {r : Ref}, vs[i]? = some (.function r) → vs[j]? = some (.function r) → i = j)
    (hp : Pair vs done r s) (hp' : Pair vs done r' s') : r = r' ↔ s = s' := by
  obtain ⟨i, hr, hs⟩ := hp
  obtain ⟨j, hr', hs'⟩ := hp'
  constructor
  · rintro rfl
    rw [honce hr hr', hs'] at hs
    cases hs
    rfl
  · rintro rfl
    rw [hc.injective hs hs', hr'] at hr
    cases hr
    rfl

end Copies

/-! ## Merged programs -/

/-- **A program and its merged version.** `places` says where the constants are found, and `copy` which
functions are copies of which. -/
structure Merging (p : Program) (h : Heap) (q : Program) (k : Heap) (places : Array Nat)
    (copy : Ref → Ref → Prop) : Prop where
  files : q.files = p.files
  le : ∀ i, placeOf places i ≤ i
  heap : ∃ extra, k = { h with routines := h.routines ++ extra }
  main : copy p.main q.main
  fresh : ∀ {r s}, copy r s → h.routines.size ≤ s ∧ s < k.routines.size
  routine : ∀ {r s}, copy r s → k.routineAt s = (h.routineAt r).moved places
  unique : ∀ {r s r' s'}, copy r s → copy r' s' → (r = r' ↔ s = s')
  function : ∀ {i : Nat} {r : Ref}, p.constants[i]? = some (.function r) →
    ∃ s, q.constants[placeOf places i]? = some (.function s) ∧ copy r s
  other : ∀ {i : Nat} {v : Value}, p.constants[i]? = some v → (∀ r, v ≠ .function r) →
    ∃ w, q.constants[placeOf places i]? = some w ∧ StandsFor h v w
  origin : ∀ {j : Nat} {w : Value}, q.constants[j]? = some w → (∀ s, w ≠ .function s) → w ∈ p.constants

theorem assembled_renumber (hle : ∀ k, placeOf places k ≤ k) {code : Bytes} (h : Generator.Assembled a code) :
    Generator.Assembled (a.renumber (placeOf places)) (Code.renumber places code) where
  code := toList_renumber h.code h.fits
  fits i hi := by
    rw [code_renumber] at hi
    obtain ⟨j, hj, rfl⟩ := mem_map.mp hi
    exact fits_renumber hle (h.fits j hj)
  closed e := by rw [leaves_renumber, h.closed e]

theorem Merging.renumbered (hm : Merging p h q k places copy) (hcopy : copy r s) :
    Routine.Renumbered (placeOf places) (h.routineAt r) (k.routineAt s) := by
  rw [hm.routine hcopy]
  exact ⟨⟨rfl, rfl, rfl, rfl⟩, assembled_renumber hm.le⟩

theorem StandsFor.eq (hs : StandsFor h v w) (hv : v.isFrozenContainer = false) : w = v := by
  rcases hs with hs | ⟨hf, -⟩
  · exact hs
  · rw [hv] at hf
    cases hf

/-- Copying begins with the main function. -/
theorem renumberAll_done : ∀ (vs : List Value) (done : Array Value) (h : Heap), renumberAll places vs done h =
      (done ++ (renumberAll places vs #[] h).1, (renumberAll places vs #[] h).2)
  | [], done, h => by simp [renumberAll]
  | v :: vs, done, h => by
    by_cases hf : ∃ r, v = .function r
    · obtain ⟨r, rfl⟩ := hf
      simp only [renumberAll]
      rw [renumberAll_done vs (done.push _), renumberAll_done vs (#[].push _)]
      simp
    · have heq (done : Array Value) : renumberAll places (v :: vs) done h =
          renumberAll places vs (done.push v) h := by
        cases v <;> first | rfl | exact absurd ⟨_, rfl⟩ hf
      rw [heq, heq, renumberAll_done vs (done.push v), renumberAll_done vs (#[].push v)]
      simp

section

variable {p : Program} {h : Heap}

theorem placeOf_le {pool : Pool} (hold : pool.Holds h vs places) (i : Nat) : placeOf places i ≤ i := by
  unfold placeOf
  cases hi : places[i]? with
  | none => exact Nat.le_refl i
  | some j =>
    have hlt : i < vs.length := by
      rw [← hold.size]
      exact (Array.getElem?_eq_some_iff.mp hi).1
    obtain ⟨j', w, hj, hle, -⟩ := hold.place (getElem?_eq_getElem hlt)
    rw [hi] at hj
    cases hj
    exact hle

/-- The main function and the functions that are kept stand in one place each. -/
theorem Pool.Holds.main_once {pool : Pool} {places : Array Nat} {i j : Nat}
    (hold : pool.Holds h p.constants.toList places) (hne : .function p.main ∉ p.constants)
    (hi : (Value.function p.main :: pool.kept.toList)[i]? = some (.function r))
    (hj : (Value.function p.main :: pool.kept.toList)[j]? = some (.function r)) : i = j := by
  have hmain {i : Nat} (hi : pool.kept[i]? = some (.function p.main)) : False :=
    hne (by simpa using hold.origin _ (Array.mem_of_getElem? hi))
  cases i with
  | zero =>
    cases j with
    | zero => rfl
    | succ j =>
      cases hi
      exact (hmain (by simpa using hj)).elim
  | succ i =>
    cases j with
    | zero =>
      cases hj
      exact (hmain (by simpa using hi)).elim
    | succ j =>
      have hi' := hold.once rfl (by simpa using hi)
      rw [hold.once rfl (by simpa using hj)] at hi'
      rw [Option.some.inj hi']

/-- The copies that merging makes: those of the main function and of the functions that are kept. -/
theorem merged_copies (hmain : p.main < h.routines.size)
    (hlt : ∀ r, .function r ∈ p.constants → r < h.routines.size) :
    ∃ places pool, Pool.place h p.constants.toList {} #[] = (places, pool) ∧
      Pool.Holds h p.constants.toList pool places ∧ Copies places h (.function p.main :: pool.kept.toList)
        (#[.function (p.merged h).1.main] ++ (p.merged h).1.constants) (p.merged h).2 := by
  let placed := Pool.place h p.constants.toList {} #[]
  have hold : Pool.Holds h p.constants.toList placed.2 placed.1 := by
    have := Pool.place_holds p.constants.toList (Pool.Holds.empty h)
    rwa [nil_append] at this
  refine ⟨placed.1, placed.2, rfl, hold, ?_⟩
  have hcopies := Copies.renumberAll placed.1 (.function p.main :: placed.2.kept.toList)
    (Copies.empty placed.1 h) fun r hr => by
      rcases mem_cons.mp hr with heq | hr
      · cases heq
        exact hmain
      · exact hlt r (by simpa using hold.origin _ (by simpa using hr))
  simp only [renumberAll] at hcopies
  rw [renumberAll_done] at hcopies
  exact hcopies

/-- The copy of the main function stands before the copies of the constants. -/
theorem merged_shift {j : Nat} : (#[Value.function (p.merged h).1.main] ++ (p.merged h).1.constants)[j + 1]? =
    (p.merged h).1.constants[j]? := by
  rw [Array.getElem?_append_right (by simp)]
  simp

/-- **Merging the constants of a program**, if its functions are in the heap and the main function is not
among its constants. -/
theorem merged_merging (hmain : p.main < h.routines.size)
    (hlt : ∀ r, .function r ∈ p.constants → r < h.routines.size) (hne : .function p.main ∉ p.constants) :
    ∃ places copy, Merging p h (p.merged h).1 (p.merged h).2 places copy := by
  obtain ⟨places, pool, -, hold, hc⟩ := merged_copies hmain hlt
  have hplace {i : Nat} {v : Value} (hi : p.constants[i]? = some v) :
      ∃ w, pool.kept[placeOf places i]? = some w ∧ StandsFor h v w := by
    obtain ⟨j, w, hj, -, hw, hs⟩ := hold.place (by simpa using hi)
    exact ⟨w, by simpa [placeOf, hj] using hw, hs⟩
  refine ⟨places, Copies.Pair (.function p.main :: pool.kept.toList)
    (#[.function (p.merged h).1.main] ++ (p.merged h).1.constants), rfl, placeOf_le hold, hc.heap,
    ⟨0, rfl, Array.getElem?_append_left Nat.one_pos⟩, ?_, ?_, hc.pair_unique (hold.main_once hne), ?_, ?_, ?_⟩
  · intro r s hp
    exact ⟨(hc.pair_routine hp).1, (hc.pair_routine hp).2.1⟩
  · intro r s hp
    exact (hc.pair_routine hp).2.2
  · intro i r hi
    obtain ⟨w, hw, hs⟩ := hplace hi
    rw [hs.eq rfl] at hw
    have hall : (Value.function p.main :: pool.kept.toList)[placeOf places i + 1]? = some (.function r) := by
      simpa using hw
    obtain ⟨s, hs', -⟩ := hc.function hall
    exact ⟨s, merged_shift ▸ hs', _, hall, hs'⟩
  · intro i v hi hv
    obtain ⟨w, hw, hs⟩ := hplace hi
    have hwf : ∀ r, w ≠ .function r := by
      rintro r rfl
      rcases hs with rfl | ⟨-, hf, -⟩
      · exact hv r rfl
      · cases hf
    have hall : (Value.function p.main :: pool.kept.toList)[placeOf places i + 1]? = some w := by
      simpa using hw
    exact ⟨w, merged_shift ▸ hc.other hall hwf, hs⟩
  · intro j w hj hw
    have hlen := (Array.getElem?_eq_some_iff.mp (merged_shift.trans hj)).1
    rw [hc.size] at hlen
    obtain ⟨v, hv⟩ : ∃ v, (Value.function p.main :: pool.kept.toList)[j + 1]? = some v :=
      ⟨_, getElem?_eq_getElem hlen⟩
    have hvf : ∀ r, v ≠ .function r := by
      rintro r rfl
      obtain ⟨s, hs, -⟩ := hc.function hv
      rw [merged_shift, hj] at hs
      exact hw s (Option.some.inj hs)
    have hsame := hc.other hv hvf
    rw [merged_shift, hj] at hsame
    cases hsame
    simpa using hold.origin _ (Array.mem_of_getElem? (by simpa using hv))

end

end Scripting
