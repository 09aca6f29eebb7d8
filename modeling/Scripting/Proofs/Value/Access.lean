import Mathlib.Logic.Relation
import Scripting.Proofs.Value.Operation
/-!
# `Proofs.Value.Access` — what a value leads to

A program that holds a value can come to the values inside it, to those inside these, and so on: the items of
arrays and maps, the payloads of errors, the variables that functions have captured, and the elements that an
iterator has not passed yet (`Value.Leads`). It can change an object only through such a value (`Value.Changes`).

Two heaps with the same reachable objects are joined by the renaming that keeps these and pairs up the objects
that both sides are yet to make (`Renaming.ofPairs`, `Renaming.keeping`).
-/

namespace Scripting

open Heap Value Renaming

variable {h k : Heap} {t : Table} {r s : Ref} {u v w : Value}

/-- The elements that an iterator may still show. -/
def Iterator.ahead (i : Iterator) : List Value :=
  match i.source with
  | .items xs => xs.toList.drop (i.pos - 1)
  | .chars _ => []
  | .entries es => (es.toList.drop (i.pos - 1)).map Prod.snd

namespace Value

/-- `u` is inside `v`. -/
inductive Part (h : Heap) : Value → Value → Prop
  | item {kind} {r : Ref} {u : Value} (mem : u ∈ (h.arrayAt r).toList) : Part h (.array kind r) u
  | entry {kind} {r : Ref} {e} (mem : e ∈ (h.mapAt r).entries) : Part h (.map kind r) e.2
  | payload (r : Ref) : Part h (.error r) (h.errorAt r)
  | element {r : Ref} {u : Value} (mem : u ∈ (h.iteratorAt r).ahead) : Part h (.iterator r) u
  | captured {r c : Ref} (mem : c ∈ (h.closureAt r).cells) : Part h (.closure r) (h.cellAt c)

/-- **`v` leads to `u`**: it is `u`, or a value inside it leads to `u`. -/
abbrev Leads (h : Heap) : Value → Value → Prop := Relation.ReflTransGen (Part h)

/-- The objects that a value refers to directly: its own, and the cells of a function. -/
inductive Refers (h : Heap) : Value → Table → Ref → Prop
  | bytes (r : Ref) : Refers h (.bytes r) .bytes r
  | array (kind : Mutability) (r : Ref) : Refers h (.array kind r) .arrays r
  | map (kind : Mutability) (r : Ref) : Refers h (.map kind r) .maps r
  | error (r : Ref) : Refers h (.error r) .errors r
  | iterator (r : Ref) : Refers h (.iterator r) .iterators r
  | closure (r : Ref) : Refers h (.closure r) .closures r
  | cell {r c : Ref} (mem : c ∈ (h.closureAt r).cells) : Refers h (.closure r) .cells c

/-- The objects that can be changed through a value itself. -/
inductive Changes (h : Heap) : Value → Table → Ref → Prop
  | array (r : Ref) : Changes h (.array .mutable r) .arrays r
  | map (r : Ref) : Changes h (.map .mutable r) .maps r
  | iterator (r : Ref) : Changes h (.iterator r) .iterators r
  | cell {r c : Ref} (mem : c ∈ (h.closureAt r).cells) : Changes h (.closure r) .cells c

end Value

/-- The heap has every object that a value leads to. -/
def Heap.Covers (h : Heap) (v : Value) : Prop :=
  ∀ ⦃u⦄, Leads h v u → ∀ ⦃t r⦄, Refers h u t r → r < h.size t

/-- A value is covered if what it refers to is there and the values inside it are covered. -/
theorem Heap.Covers.of_parts (hrefs : ∀ t r, Refers h v t r → r < h.size t)
    (hparts : ∀ u, Part h v u → h.Covers u) : h.Covers v := by
  intro w hl t r hr
  rcases Relation.ReflTransGen.cases_head hl with rfl | ⟨u, hu, hl⟩
  · exact hrefs t r hr
  · exact hparts u hu hl hr

/-- A program that holds the values in `S` **can come to `u`**. -/
def Meets (h : Heap) (S : Value → Prop) (u : Value) : Prop := ∃ x, S x ∧ Leads h x u

/-- An object that a program can come to. -/
def Reached (h : Heap) (S : Value → Prop) (t : Table) (r : Ref) : Prop := ∃ u, Meets h S u ∧ Refers h u t r

/-- **An object that a program can change.** -/
def Exposed (h : Heap) (S : Value → Prop) (t : Table) (r : Ref) : Prop := ∃ u, Meets h S u ∧ Changes h u t r

section

variable {S : Value → Prop}

theorem Meets.self (hv : S v) : Meets h S v := ⟨v, hv, .refl⟩

theorem Meets.part (hv : Meets h S v) (hu : Part h v u) : Meets h S u := by
  obtain ⟨x, hx, hl⟩ := hv
  exact ⟨x, hx, hl.tail hu⟩

theorem Value.Changes.refers (hr : Changes h v t r) : Refers h v t r := by
  cases hr with
  | array r => exact .array .mutable r
  | map r => exact .map .mutable r
  | iterator r => exact .iterator r
  | cell mem => exact .cell mem

theorem Exposed.reached (hr : Exposed h S t r) : Reached h S t r := by
  obtain ⟨u, hu, hr⟩ := hr
  exact ⟨u, hu, hr.refers⟩

theorem Reached.inside (covers : ∀ x, S x → h.Covers x) (hr : Reached h S t r) : r < h.size t := by
  obtain ⟨u, ⟨x, hx, hl⟩, hr⟩ := hr
  exact covers x hx hl hr

end

/-! ## Renamings from pairs of objects -/

/-- The renaming that has these pairs of objects, and pairs up the objects that are yet to be made. The
objects in `C` may be changed, and those that are yet to be made. -/
def Renaming.ofPairs (pairs : Table → Ref → Ref → Prop) (C : Table → Ref → Prop) (h k : Heap) : Renaming where
  refs t r s := pairs t r s ∨ (t ≠ .closures ∧ ∃ n, r = h.size t + n ∧ s = k.size t + n)
  changeable t r := h.size t ≤ r ∨ C t r
  body _ r s := s = r
  skips := true
  left := h
  right := k

theorem Object.Renamed.outside (ht : t ≠ .closures) (n n' : Nat) :
    Object.Renamed ρ (h.object t (h.size t + n)) (k.object t (k.size t + n')) := by
  have hget {α : Type} (xs : Array α) (d : α) (m : Nat) : xs.getD (xs.size + m) d = d := by
    simp [Nat.not_lt.mpr (Nat.le_add_right xs.size m)]
  cases t with
  | bytes =>
    simp only [object, size, bytesAt, hget]
    exact .bytes _
  | arrays =>
    simp only [object, size, arrayAt, hget]
    exact .items .nil
  | maps =>
    simp only [object, size, mapAt, hget]
    exact .entries .nil
  | errors =>
    simp only [object, size, errorAt, hget]
    exact .value .undefined
  | iterators =>
    simp only [object, size, iteratorAt, hget]
    exact .iterator ⟨.items_all .nil, rfl⟩
  | cells =>
    simp only [object, size, cellAt, hget]
    exact .value .undefined
  | closures => exact absurd rfl ht

/-- Pairs of objects that are there, each with one counterpart and with contents that correspond, join two
heaps. -/
theorem Renaming.ofPairs_joins (hosts : k.hosts = h.hosts)
    (inside : ∀ {t r s}, pairs t r s → r < h.size t ∧ s < k.size t)
    (unique : ∀ {t r s r' s'}, t ≠ .bytes → pairs t r s → pairs t r' s' → (r = r' ↔ s = s'))
    (objects : ∀ {t r s}, pairs t r s → Object.Renamed (ofPairs pairs C h k) (h.object t r) (k.object t s)) :
    (ofPairs pairs C h k).Joins h k where
  unique := by
    intro t r s r' s' ht hr hr'
    rcases hr with hr | ⟨-, n, rfl, rfl⟩ <;> rcases hr' with hr' | ⟨-, n', rfl, rfl⟩
    · exact unique ht hr hr'
    · -- an object that is there is none that is yet to be made
      refine iff_of_false (fun he => ?_) fun he => ?_
      · exact absurd (he ▸ (inside hr).1) (Nat.not_lt.mpr (Nat.le_add_right ..))
      · exact absurd (he ▸ (inside hr).2) (Nat.not_lt.mpr (Nat.le_add_right ..))
    · refine iff_of_false (fun he => ?_) fun he => ?_
      · exact absurd (he ▸ (inside hr').1) (Nat.not_lt.mpr (Nat.le_add_right ..))
      · exact absurd (he ▸ (inside hr').2) (Nat.not_lt.mpr (Nat.le_add_right ..))
    · exact Nat.add_left_cancel_iff.trans Nat.add_left_cancel_iff.symm
  unique_body := by
    rintro r s r' s' rfl rfl
    exact Iff.rfl
  left := .refl h
  right := .refl k
  hosts := hosts
  pace := Nat.add_comm ..
  kept _ _ := rfl
  kept_right _ _ := rfl
  fresh ht n := ⟨.inr ⟨ht, n, rfl, rfl⟩, .inl (Nat.le_add_right ..)⟩
  aligned := by
    intro t r s ht hr
    rcases hr with hr | ⟨-, n, hr, hs⟩
    · exact .inl (inside hr)
    · exact .inr ⟨n, hr, hs⟩
  objects := by
    intro t r s hr
    rcases hr with hr | ⟨ht, n, rfl, rfl⟩
    · exact objects hr
    · exact .outside ht n n
  made := by
    intro r s hr
    rcases hr with hr | ⟨ht, -⟩
    · exact inside hr
    · exact absurd rfl ht

/-! ## Objects that keep their numbers -/

section

variable {ρ : Renaming} {S : Value → Prop}

/-- An iterator corresponds to itself if the elements ahead of it do. -/
theorem Iterator.Renamed.self (hskips : ρ.skips = true) (hi : ∀ u ∈ i.ahead, Scripting.Renamed ρ u u) :
    Iterator.Renamed ρ i i := by
  obtain ⟨source, pos⟩ := i
  refine ⟨?_, rfl⟩
  have hshown : ρ.shown pos = pos - 1 := by simp [shown, hskips]
  rw [hshown]
  cases source with
  | items xs => exact .items rfl (List.forall₂_same.mpr hi)
  | chars cs => exact .chars cs
  | entries es =>
    refine .entries rfl (List.forall₂_same.mpr fun e he => ⟨rfl, hi e.2 ?_⟩)
    exact List.mem_map_of_mem he

/-- What it takes for reachable objects to correspond to themselves. -/
structure Renaming.Keeps (ρ : Renaming) (h : Heap) (S : Value → Prop) : Prop where
  refs : ∀ {t r}, Reached h S t r → ρ.refs t r r
  changeable : ∀ {t r}, Exposed h S t r → ρ.changeable t r
  body : ∀ k r, ρ.body k r r
  skips : ρ.skips = true

namespace Renaming.Keeps

theorem value (hk : ρ.Keeps h S) (hv : Meets h S v) : Renamed ρ v v := by
  cases v with
  | bytes r => exact .bytes (hk.refs ⟨_, hv, .bytes r⟩)
  | array kind r =>
    refine .array (hk.refs ⟨_, hv, .array kind r⟩) ?_
    rintro rfl
    exact hk.changeable ⟨_, hv, .array r⟩
  | map kind r =>
    refine .map (hk.refs ⟨_, hv, .map kind r⟩) ?_
    rintro rfl
    exact hk.changeable ⟨_, hv, .map r⟩
  | error r => exact .error (hk.refs ⟨_, hv, .error r⟩)
  | function r => exact .function (hk.body 0 r)
  | closure r => exact .closure (hk.refs ⟨_, hv, .closure r⟩)
  | iterator r => exact .iterator (hk.refs ⟨_, hv, .iterator r⟩) (hk.changeable ⟨_, hv, .iterator r⟩)
  | _ => constructor

theorem object (hk : ρ.Keeps h S) (hr : Reached h S t r) : Object.Renamed ρ (h.object t r) (h.object t r) := by
  obtain ⟨u, hu, hr⟩ := hr
  cases hr with
  | bytes r => exact .bytes _
  | array kind r => exact .items (List.forall₂_same.mpr fun v hv => hk.value (hu.part (.item hv)))
  | map kind r => exact .entries (List.forall₂_same.mpr fun e he => ⟨rfl, hk.value (hu.part (.entry he))⟩)
  | error r => exact .value (hk.value (hu.part (.payload r)))
  | iterator r => exact .iterator (.self hk.skips fun v hv => hk.value (hu.part (.element hv)))
  | closure r =>
    refine .closure ⟨hk.body .., List.forall₂_same.mpr fun c hc => ?_, fun c hc => ?_⟩
    · exact hk.refs ⟨_, hu, .cell (Array.mem_toList_iff.mp hc)⟩
    · exact hk.changeable ⟨_, hu, .cell hc⟩
  | cell hc => exact .value (hk.value (hu.part (.captured hc)))

end Renaming.Keeps

/-- The renaming under which the objects that `S` leads to keep their numbers. -/
def Renaming.keeping (h k : Heap) (S : Value → Prop) : Renaming :=
  .ofPairs (fun t r s => s = r ∧ Reached h S t r) (Exposed h S) h k

theorem Renaming.keeping_keeps (h k : Heap) (S : Value → Prop) : (keeping h k S).Keeps h S where
  refs hr := .inl ⟨rfl, hr⟩
  changeable hr := .inr hr
  body _ _ := rfl
  skips := rfl

/-- **A later heap in which reachable objects are as they were** is joined to the earlier one. -/
theorem Renaming.keeping_joins (hosts : k.hosts = h.hosts) (size : ∀ t, h.size t ≤ k.size t)
    (covers : ∀ x, S x → h.Covers x) (same : ∀ {t r}, Reached h S t r → k.object t r = h.object t r) :
    (keeping h k S).Joins h k := by
  refine ofPairs_joins hosts ?_ ?_ ?_
  · rintro t r s ⟨rfl, hr⟩
    exact ⟨hr.inside covers, Nat.lt_of_lt_of_le (hr.inside covers) (size t)⟩
  · rintro t r s r' s' - ⟨rfl, -⟩ ⟨rfl, -⟩
    exact Iff.rfl
  · rintro t r s ⟨rfl, hr⟩
    rw [same hr]
    exact (keeping_keeps h k S).object hr

end

end Scripting
