import Scripting.Proofs.Value.World
/-!
# `Proofs.Value.Reach` — values without functions

A run begins with a heap and with values that the host has made. As long as these contain no compiled
function, at any depth (`ContainsFunction`), nothing in the heap that a program can come across depends on
which functions there are: the heap is related to itself in every world that begins there
(`World.onHeap_related`).
-/

namespace Scripting

open Array

/-- **A value that contains a compiled function**, at any depth. -/
inductive ContainsFunction (h : Heap) : Value → Prop
  | function (r : Ref) : ContainsFunction h (.function r)
  | closure (r : Ref) : ContainsFunction h (.closure r)
  | item {kind r v} (mem : v ∈ h.arrayAt r) (inside : ContainsFunction h v) : ContainsFunction h (.array kind r)
  | entry {kind r e} (mem : e ∈ (h.mapAt r).entries)
    (inside : ContainsFunction h e.2) : ContainsFunction h (.map kind r)
  | payload {r} (inside : ContainsFunction h (h.errorAt r)) : ContainsFunction h (.error r)
  | snapshotItem {r xs v} (source : (h.iteratorAt r).source = .items xs)
    (mem : v ∈ xs) (inside : ContainsFunction h v) : ContainsFunction h (.iterator r)
  | snapshotEntry {r es e}
    (source : (h.iteratorAt r).source = .entries es) (mem : e ∈ es) (inside : ContainsFunction h e.2) :
    ContainsFunction h (.iterator r)

/-- Functions that correspond, by the number of variables that they capture. One that captures nothing has
one counterpart on either side. -/
structure Pairing where
  body : Nat → Ref → Ref → Prop
  unique : ∀ {r s r' s'}, body 0 r s → body 0 r' s' → (r = r' ↔ s = s')

namespace World

variable {h : Heap} {pairing : Pairing}

/-- The world at the beginning of a run: a program may come across everything that contains no
function. -/
def onHeap (h : Heap) (pairing : Pairing) : World where
  body := pairing.body
  unique := pairing.unique
  arrays r := ¬ContainsFunction h (.array .mutable r)
  maps r := ¬ContainsFunction h (.map .mutable r)
  errors r := ¬ContainsFunction h (.error r)
  iterators r := ¬ContainsFunction h (.iterator r)
  cells r := h.cells.size ≤ r
  closures _ _ := False
  left := h.routines
  right := h.routines

theorem onHeap_self (hv : ¬ContainsFunction h v) : Related (onHeap h pairing) v v := by
  refine .same ?_
  cases v with
  | function r => exact hv (.function r)
  | closure r => exact absurd (.closure r) hv
  | array kind r =>
    rintro ⟨⟩
    exact hv (.item ‹_› ‹_›)
  | map kind r =>
    rintro ⟨⟩
    exact hv (.entry ‹_› ‹_›)
  | error r => exact hv
  | iterator r => exact hv
  | _ => trivial

theorem onHeap_all (hv : ∀ v ∈ vs, ¬ContainsFunction h v) : RelatedAll (onHeap h pairing) vs vs :=
  List.forall₂_same.mpr fun v hm => onHeap_self (hv v hm)

theorem onHeap_entries (he : ∀ e ∈ es, ¬ContainsFunction h e.2) :
    List.Forall₂ (RelatedEntry (onHeap h pairing)) es es :=
  List.forall₂_same.mpr fun e hm => ⟨rfl, onHeap_self (he e hm)⟩

/-- **The heap at the beginning of a run is related to itself.** -/
theorem onHeap_related : Heap.Related (onHeap h pairing) h h where
  bytes := rfl
  hosts := rfl
  arrays_size := rfl
  maps_size := rfl
  errors_size := rfl
  iterators_size := rfl
  cells_size := rfl
  closures_size := rfl
  arrays_fresh := by
    rintro r hr ⟨⟩
    simp [Heap.arrayAt, getElem?_eq_none hr] at *
  maps_fresh := by
    rintro r hr ⟨⟩
    simp [Heap.mapAt, getElem?_eq_none hr, Dict.empty] at *
  errors_fresh := by
    intro r hr hc
    cases hc with
    | payload inside =>
      simp only [Heap.errorAt, getD_eq_getD_getElem?, getElem?_eq_none hr] at inside
      cases inside
  iterators_fresh := by
    intro r hr hc
    have hat : h.iteratorAt r = default := by
      simp [Heap.iteratorAt, getElem?_eq_none hr]
    cases hc with
    | snapshotItem source mem inside =>
      rw [hat] at source
      cases source
      exact absurd mem (not_mem_empty _)
    | snapshotEntry source mem inside =>
      rw [hat] at source
      cases source
  cells_fresh _ hr := hr
  arrays r hr := onHeap_all fun v hv hc => hr (.item (by simpa using hv) hc)
  maps r hr := onHeap_entries fun e he hc => hr (.entry he hc)
  errors r hr := onHeap_self fun hc => hr (.payload hc)
  iterators r hr := by
    refine ⟨?_, rfl⟩
    cases hs : (h.iteratorAt r).source with
    | items xs => exact .items (onHeap_all fun v hv hc => hr (.snapshotItem hs (by simpa using hv) hc))
    | chars cs => exact .chars cs
    | entries es => exact .entries (onHeap_entries fun e he hc => hr (.snapshotEntry hs (by simpa using he) hc))
  cells r hr := by
    have hat : h.cellAt r = .undefined := by
      simp [Heap.cellAt, getElem?_eq_none hr]
    rw [hat]
    exact .undefined
  closures _ _ hc := hc.elim
  left := rfl
  right := rfl

end World

end Scripting
