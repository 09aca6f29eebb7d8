import Mathlib.Data.List.Forall2
import Scripting.Value.Action
/-!
# `Proofs.Value.World` — two heaps that correspond

Two runs of code that differs only in the numbers of its constants make the same objects in the same
order. Their heaps then correspond object by object under the same references, except for compiled
functions: a function of one program stands for the function of the other with the renumbered code. A
`World` fixes which functions correspond and which objects a program may come across at all; what lies
in the rest of the heap does not matter.

* **values** — `Related W v w`: the same value, or two functions that correspond;
* **heaps** — `Heap.Related W h k`: live objects have related contents, fresh ones are live;
* **operations** — `Action.Related W R x y`: from related heaps, both succeed with results in `R` or
  both fail alike, and the heaps stay related.

On the diagonal a world says which functions are sound to call, and the relation is an invariant.
-/

namespace Scripting

/-- Which functions of two programs correspond, and which objects a program may come across. -/
structure World where
  /-- Routines that correspond, by the number of variables that they capture. -/
  body : Nat → Ref → Ref → Prop
  /-- A function that captures nothing has one counterpart on either side. -/
  unique : ∀ {r s r' s'}, body 0 r s → body 0 r' s' → (r = r' ↔ s = s')
  arrays : Ref → Prop
  maps : Ref → Prop
  errors : Ref → Prop
  iterators : Ref → Prop
  cells : Ref → Prop
  /-- The closures that have been made, with the number of their cells. -/
  closures : Ref → Nat → Prop
  /-- The routines of both sides; no run changes them. -/
  left : Array Routine
  right : Array Routine

namespace World

/-- May a program come across this value, on both sides alike? -/
def Live (W : World) : Value → Prop
  | .array _ r => W.arrays r
  | .map _ r => W.maps r
  | .error r => W.errors r
  | .iterator r => W.iterators r
  | .closure r => ∃ n, W.closures r n
  | .function _ => False
  | _ => True

end World

variable {W : World} {α : Type u}

/-! ## Values -/

/-- The same live value on both sides, or two functions that correspond. -/
inductive Related (W : World) : Value → Value → Prop
  | same {v} (live : W.Live v) : Related W v v
  | function {r s} (body : W.body 0 r s) : Related W (.function r) (.function s)

/-- Values that correspond one by one. -/
abbrev RelatedAll (W : World) : List Value → List Value → Prop := List.Forall₂ (Related W)

/-- The same key with related values. -/
def RelatedEntry (W : World) (e e' : String × Value) : Prop := e.1 = e'.1 ∧ Related W e.2 e'.2

/-- The same keys in the same order with related values. -/
abbrev RelatedDict (W : World) (d d' : Dict Value) : Prop := List.Forall₂ (RelatedEntry W) d.entries d'.entries

/-- Snapshots with related elements. -/
inductive Snapshot.Related (W : World) : Snapshot → Snapshot → Prop
  | items {xs ys} (h : RelatedAll W xs.toList ys.toList) : Related W (.items xs) (.items ys)
  | chars (cs : Array Char) : Related W (.chars cs) (.chars cs)
  | entries {es es'} (h : List.Forall₂ (RelatedEntry W) es.toList es'.toList) : Related W (.entries es) (.entries es')

/-- Iterators at the same place in related snapshots. -/
structure Iterator.Related (W : World) (i j : Iterator) : Prop where
  source : Snapshot.Related W i.source j.source
  pos : i.pos = j.pos

/-- Closures of corresponding routines over the same `n` live cells. -/
structure Closure.Related (W : World) (n : Nat) (c d : Closure) : Prop where
  body : W.body n c.routine d.routine
  size : c.cells.size = n
  cells : d.cells = c.cells
  live : ∀ r ∈ c.cells, W.cells r

namespace Related

theorem undefined : Related W .undefined .undefined := .same trivial

end Related

/-! ## Heaps -/

/-- Two heaps that correspond: live objects have related contents, and what is yet to be made is
live. -/
structure Heap.Related (W : World) (h k : Heap) : Prop where
  bytes : k.bytes = h.bytes
  hosts : k.hosts = h.hosts
  arrays_size : k.arrays.size = h.arrays.size
  maps_size : k.maps.size = h.maps.size
  errors_size : k.errors.size = h.errors.size
  iterators_size : k.iterators.size = h.iterators.size
  cells_size : k.cells.size = h.cells.size
  closures_size : k.closures.size = h.closures.size
  arrays_fresh : ∀ r, h.arrays.size ≤ r → W.arrays r
  maps_fresh : ∀ r, h.maps.size ≤ r → W.maps r
  errors_fresh : ∀ r, h.errors.size ≤ r → W.errors r
  iterators_fresh : ∀ r, h.iterators.size ≤ r → W.iterators r
  cells_fresh : ∀ r, h.cells.size ≤ r → W.cells r
  arrays : ∀ r, W.arrays r → RelatedAll W (h.arrayAt r).toList (k.arrayAt r).toList
  maps : ∀ r, W.maps r → RelatedDict W (h.mapAt r) (k.mapAt r)
  errors : ∀ r, W.errors r → Scripting.Related W (h.errorAt r) (k.errorAt r)
  iterators : ∀ r, W.iterators r → Iterator.Related W (h.iteratorAt r) (k.iteratorAt r)
  cells : ∀ r, W.cells r → Scripting.Related W (h.cellAt r) (k.cellAt r)
  closures : ∀ r n, W.closures r n → r < h.closures.size ∧ Closure.Related W n (h.closureAt r) (k.closureAt r)
  left : h.routines = W.left
  right : k.routines = W.right

/-! ## Reading tables -/

theorem getD_push (xs : Array α) (x d : α) (r : Nat) :
    (xs.push x).getD r d = if r = xs.size then x else xs.getD r d := by
  simp only [Array.getD_eq_getD_getElem?, Array.getElem?_push]
  split <;> rfl

theorem getD_setIfInBounds (xs : Array α) (i : Nat) (x d : α) (r : Nat) :
    (xs.setIfInBounds i x).getD r d = if i = r ∧ r < xs.size then x else xs.getD r d := by
  by_cases hi : i = r
  · subst hi
    by_cases hlt : i < xs.size <;> simp [hlt]
  · simp [hi]

theorem getD_modify (xs : Array α) (i : Nat) (f : α → α) (d : α) (r : Nat) :
    (xs.modify i f).getD r d = if i = r ∧ r < xs.size then f (xs.getD r d) else xs.getD r d := by
  simp only [Array.getD_eq_getD_getElem?, Array.getElem?_modify]
  by_cases hi : i = r
  · subst hi
    by_cases hlt : i < xs.size <;> simp [hlt]
  · simp [hi]

/-! ## Operations on heaps -/

/-- Both succeed with results in `R`, or both fail in the same way; the heaps stay related. -/
inductive Alike (W : World) {ε α β : Type} (R : α → β → Prop) :
    EStateM.Result ε Heap α → EStateM.Result ε Heap β → Prop
  | ok {a b h k} (result : R a b) (heaps : Heap.Related W h k) : Alike W R (.ok a h) (.ok b k)
  | error {e h k} (heaps : Heap.Related W h k) : Alike W R (.error e h) (.error e k)

/-- From related heaps, both operations do the same. -/
def Action.Related (W : World) {ε α β : Type} (R : α → β → Prop) (x : EStateM ε Heap α)
    (y : EStateM ε Heap β) : Prop :=
  ∀ ⦃h k : Heap⦄, Heap.Related W h k → Alike W R (x h) (y k)

namespace Action.Related

variable {ε α β α' β' : Type} {R : α → β → Prop} {S : α' → β' → Prop}

theorem pure (h : R a b) :
    Action.Related W R (pure a : EStateM ε Heap α) (pure b : EStateM ε Heap β) := fun _ _ hh => .ok h hh

end Action.Related

/-! ## New closures -/

/-- `W'` is `W` with more closures. -/
def World.Le (W W' : World) : Prop := ∃ closures, W' = { W with closures } ∧ ∀ r n, W.closures r n → closures r n

namespace World.Le

variable {W' W'' : World} {v w : Value}

theorem refl (W : World) : W.Le W := ⟨W.closures, rfl, fun _ _ h => h⟩

theorem trans (h : W.Le W') (h' : W'.Le W'') : W.Le W'' := by
  obtain ⟨C, rfl, hC⟩ := h
  obtain ⟨D, rfl, hD⟩ := h'
  exact ⟨D, rfl, fun r n h => hD r n (hC r n h)⟩

theorem live (h : W.Le W') (hl : W.Live v) : W'.Live v := by
  obtain ⟨C, rfl, hC⟩ := h
  cases v with
  | closure r =>
    obtain ⟨n, hn⟩ := hl
    exact ⟨n, hC r n hn⟩
  | _ => exact hl

theorem related (h : W.Le W') (hv : Related W v w) : Related W' v w := by
  cases hv with
  | same hl => exact .same (h.live hl)
  | function hb =>
    obtain ⟨C, rfl, hC⟩ := h
    exact .function hb

theorem body_eq (h : W.Le W') : W'.body = W.body := by
  obtain ⟨C, rfl, -⟩ := h
  rfl

theorem left_eq (h : W.Le W') : W'.left = W.left := by
  obtain ⟨C, rfl, -⟩ := h
  rfl

theorem right_eq (h : W.Le W') : W'.right = W.right := by
  obtain ⟨C, rfl, -⟩ := h
  rfl

end World.Le

end Scripting
