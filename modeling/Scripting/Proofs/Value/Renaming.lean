import Scripting.Proofs.Value.World
/-!
# `Proofs.Value.Renaming` — two heaps with the same objects under other numbers

References are numbers that depend on how many objects were made before. A `Renaming` says which objects of two
heaps correspond, whatever their numbers, and which of them may be changed. A program cannot tell two heaps
apart that correspond: it sees the contents of objects and which references are equal, and both agree.

* **values** — `Renamed ρ v w`: the same atom, or references of the same kind to objects that correspond;
* **heaps** — `ρ.Joins h k`: objects that correspond have contents that do, each object has one counterpart,
  and the next new objects will correspond; objects that may not be changed are as they were;
* **operations** — `ρ.Acts R x y`: from such heaps, both succeed with results in `R` or both fail alike, and
  the heaps stay such.

On the diagonal, where both heaps are the same, this is a frame rule: what the renaming does not let a program
change is left alone.
-/

namespace Scripting

open List Nat

/-! ## Objects -/

/-- The tables of the heap in which a run makes objects. -/
inductive Table
  | bytes
  | arrays
  | maps
  | errors
  | iterators
  | cells
  | closures
  deriving DecidableEq

/-- What an object holds. -/
inductive Object
  | bytes (bs : Array UInt8)
  | items (xs : Array Value)
  | entries (d : Dict Value)
  | value (v : Value)
  | iterator (i : Iterator)
  | closure (c : Closure)

namespace Heap

def size (h : Heap) : Table → Nat
  | .bytes => h.bytes.size
  | .arrays => h.arrays.size
  | .maps => h.maps.size
  | .errors => h.errors.size
  | .iterators => h.iterators.size
  | .cells => h.cells.size
  | .closures => h.closures.size

/-- What the object with a number in a table holds. -/
def object (h : Heap) : Table → Ref → Object
  | .bytes, r => .bytes (h.bytesAt r)
  | .arrays, r => .items (h.arrayAt r)
  | .maps, r => .entries (h.mapAt r)
  | .errors, r => .value (h.errorAt r)
  | .iterators, r => .iterator (h.iteratorAt r)
  | .cells, r => .value (h.cellAt r)
  | .closures, r => .closure (h.closureAt r)

/-- The heap `h'` is `h` with a new object in a table. -/
structure Adds (h : Heap) (t : Table) (o : Object) (h' : Heap) : Prop where
  size : ∀ t', h'.size t' = if t' = t then h.size t + 1 else h.size t'
  object : ∀ t' r, h'.object t' r = if t' = t ∧ r = h.size t then o else h.object t' r
  routines : h'.routines = h.routines
  hosts : h'.hosts = h.hosts

/-- The heap `h'` is `h` with one object replaced, if there is one with this number. -/
structure Sets (h : Heap) (t : Table) (r : Ref) (o : Object) (h' : Heap) : Prop where
  size : ∀ t', h'.size t' = h.size t'
  object : ∀ t' s, h'.object t' s = if t' = t ∧ r = s ∧ s < h.size t then o else h.object t' s
  routines : h'.routines = h.routines
  hosts : h'.hosts = h.hosts

/-- A later heap of the same run: tables have grown, and no compiled function or closure has changed. -/
structure Later (h h' : Heap) : Prop where
  size : ∀ t, h.size t ≤ h'.size t
  closures : ∀ r, r < h.closures.size → h'.closureAt r = h.closureAt r
  routines : h'.routines = h.routines
  hosts : h'.hosts = h.hosts

theorem Later.refl (h : Heap) : h.Later h := ⟨fun _ => Nat.le_refl _, fun _ _ => rfl, rfl, rfl⟩

theorem Later.trans {h h' h'' : Heap} (a : h.Later h') (b : h'.Later h'') : h.Later h'' where
  size t := Nat.le_trans (a.size t) (b.size t)
  closures r hr := (b.closures r (Nat.lt_of_lt_of_le hr (a.size .closures))).trans (a.closures r hr)
  routines := b.routines.trans a.routines
  hosts := b.hosts.trans a.hosts

section

variable {h h' : Heap} {t : Table} {r : Ref} {o : Object}

theorem Adds.later (ha : h.Adds t o h') : h.Later h' where
  size t' := by
    rw [ha.size]
    split
    · rename_i ht
      subst ht
      exact le_succ _
    · exact Nat.le_refl _
  closures s hs := by
    have ho := ha.object .closures s
    rw [if_neg] at ho
    · exact Object.closure.inj ho
    · rintro ⟨ht, rfl⟩
      subst ht
      exact Nat.lt_irrefl _ hs
  routines := ha.routines
  hosts := ha.hosts

theorem Adds.live (ha : h.Adds t o h') : h.size t < h'.size t := by simp [ha.size]

theorem Adds.found (ha : h.Adds t o h') : h'.object t (h.size t) = o := by simp [ha.object]

theorem Sets.later (hs : h.Sets t r o h') (ht : t ≠ .closures) : h.Later h' where
  size t' := Nat.le_of_eq (hs.size t').symm
  closures s _ := by
    have ho := hs.object .closures s
    rw [if_neg fun hc => ht hc.1.symm] at ho
    exact Object.closure.inj ho
  routines := hs.routines
  hosts := hs.hosts

end

/-! ### The operations that make and change objects -/

section

variable (h : Heap)

theorem newBytes_adds (bs : Array UInt8) : h.Adds .bytes (.bytes bs) (h.newBytes bs).2 := by
  refine ⟨fun t => ?_, fun t r => ?_, rfl, rfl⟩ <;> cases t <;> try rfl
  · simp [newBytes, size]
  · simp only [object, newBytes, bytesAt, getD_push, size, true_and]
    split <;> rfl

theorem newArray_adds (kind : Mutability) (xs : Array Value) : h.Adds .arrays (.items xs) (h.newArray kind xs).2 := by
  refine ⟨fun t => ?_, fun t r => ?_, rfl, rfl⟩ <;> cases t <;> try rfl
  · simp [newArray, size]
  · simp only [object, newArray, arrayAt, getD_push, size, true_and]
    split <;> rfl

theorem newMap_adds (kind : Mutability) (d : Dict Value) : h.Adds .maps (.entries d) (h.newMap kind d).2 := by
  refine ⟨fun t => ?_, fun t r => ?_, rfl, rfl⟩ <;> cases t <;> try rfl
  · simp [newMap, size]
  · simp only [object, newMap, mapAt, getD_push, size, true_and]
    split <;> rfl

theorem newError_adds (v : Value) : h.Adds .errors (.value v) (h.newError v).2 := by
  refine ⟨fun t => ?_, fun t r => ?_, rfl, rfl⟩ <;> cases t <;> try rfl
  · simp [newError, size]
  · simp only [object, newError, errorAt, getD_push, size, true_and]
    split <;> rfl

theorem newIterator_adds (i : Iterator) : h.Adds .iterators (.iterator i) (h.newIterator i).2 := by
  refine ⟨fun t => ?_, fun t r => ?_, rfl, rfl⟩ <;> cases t <;> try rfl
  · simp [newIterator, size]
  · simp only [object, newIterator, iteratorAt, getD_push, size, true_and]
    split <;> rfl

theorem newCell_adds (v : Value) : h.Adds .cells (.value v) (h.newCell v).2 := by
  refine ⟨fun t => ?_, fun t r => ?_, rfl, rfl⟩ <;> cases t <;> try rfl
  · simp [newCell, size]
  · simp only [object, newCell, cellAt, getD_push, size, true_and]
    split <;> rfl

theorem newClosure_adds (c : Closure) : h.Adds .closures (.closure c) (h.newClosure c).2 := by
  refine ⟨fun t => ?_, fun t r => ?_, rfl, rfl⟩ <;> cases t <;> try rfl
  · simp [newClosure, size]
  · simp only [object, newClosure, closureAt, getD_push, size, true_and]
    split <;> rfl

theorem setArray_sets (r : Ref) (xs : Array Value) : h.Sets .arrays r (.items xs) (h.setArray r xs) := by
  refine ⟨fun t => ?_, fun t s => ?_, rfl, rfl⟩ <;> cases t <;> try rfl
  · simp [setArray, size]
  · simp only [object, setArray, arrayAt, getD_setIfInBounds, size, true_and]
    split <;> rfl

theorem setCell_sets (r : Ref) (v : Value) : h.Sets .cells r (.value v) (h.setCell r v) := by
  refine ⟨fun t => ?_, fun t s => ?_, rfl, rfl⟩ <;> cases t <;> try rfl
  · simp [setCell, size]
  · simp only [object, setCell, cellAt, getD_setIfInBounds, size, true_and]
    split <;> rfl

theorem setIterator_sets (r : Ref) (i : Iterator) : h.Sets .iterators r (.iterator i) (h.setIterator r i) := by
  refine ⟨fun t => ?_, fun t s => ?_, rfl, rfl⟩ <;> cases t <;> try rfl
  · simp [setIterator, size]
  · simp only [object, setIterator, iteratorAt, getD_setIfInBounds, size, true_and]
    split <;> rfl

theorem modifyArray_sets (r : Ref) (f : Array Value → Array Value) :
    h.Sets .arrays r (.items (f (h.arrayAt r))) { h with arrays := h.arrays.modify r f } := by
  refine ⟨fun t => ?_, fun t s => ?_, rfl, rfl⟩ <;> cases t <;> try rfl
  · simp [size]
  · simp only [object, arrayAt, getD_modify, size, true_and]
    split
    · rename_i hs
      rw [hs.1]
    · rfl

theorem modifyMap_sets (r : Ref) (f : Dict Value → Dict Value) :
    h.Sets .maps r (.entries (f (h.mapAt r))) { h with maps := h.maps.modify r f } := by
  refine ⟨fun t => ?_, fun t s => ?_, rfl, rfl⟩ <;> cases t <;> try rfl
  · simp [size]
  · simp only [object, mapAt, getD_modify, size, true_and]
    split
    · rename_i hs
      rw [hs.1]
    · rfl

end

end Heap

/-- Which objects of two heaps correspond, and which of them may be changed. -/
structure Renaming where
  /-- Objects that correspond, by their tables. -/
  refs : Table → Ref → Ref → Prop
  /-- Objects of the left heap that a program may change. -/
  changeable : Table → Ref → Prop
  /-- Routines that correspond, by the number of variables that they capture. -/
  body : Nat → Ref → Ref → Prop
  /-- Are the elements that an iterator has passed out of reach? -/
  skips : Bool
  /-- The heaps from which both sides started. -/
  left : Heap
  right : Heap

variable {ρ ρ' ρ'' : Renaming}

/-! ## Values -/

/-- The same atom on both sides, or references of the same kind to objects that correspond. -/
inductive Renamed (ρ : Renaming) : Value → Value → Prop
  | undefined : Renamed ρ .undefined .undefined
  | int (n : Int64) : Renamed ρ (.int n) (.int n)
  | float (x : Flonum) : Renamed ρ (.float x) (.float x)
  | char (c : Char) : Renamed ρ (.char c) (.char c)
  | bool (b : Bool) : Renamed ρ (.bool b) (.bool b)
  | str (s : String) : Renamed ρ (.str s) (.str s)
  | time (t : Instant) : Renamed ρ (.time t) (.time t)
  | bytes {r s} (refs : ρ.refs .bytes r s) : Renamed ρ (.bytes r) (.bytes s)
  | array {kind r s} (refs : ρ.refs .arrays r s)
    (free : kind = .mutable → ρ.changeable .arrays r) : Renamed ρ (.array kind r) (.array kind s)
  | map {kind r s} (refs : ρ.refs .maps r s)
    (free : kind = .mutable → ρ.changeable .maps r) : Renamed ρ (.map kind r) (.map kind s)
  | error {r s} (refs : ρ.refs .errors r s) : Renamed ρ (.error r) (.error s)
  | function {r s} (body : ρ.body 0 r s) : Renamed ρ (.function r) (.function s)
  | closure {r s} (refs : ρ.refs .closures r s) : Renamed ρ (.closure r) (.closure s)
  | builtin (b : Builtin) : Renamed ρ (.builtin b) (.builtin b)
  | host (r : Ref) : Renamed ρ (.host r) (.host r)
  | iterator {r s} (refs : ρ.refs .iterators r s) (free : ρ.changeable .iterators r) :
    Renamed ρ (.iterator r) (.iterator s)

/-- Values that correspond one by one. -/
abbrev RenamedAll (ρ : Renaming) : List Value → List Value → Prop := Forall₂ (Renamed ρ)

/-- The same key with values that correspond. -/
def RenamedEntry (ρ : Renaming) (e e' : String × Value) : Prop := e.1 = e'.1 ∧ Renamed ρ e.2 e'.2

/-- The same keys in the same order with values that correspond. -/
abbrev RenamedDict (ρ : Renaming) (d d' : Dict Value) : Prop := Forall₂ (RenamedEntry ρ) d.entries d'.entries

/-- Snapshots of the same kind and size whose elements correspond, the first `n` apart. -/
inductive Snapshot.Renamed (ρ : Renaming) (n : Nat) : Snapshot → Snapshot → Prop
  | items {xs ys} (size : xs.size = ys.size)
    (rest : RenamedAll ρ (xs.toList.drop n) (ys.toList.drop n)) : Snapshot.Renamed ρ n (.items xs) (.items ys)
  | chars (cs : Array Char) : Snapshot.Renamed ρ n (.chars cs) (.chars cs)
  | entries {es es'} (size : es.size = es'.size)
    (rest : Forall₂ (RenamedEntry ρ) (es.toList.drop n) (es'.toList.drop n)) :
    Snapshot.Renamed ρ n (.entries es) (.entries es')

/-- The first element that an iterator at a position may still show. -/
def Renaming.shown (ρ : Renaming) (pos : Nat) : Nat := if ρ.skips then pos - 1 else 0

/-- Iterators at the same place in snapshots whose elements correspond, as far as they may still be shown. -/
structure Iterator.Renamed (ρ : Renaming) (i j : Iterator) : Prop where
  source : Snapshot.Renamed ρ (ρ.shown i.pos) i.source j.source
  pos : i.pos = j.pos

/-- Closures of corresponding routines over cells that correspond. -/
structure Closure.Renamed (ρ : Renaming) (c d : Closure) : Prop where
  body : ρ.body c.cells.size c.routine d.routine
  cells : Forall₂ (ρ.refs .cells) c.cells.toList d.cells.toList
  free : ∀ r ∈ c.cells, ρ.changeable .cells r

/-- Contents that correspond. -/
inductive Object.Renamed (ρ : Renaming) : Object → Object → Prop
  | bytes (bs : Array UInt8) : Object.Renamed ρ (.bytes bs) (.bytes bs)
  | items {xs ys} (h : RenamedAll ρ xs.toList ys.toList) : Object.Renamed ρ (.items xs) (.items ys)
  | entries {d e} (h : RenamedDict ρ d e) : Object.Renamed ρ (.entries d) (.entries e)
  | value {v w} (h : Scripting.Renamed ρ v w) : Object.Renamed ρ (.value v) (.value w)
  | iterator {i j} (h : Iterator.Renamed ρ i j) : Object.Renamed ρ (.iterator i) (.iterator j)
  | closure {c d} (h : Closure.Renamed ρ c d) : Object.Renamed ρ (.closure c) (.closure d)

/-! ## Larger renamings -/

/-- `ρ'` relates at least what `ρ` does. -/
structure Renaming.Le (ρ ρ' : Renaming) : Prop where
  refs : ∀ {t r s}, ρ.refs t r s → ρ'.refs t r s
  changeable : ∀ {t r}, ρ.changeable t r → ρ'.changeable t r
  body : ∀ {n r s}, ρ.body n r s → ρ'.body n r s
  skips : ρ'.skips = ρ.skips

namespace Renaming.Le

theorem value (h : ρ.Le ρ') {v w : Value} (hv : Renamed ρ v w) : Renamed ρ' v w := by
  cases hv with
  | bytes hr => exact .bytes (h.refs hr)
  | array hr hf => exact .array (h.refs hr) fun hk => h.changeable (hf hk)
  | map hr hf => exact .map (h.refs hr) fun hk => h.changeable (hf hk)
  | error hr => exact .error (h.refs hr)
  | function hb => exact .function (h.body hb)
  | closure hr => exact .closure (h.refs hr)
  | iterator hr hf => exact .iterator (h.refs hr) (h.changeable hf)
  | _ => constructor

theorem values (h : ρ.Le ρ') (hv : RenamedAll ρ vs ws) : RenamedAll ρ' vs ws := hv.imp fun _ _ => h.value

theorem entries (h : ρ.Le ρ') {es es' : List (String × Value)} (hes : Forall₂ (RenamedEntry ρ) es es') :
    Forall₂ (RenamedEntry ρ') es es' :=
  hes.imp fun _ _ he => ⟨he.1, h.value he.2⟩

theorem iterator (h : ρ.Le ρ') (hi : Iterator.Renamed ρ i j) : Iterator.Renamed ρ' i j := by
  obtain ⟨s, p⟩ := i
  obtain ⟨t, q⟩ := j
  obtain ⟨hs, hp⟩ := hi
  refine ⟨?_, hp⟩
  have hshown : ρ'.shown p = ρ.shown p := by simp only [Renaming.shown, h.skips]
  rw [hshown]
  cases hs with
  | items hsize hx => exact .items hsize (h.values hx)
  | chars cs => exact .chars cs
  | entries hsize hx => exact .entries hsize (h.entries hx)

theorem closure (h : ρ.Le ρ') {c d : Closure} (hc : Closure.Renamed ρ c d) : Closure.Renamed ρ' c d :=
  ⟨h.body hc.body, hc.cells.imp fun _ _ => h.refs, fun r hr => h.changeable (hc.free r hr)⟩

theorem object (h : ρ.Le ρ') (ho : Object.Renamed ρ o o') : Object.Renamed ρ' o o' := by
  cases ho with
  | bytes bs => exact .bytes bs
  | items hx => exact .items (h.values hx)
  | entries hd => exact .entries (h.entries hd)
  | value hv => exact .value (h.value hv)
  | iterator hi => exact .iterator (h.iterator hi)
  | closure hc => exact .closure (h.closure hc)

end Renaming.Le

/-! ## Heaps -/

/-- **Heaps joined by a renaming**: objects that correspond have contents that do, each has one counterpart,
and the objects that both sides make next will correspond. -/
structure Renaming.Joins (ρ : Renaming) (h k : Heap) : Prop where
  /-- Byte buffers are never changed and never compared by identity, so they may have many counterparts. -/
  unique : ∀ {t r s r' s'}, t ≠ .bytes → ρ.refs t r s → ρ.refs t r' s' → (r = r' ↔ s = s')
  unique_body : ∀ {r s r' s'}, ρ.body 0 r s → ρ.body 0 r' s' → (r = r' ↔ s = s')
  left : ρ.left.Later h
  right : ρ.right.Later k
  hosts : k.hosts = h.hosts
  /-- Both sides have made the same number of closures. -/
  pace : h.closures.size + ρ.right.closures.size = k.closures.size + ρ.left.closures.size
  /-- What may not be changed is as it was. -/
  kept : ∀ {t r}, r < ρ.left.size t → ¬ρ.changeable t r → h.object t r = ρ.left.object t r
  kept_right : ∀ {t s}, s < ρ.right.size t → (∀ r, ρ.refs t r s → ¬ρ.changeable t r) →
    k.object t s = ρ.right.object t s
  fresh : ∀ {t}, t ≠ .closures → ∀ n, ρ.refs t (h.size t + n) (k.size t + n) ∧ ρ.changeable t (h.size t + n)
  /-- Objects that are there correspond to objects that are there, those to be made to those to be made. -/
  aligned : ∀ {t r s}, t ≠ .closures → ρ.refs t r s →
    (r < h.size t ∧ s < k.size t) ∨ ∃ n, r = h.size t + n ∧ s = k.size t + n
  objects : ∀ {t r s}, ρ.refs t r s → Object.Renamed ρ (h.object t r) (k.object t s)
  made : ∀ {r s}, ρ.refs .closures r s → r < h.closures.size ∧ s < k.closures.size

namespace Renaming.Joins

variable {h k h' k' : Heap} {t : Table} {r s : Ref} {o o' : Object} (hj : ρ.Joins h k)

include hj

theorem bytes (hr : ρ.refs .bytes r s) : k.bytesAt s = h.bytesAt r := by
  have ho := hj.objects hr
  generalize hx : h.object .bytes r = x, hy : k.object .bytes s = y at ho
  cases ho with
  | bytes bs => exact (Object.bytes.inj hy).trans (Object.bytes.inj hx).symm
  | _ => cases hx

theorem array (hr : ρ.refs .arrays r s) : RenamedAll ρ (h.arrayAt r).toList (k.arrayAt s).toList := by
  cases (hj.objects hr : Object.Renamed ρ (.items _) (.items _)) with
  | items hx => exact hx

theorem map (hr : ρ.refs .maps r s) : RenamedDict ρ (h.mapAt r) (k.mapAt s) := by
  cases (hj.objects hr : Object.Renamed ρ (.entries _) (.entries _)) with
  | entries hd => exact hd

theorem error (hr : ρ.refs .errors r s) : Renamed ρ (h.errorAt r) (k.errorAt s) := by
  cases (hj.objects hr : Object.Renamed ρ (.value _) (.value _)) with
  | value hv => exact hv

theorem iterator (hr : ρ.refs .iterators r s) : Iterator.Renamed ρ (h.iteratorAt r) (k.iteratorAt s) := by
  cases (hj.objects hr : Object.Renamed ρ (.iterator _) (.iterator _)) with
  | iterator hi => exact hi

theorem cell (hr : ρ.refs .cells r s) : Renamed ρ (h.cellAt r) (k.cellAt s) := by
  cases (hj.objects hr : Object.Renamed ρ (.value _) (.value _)) with
  | value hv => exact hv

theorem closure (hr : ρ.refs .closures r s) : Closure.Renamed ρ (h.closureAt r) (k.closureAt s) := by
  cases (hj.objects hr : Object.Renamed ρ (.closure _) (.closure _)) with
  | closure hc => exact hc

theorem hostAt (r : Ref) : k.hostAt r = h.hostAt r := by
  unfold Heap.hostAt
  rw [hj.hosts]

theorem next (ht : t ≠ .closures) : ρ.refs t (h.size t) (k.size t) ∧ ρ.changeable t (h.size t) := hj.fresh ht 0

theorem inside_iff (ht : t ≠ .closures) (hr : ρ.refs t r s) : r < h.size t ↔ s < k.size t := by
  rcases hj.aligned ht hr with hin | ⟨n, rfl, rfl⟩
  · exact iff_of_true hin.1 hin.2
  · exact iff_of_false (Nat.not_lt.mpr (Nat.le_add_right ..)) (Nat.not_lt.mpr (Nat.le_add_right _ _))

/-- The next new objects of a table are counterparts of nothing else. -/
theorem next_iff (ht : t ≠ .closures) (hr : ρ.refs t r s) : r = h.size t ↔ s = k.size t := by
  rcases hj.aligned ht hr with hin | ⟨n, rfl, rfl⟩
  · exact iff_of_false (Nat.ne_of_lt hin.1) (Nat.ne_of_lt hin.2)
  · exact Nat.add_eq_left.trans Nat.add_eq_left.symm

/-! ### Making and changing objects -/

/-- **Both sides make an object**, with contents that correspond. -/
theorem add (ha : h.Adds t o h') (ka : k.Adds t o' k') (ht : t ≠ .closures)
    (ho : Object.Renamed ρ o o') : ρ.Joins h' k' where
  unique := hj.unique
  unique_body := hj.unique_body
  left := hj.left.trans ha.later
  right := hj.right.trans ka.later
  hosts := by rw [ka.hosts, ha.hosts, hj.hosts]
  pace := by
    have hh := ha.size .closures
    have hk := ka.size .closures
    rw [if_neg (Ne.symm ht)] at hh hk
    simp only [Heap.size] at hh hk
    rw [hh, hk]
    exact hj.pace
  kept := by
    intro t' r hr hc
    rw [ha.object, if_neg]
    · exact hj.kept hr hc
    · rintro ⟨rfl, rfl⟩
      exact absurd (hj.left.size t') (Nat.not_le.mpr hr)
  kept_right := by
    intro t' s hs hc
    rw [ka.object, if_neg]
    · exact hj.kept_right hs hc
    · rintro ⟨rfl, rfl⟩
      exact absurd (hj.right.size t') (Nat.not_le.mpr hs)
  aligned := by
    intro t' r s ht' hr
    rw [ha.size, ka.size]
    split
    · rename_i he
      subst he
      rcases hj.aligned ht' hr with hin | ⟨n, rfl, rfl⟩
      · exact .inl ⟨lt_succ_of_lt hin.1, lt_succ_of_lt hin.2⟩
      · cases n with
        | zero => exact .inl ⟨lt_succ_self _, lt_succ_self _⟩
        | succ n => exact .inr ⟨n, by rw [Nat.add_assoc, Nat.add_comm 1 n], by rw [Nat.add_assoc, Nat.add_comm 1 n]⟩
    · exact hj.aligned ht' hr
  fresh := by
    intro t' ht' n
    rw [ha.size, ka.size]
    split
    · rename_i he
      subst he
      rw [Nat.add_assoc, Nat.add_assoc, Nat.add_comm 1 n]
      exact hj.fresh ht' (n + 1)
    · exact hj.fresh ht' n
  objects := by
    intro t' r s hr
    rw [ha.object, ka.object]
    -- the new objects correspond to each other and to nothing else
    by_cases hn : t' = t ∧ r = h.size t
    · obtain ⟨rfl, rfl⟩ := hn
      rw [if_pos ⟨rfl, rfl⟩, if_pos ⟨rfl, (hj.next_iff ht hr).mp rfl⟩]
      exact ho
    · rw [if_neg hn, if_neg]
      · exact hj.objects hr
      · rintro ⟨rfl, rfl⟩
        exact hn ⟨rfl, (hj.next_iff ht hr).mpr rfl⟩
  made := by
    intro r s hr
    have hh := ha.later.size .closures
    have hk := ka.later.size .closures
    exact ⟨Nat.lt_of_lt_of_le (hj.made hr).1 hh, Nat.lt_of_lt_of_le (hj.made hr).2 hk⟩

/-- **Both sides replace an object that may be changed**, with contents that correspond. -/
theorem set (hr : ρ.refs t r s) (hc : ρ.changeable t r) (ht : t ≠ .closures) (ht' : t ≠ .bytes)
    (hs : h.Sets t r o h') (ks : k.Sets t s o' k') (ho : Object.Renamed ρ o o') : ρ.Joins h' k' where
  unique := hj.unique
  unique_body := hj.unique_body
  left := hj.left.trans (hs.later ht)
  right := hj.right.trans (ks.later ht)
  hosts := by rw [ks.hosts, hs.hosts, hj.hosts]
  pace := by
    have hh := hs.size .closures
    have hk := ks.size .closures
    simp only [Heap.size] at hh hk
    rw [hh, hk]
    exact hj.pace
  kept := by
    intro t' r' hr' hc'
    rw [hs.object, if_neg]
    · exact hj.kept hr' hc'
    · rintro ⟨rfl, rfl, -⟩
      exact hc' hc
  kept_right := by
    intro t' s' hs' hc'
    rw [ks.object, if_neg]
    · exact hj.kept_right hs' hc'
    · rintro ⟨rfl, rfl, -⟩
      exact hc' r hr hc
  aligned := by
    intro t' r' s' ht' hr'
    rw [hs.size, ks.size]
    exact hj.aligned ht' hr'
  fresh := by
    intro t' ht' n
    rw [hs.size, ks.size]
    exact hj.fresh ht' n
  objects := by
    intro t' r' s' hr'
    rw [hs.object, ks.object]
    -- each object has one counterpart, so one side sees the change exactly if the other does
    by_cases hn : t' = t ∧ r = r' ∧ r' < h.size t
    · obtain ⟨rfl, rfl, hlt⟩ := hn
      rw [if_pos ⟨rfl, rfl, hlt⟩, if_pos ⟨rfl, (hj.unique ht' hr hr').mp rfl, (hj.inside_iff ht hr').mp hlt⟩]
      exact ho
    · rw [if_neg hn, if_neg]
      · exact hj.objects hr'
      · rintro ⟨rfl, rfl, hlt⟩
        exact hn ⟨rfl, (hj.unique ht' hr hr').mpr rfl, (hj.inside_iff ht hr').mpr hlt⟩
  made := by
    intro r' s' hr'
    have hh := hs.size .closures
    have hk := ks.size .closures
    simp only [Heap.size] at hh hk
    rw [hh, hk]
    exact hj.made hr'

theorem newBytes (bs : Array UInt8) :
    Renamed ρ (h.newBytes bs).1 (k.newBytes bs).1 ∧ ρ.Joins (h.newBytes bs).2 (k.newBytes bs).2 :=
  ⟨.bytes (hj.next (t := .bytes) nofun).1, hj.add (h.newBytes_adds bs) (k.newBytes_adds bs) nofun (.bytes bs)⟩

theorem newArray (kind : Mutability) (hx : RenamedAll ρ xs.toList ys.toList) :
    Renamed ρ (h.newArray kind xs).1 (k.newArray kind ys).1 ∧ ρ.Joins (h.newArray kind xs).2 (k.newArray kind ys).2 :=
  have hn := hj.next (t := .arrays) nofun
  ⟨.array hn.1 fun _ => hn.2, hj.add (h.newArray_adds kind xs) (k.newArray_adds kind ys) nofun (.items hx)⟩

theorem newMap (kind : Mutability) (hd : RenamedDict ρ d e) :
    Renamed ρ (h.newMap kind d).1 (k.newMap kind e).1 ∧ ρ.Joins (h.newMap kind d).2 (k.newMap kind e).2 :=
  have hn := hj.next (t := .maps) nofun
  ⟨.map hn.1 fun _ => hn.2, hj.add (h.newMap_adds kind d) (k.newMap_adds kind e) nofun (.entries hd)⟩

theorem newError (hv : Renamed ρ v w) :
    Renamed ρ (h.newError v).1 (k.newError w).1 ∧ ρ.Joins (h.newError v).2 (k.newError w).2 :=
  ⟨.error (hj.next (t := .errors) nofun).1, hj.add (h.newError_adds v) (k.newError_adds w) nofun (.value hv)⟩

theorem newIterator (hi : Iterator.Renamed ρ i j) :
    Renamed ρ (h.newIterator i).1 (k.newIterator j).1 ∧ ρ.Joins (h.newIterator i).2 (k.newIterator j).2 :=
  have hn := hj.next (t := .iterators) nofun
  ⟨.iterator hn.1 hn.2, hj.add (h.newIterator_adds i) (k.newIterator_adds j) nofun (.iterator hi)⟩

theorem newCell (hv : Renamed ρ v w) :
    (ρ.refs .cells (h.newCell v).1 (k.newCell w).1 ∧ ρ.changeable .cells (h.newCell v).1) ∧
      ρ.Joins (h.newCell v).2 (k.newCell w).2 :=
  ⟨hj.next (t := .cells) nofun, hj.add (h.newCell_adds v) (k.newCell_adds w) nofun (.value hv)⟩

theorem setArray (hr : ρ.refs .arrays r s) (hc : ρ.changeable .arrays r)
    (hx : RenamedAll ρ xs.toList ys.toList) : ρ.Joins (h.setArray r xs) (k.setArray s ys) :=
  hj.set hr hc nofun nofun (h.setArray_sets r xs) (k.setArray_sets s ys) (.items hx)

theorem setCell (hr : ρ.refs .cells r s) (hc : ρ.changeable .cells r) (hv : Renamed ρ v w) :
    ρ.Joins (h.setCell r v) (k.setCell s w) :=
  hj.set hr hc nofun nofun (h.setCell_sets r v) (k.setCell_sets s w) (.value hv)

theorem setIterator (hr : ρ.refs .iterators r s) (hc : ρ.changeable .iterators r)
    (hi : Iterator.Renamed ρ i j) : ρ.Joins (h.setIterator r i) (k.setIterator s j) :=
  hj.set hr hc nofun nofun (h.setIterator_sets r i) (k.setIterator_sets s j) (.iterator hi)

theorem modifyArray (hr : ρ.refs .arrays r s) (hc : ρ.changeable .arrays r)
    (hf : RenamedAll ρ (h.arrayAt r).toList (k.arrayAt s).toList →
      RenamedAll ρ (f (h.arrayAt r)).toList (g (k.arrayAt s)).toList) :
    ρ.Joins { h with arrays := h.arrays.modify r f } { k with arrays := k.arrays.modify s g } :=
  hj.set hr hc nofun nofun (h.modifyArray_sets r f) (k.modifyArray_sets s g) (.items (hf (hj.array hr)))

theorem modifyMap (hr : ρ.refs .maps r s) (hc : ρ.changeable .maps r)
    (hf : RenamedDict ρ (h.mapAt r) (k.mapAt s) → RenamedDict ρ (f (h.mapAt r)) (g (k.mapAt s))) :
    ρ.Joins { h with maps := h.maps.modify r f } { k with maps := k.maps.modify s g } :=
  hj.set hr hc nofun nofun (h.modifyMap_sets r f) (k.modifyMap_sets s g) (.entries (hf (hj.map hr)))

end Renaming.Joins

/-! ## New closures -/

/-- The renaming once both sides have made a closure. -/
def Renaming.withClosure (ρ : Renaming) (r s : Ref) : Renaming :=
  { ρ with refs := fun t r' s' => ρ.refs t r' s' ∨ (t = .closures ∧ r' = r ∧ s' = s) }

theorem Renaming.le_withClosure (ρ : Renaming) : ρ.Le (ρ.withClosure r s) := ⟨.inl, id, id, rfl⟩

/-- **A new closure** is known from then on. -/
theorem Renaming.Joins.newClosure (hj : ρ.Joins h k) (hc : Closure.Renamed ρ c d) :
    let ρ' := ρ.withClosure h.closures.size k.closures.size
    Renamed ρ' (h.newClosure c).1 (k.newClosure d).1 ∧ ρ'.Joins (h.newClosure c).2 (k.newClosure d).2 := by
  intro ρ'
  have hle : ρ.Le ρ' := ρ.le_withClosure
  have ha := h.newClosure_adds c
  have ka := k.newClosure_adds d
  refine ⟨.closure (.inr ⟨rfl, rfl, rfl⟩), {
    unique := ?_, unique_body := hj.unique_body, left := hj.left.trans ha.later
    right := hj.right.trans ka.later, hosts := hj.hosts, pace := ?_, kept := ?_, kept_right := ?_, fresh := ?_
    aligned := ?_, objects := ?_, made := ?_ }⟩
  · intro t r s r' s' hb hr hr'
    rcases hr with hr | ⟨rfl, rfl, rfl⟩ <;> rcases hr' with hr' | ⟨ht, rfl, rfl⟩
    · exact hj.unique hb hr hr'
    · subst ht
      have hm := hj.made hr
      exact iff_of_false (Nat.ne_of_lt hm.1) (Nat.ne_of_lt hm.2)
    · have hm := hj.made hr'
      exact iff_of_false (Nat.ne_of_gt hm.1) (Nat.ne_of_gt hm.2)
    · exact iff_of_true rfl rfl
  · have hp := hj.pace
    simp only [Heap.newClosure, Array.size_push]
    show _ + 1 + ρ.right.closures.size = _ + 1 + ρ.left.closures.size
    omega
  · intro t r hr hcr
    rw [ha.object, if_neg]
    · exact hj.kept hr hcr
    · rintro ⟨rfl, rfl⟩
      exact absurd (hj.left.size .closures) (Nat.not_le.mpr hr)
  · intro t s hs hcs
    rw [ka.object, if_neg]
    · exact hj.kept_right hs fun r hr => hcs r (.inl hr)
    · rintro ⟨rfl, rfl⟩
      exact absurd (hj.right.size .closures) (Nat.not_le.mpr hs)
  · intro t ht n
    rw [ha.size, ka.size, if_neg ht, if_neg ht]
    exact ⟨.inl (hj.fresh ht n).1, (hj.fresh ht n).2⟩
  · intro t r s ht hr
    rw [ha.size, ka.size, if_neg ht, if_neg ht]
    rcases hr with hr | ⟨rfl, -, -⟩
    · exact hj.aligned ht hr
    · exact absurd rfl ht
  · intro t r s hr
    rw [ha.object, ka.object]
    rcases hr with hr | ⟨rfl, rfl, rfl⟩
    · have hold : t = .closures → r ≠ h.closures.size ∧ s ≠ k.closures.size := by
        rintro rfl
        exact ⟨Nat.ne_of_lt (hj.made hr).1, Nat.ne_of_lt (hj.made hr).2⟩
      rw [if_neg fun hn => (hold hn.1).1 hn.2, if_neg fun hn => (hold hn.1).2 hn.2]
      exact hle.object (hj.objects hr)
    · rw [if_pos ⟨rfl, rfl⟩, if_pos ⟨rfl, rfl⟩]
      exact .closure (hle.closure hc)
  · intro r s hr
    simp only [Heap.newClosure, Array.size_push]
    rcases hr with hr | ⟨-, rfl, rfl⟩
    · exact ⟨lt_succ_of_lt (hj.made hr).1, lt_succ_of_lt (hj.made hr).2⟩
    · exact ⟨lt_succ_self _, lt_succ_self _⟩

/-! ## Operations on heaps -/

namespace Renaming

/-- Both succeed with results in `R`, or both fail in the same way; the heaps stay joined. -/
inductive Results (ρ : Renaming) {ε α β : Type} (R : α → β → Prop) :
    EStateM.Result ε Heap α → EStateM.Result ε Heap β → Prop
  | ok {a b h k} (result : R a b) (heaps : ρ.Joins h k) : Results ρ R (.ok a h) (.ok b k)
  | error {e h k} (heaps : ρ.Joins h k) : Results ρ R (.error e h) (.error e k)

/-- From joined heaps, both operations do the same. -/
def Acts (ρ : Renaming) {ε α β : Type} (R : α → β → Prop) (x : EStateM ε Heap α) (y : EStateM ε Heap β) : Prop :=
  ∀ ⦃h k : Heap⦄, ρ.Joins h k → ρ.Results R (x h) (y k)

namespace Acts

variable {ε α β α' β' : Type} {R : α → β → Prop} {S : α' → β' → Prop}

theorem pure (h : R a b) : ρ.Acts R (pure a : EStateM ε Heap α) (pure b : EStateM ε Heap β) := fun _ _ hj => .ok h hj

theorem throw : ρ.Acts R (throw e : EStateM ε Heap α) (throw e : EStateM ε Heap β) := fun _ _ hj => .error hj

theorem bind (hx : ρ.Acts R x y) (hf : ∀ a b, R a b → ρ.Acts S (f a) (g b)) : ρ.Acts S (x >>= f) (y >>= g) := by
  intro h k hj
  show ρ.Results S (EStateM.bind x f h) (EStateM.bind y g k)
  unfold EStateM.bind
  have hxy := hx hj
  generalize x h = p at hxy ⊢
  generalize y k = q at hxy ⊢
  cases hxy with
  | ok hr hj' => exact hf _ _ hr hj'
  | error hj' => exact .error hj'

theorem read (hf : ∀ h k, ρ.Joins h k → R (f h) (g k)) :
    ρ.Acts R (Action.read f) (Action.read g) := fun h k hj => .ok (hf h k hj) hj

theorem make (hf : ∀ h k, ρ.Joins h k → R (f h).1 (g k).1 ∧ ρ.Joins (f h).2 (g k).2) :
    ρ.Acts R (Action.make f) (Action.make g) := fun h k hj => .ok (hf h k hj).1 (hf h k hj).2

theorem newBytes (bs : Array UInt8) : ρ.Acts (Renamed ρ) (Action.newBytes bs) (Action.newBytes bs) :=
  make fun _ _ hj => hj.newBytes bs

theorem newArray (hx : RenamedAll ρ xs.toList ys.toList) :
    ρ.Acts (Renamed ρ) (Action.newArray xs) (Action.newArray ys) := make fun _ _ hj => hj.newArray .mutable hx

theorem newMap (hd : RenamedDict ρ d e) :
    ρ.Acts (Renamed ρ) (Action.newMap d) (Action.newMap e) := make fun _ _ hj => hj.newMap .mutable hd

theorem newError (hv : Renamed ρ v w) :
    ρ.Acts (Renamed ρ) (Action.newError v) (Action.newError w) := make fun _ _ hj => hj.newError hv

theorem mapM (hf : ∀ a b, Q a b → ρ.Acts R (f a) (g b)) (hx : Forall₂ Q xs ys) :
    ρ.Acts (Forall₂ R) (xs.mapM f) (ys.mapM g) := by
  induction hx with
  | nil => exact pure .nil
  | cons hab _ ih =>
    rw [mapM_cons, mapM_cons]
    exact bind (hf _ _ hab) fun _ _ hr => bind ih fun _ _ hrs => pure (.cons hr hrs)

end Acts

end Renaming

end Scripting
