import Mathlib.Data.Finset.Card
import Mathlib.Data.List.Forall2
import Mathlib.Logic.Relation
import Scripting.Proofs.Image.Binary
/-!
# `Proofs.Image.Tree` — constants as finite trees

A constant *holds* what an array, a map or an error has in it (`Value.Holds`), and it *is a tree* when
going down ends on every way and every object on the way exists (`Value.IsTree`). The functions that
follow a constant down count their steps and give up after `Heap.nestingBound`. A tree is never that deep
(`Value.IsTree.withinDepth`): on one way down no container comes twice, so there are at most as many
levels as containers, and one more.

`SameTree` says that two constants, each in its own heap, have the same shape and contents; equality of
constants follows from it (`SameTree.sameConstantTo`).
-/

namespace Scripting

open Relation List Value

namespace Value

/-! ## What is in a constant -/

/-- `w` is an item of the array `v`, a value of the map `v` or the payload of the error `v`. -/
inductive Holds (h : Heap) : Value → Value → Prop
  | item {kind r w} (mem : w ∈ h.arrayAt r) : Holds h (.array kind r) w
  | value {kind r w} (mem : w ∈ (h.mapAt r).values) : Holds h (.map kind r) w
  | payload {r} : Holds h (.error r) (h.errorAt r)

/-- `w` is `v` or in it, at any depth. -/
def Contains (h : Heap) : Value → Value → Prop := ReflTransGen (Holds h)

/-- The object that a value refers to exists, and its numbers and sizes are below `wordLimit`. -/
def Fits (h : Heap) : Value → Prop
  | .str s => s.utf8ByteSize < wordLimit
  | .bytes r => r < h.bytes.size ∧ (h.bytesAt r).size < wordLimit
  | .array _ r => r < h.arrays.size ∧ (h.arrayAt r).size < wordLimit
  | .map _ r =>
    r < h.maps.size ∧ (h.mapAt r).size < wordLimit ∧ ∀ key ∈ (h.mapAt r).keys, key.utf8ByteSize < wordLimit
  | .error r => r < h.errors.size
  | .function r => r < h.routines.size ∧ (h.routineAt r).InWords
  | _ => True

/-- A finite tree of objects that exist. -/
inductive IsTree (h : Heap) : Value → Prop
  | node {v} (fits : v.Fits h) (parts : ∀ w, v.Holds h w → IsTree h w) : IsTree h v

variable {h k : Heap} {v w : Value}

theorem IsTree.fits (hv : v.IsTree h) : v.Fits h := by
  cases hv with
  | node fits _ => exact fits

theorem IsTree.parts (hv : v.IsTree h) (hw : v.Holds h w) : w.IsTree h := by
  cases hv with
  | node _ parts => exact parts w hw

theorem IsTree.no_cycle (hv : v.IsTree h) : ¬TransGen (Holds h) v v := by
  induction hv with
  | @node v _ _ ih =>
    intro hcycle
    obtain ⟨w, hw, hback⟩ := TransGen.head'_iff.mp hcycle
    exact ih w hw (TransGen.tail' hback hw)

/-! ## How deep a tree is -/

/-- Every way down from `v` ends after fewer than `depth` steps. -/
def WithinDepth (h : Heap) : Nat → Value → Prop
  | 0, _ => False
  | depth + 1, v => ∀ w, v.Holds h w → WithinDepth h depth w

theorem WithinDepth.mono (hd : d ≤ d') (hv : WithinDepth h d v) : WithinDepth h d' v := by
  induction d generalizing d' v with
  | zero => exact hv.elim
  | succ d ih =>
    obtain ⟨d', rfl⟩ : ∃ n, d' = n + 1 := ⟨d' - 1, by omega⟩
    intro w hw
    exact ih (by omega) (hv w hw)

/-- The number of a container among all containers: first the arrays, then the maps, then the errors. -/
def place? (h : Heap) : Value → Option Nat
  | .array _ r => some r
  | .map _ r => some (h.arrays.size + r)
  | .error r => some (h.arrays.size + h.maps.size + r)
  | _ => none

theorem Holds.place? (hw : v.Holds h w) : ∃ n, v.place? h = some n := by
  cases hw with
  | item _ => exact ⟨_, rfl⟩
  | value _ => exact ⟨_, rfl⟩
  | payload => exact ⟨_, rfl⟩

theorem Fits.place?_lt (hv : v.Fits h) (hn : v.place? h = some n) :
    n < h.arrays.size + h.maps.size + h.errors.size := by
  cases v with
  | array kind r =>
    obtain rfl := Option.some.inj hn
    exact Nat.lt_of_lt_of_le hv.1 (by omega)
  | map kind r =>
    obtain rfl := Option.some.inj hn
    exact Nat.lt_of_lt_of_le (Nat.add_lt_add_left hv.1 _) (by omega)
  | error r =>
    cases hn
    exact Nat.add_lt_add_left hv _
  | _ => cases hn

/-- What a container holds is found by its number alone. -/
theorem Holds.of_place? {u : Value} (hv : v.Fits h) (hu : u.Fits h) (hn : v.place? h = some n)
    (hm : u.place? h = some n) (hw : v.Holds h w) : u.Holds h w := by
  have hsum {a r : Nat} (hr : r < a) (s : Nat) : r ≠ a + s := by omega
  cases hw with
  | item mem =>
    cases hn
    cases u with
    | array kind r => cases hm; exact .item mem
    | map kind r => cases hm; exact absurd rfl (hsum hv.1 r)
    | error r =>
      injection hm with hm
      rw [Nat.add_assoc] at hm
      exact absurd hm.symm (hsum hv.1 _)
    | _ => cases hm
  | @value kind s _ mem =>
    injection hn with hn
    subst hn
    cases u with
    | array kind r => cases hm; exact absurd rfl (hsum hu.1 s)
    | map kind r =>
      injection hm with hm
      obtain rfl := Nat.add_left_cancel hm
      exact .value mem
    | error r =>
      injection hm with hm
      rw [Nat.add_assoc] at hm
      exact absurd (Nat.add_left_cancel hm).symm (hsum hv.1 r)
    | _ => cases hm
  | @payload s =>
    injection hn with hn
    subst hn
    cases u with
    | array kind r =>
      injection hm with hm
      rw [Nat.add_assoc] at hm
      exact absurd hm (hsum hu.1 _)
    | map kind r =>
      injection hm with hm
      rw [Nat.add_assoc] at hm
      exact absurd (Nat.add_left_cancel hm) (hsum hu.1 s)
    | error r =>
      injection hm with hm
      obtain rfl := Nat.add_left_cancel hm
      exact .payload
    | _ => cases hm

theorem IsTree.contains (hv : v.IsTree h) (hu : v.Contains h u) : u.IsTree h := by
  induction hu with
  | refl => exact hv
  | tail _ hw ih => exact ih.parts hw

open Classical in
/-- The containers in a value. -/
noncomputable def places (h : Heap) (v : Value) : Finset Nat :=
  (Finset.range (h.arrays.size + h.maps.size + h.errors.size)).filter
    fun n => ∃ u, v.Contains h u ∧ u.place? h = some n

open Classical in
theorem mem_places : n ∈ places h v ↔
    n < h.arrays.size + h.maps.size + h.errors.size ∧ ∃ u, v.Contains h u ∧ u.place? h = some n := by
  unfold places
  rw [Finset.mem_filter, Finset.mem_range]

theorem IsTree.places_ssubset (hv : v.IsTree h) (hw : v.Holds h w) : places h w ⊂ places h v := by
  obtain ⟨n, hn⟩ := hw.place?
  have hsub : places h w ⊆ places h v := by
    intro m hm
    obtain ⟨hlt, u, hu, hplace⟩ := mem_places.mp hm
    exact mem_places.mpr ⟨hlt, u, ReflTransGen.head hw hu, hplace⟩
  have hself : n ∈ places h v := mem_places.mpr ⟨hv.fits.place?_lt hn, v, .refl, hn⟩
  have hnot : n ∉ places h w := by
    intro hm
    obtain ⟨_, u, hu, hplace⟩ := mem_places.mp hm
    have hwtree : w.IsTree h := hv.parts hw
    have hback : u.Holds h w := hw.of_place? hv.fits (hwtree.contains hu).fits hn hplace
    exact hwtree.no_cycle (TransGen.tail' hu hback)
  exact Finset.ssubset_iff_subset_ne.mpr ⟨hsub, fun heq => hnot (heq ▸ hself)⟩

theorem IsTree.withinDepth_places (hv : v.IsTree h) : WithinDepth h ((places h v).card + 1) v := by
  induction hv with
  | @node v fits parts ih =>
    intro w hw
    have hlt : (places h w).card < (places h v).card :=
      Finset.card_lt_card (IsTree.places_ssubset (.node fits parts) hw)
    exact (ih w hw).mono hlt

open Classical in
/-- **A tree is never deeper than the bound** on nesting. -/
theorem IsTree.withinDepth (hv : v.IsTree h) : WithinDepth h h.nestingBound v := by
  refine hv.withinDepth_places.mono (Nat.add_le_add_right ?_ 1)
  refine (Finset.card_filter_le _ _).trans ?_
  rw [Finset.card_range]

end Value

/-! ## Heaps that keep their objects -/

/-- `k` has the objects of `h` under the same references, and perhaps more. -/
structure Heap.Extends (h k : Heap) : Prop where
  bytes : ∀ {r : Nat} {x}, h.bytes[r]? = some x → k.bytes[r]? = some x
  arrays : ∀ {r : Nat} {x}, h.arrays[r]? = some x → k.arrays[r]? = some x
  maps : ∀ {r : Nat} {x}, h.maps[r]? = some x → k.maps[r]? = some x
  errors : ∀ {r : Nat} {x}, h.errors[r]? = some x → k.errors[r]? = some x
  routines : ∀ {r : Nat} {x}, h.routines[r]? = some x → k.routines[r]? = some x

namespace Heap.Extends

variable {h k l : Heap} {r : Ref}

theorem refl (h : Heap) : h.Extends h := ⟨id, id, id, id, id⟩

theorem trans (hk : h.Extends k) (kl : k.Extends l) : h.Extends l where
  bytes hx := kl.bytes (hk.bytes hx)
  arrays hx := kl.arrays (hk.arrays hx)
  maps hx := kl.maps (hk.maps hx)
  errors hx := kl.errors (hk.errors hx)
  routines hx := kl.routines (hk.routines hx)

theorem getElem?_push {xs : Array α} {i : Nat} (hx : xs[i]? = some x) : (xs.push y)[i]? = some x := by
  obtain ⟨hi, rfl⟩ := Array.getElem?_eq_some_iff.mp hx
  rw [Array.getElem?_push_lt hi]

theorem newBytes (h : Heap) (bs : Array UInt8) : h.Extends (h.newBytes bs).2 := ⟨getElem?_push, id, id, id, id⟩

theorem newArray (h : Heap) (kind : Mutability) (xs : Array Value) : h.Extends (h.newArray kind xs).2 :=
  ⟨id, getElem?_push, id, id, id⟩

theorem newMap (h : Heap) (kind : Mutability) (d : Dict Value) : h.Extends (h.newMap kind d).2 :=
  ⟨id, id, getElem?_push, id, id⟩

theorem newError (h : Heap) (v : Value) : h.Extends (h.newError v).2 := ⟨id, id, id, getElem?_push, id⟩

theorem newFunction (h : Heap) (f : Routine) : h.Extends (h.newFunction f).2 := ⟨id, id, id, id, getElem?_push⟩

theorem getD_eq {xs ys : Array α} (hi : i < xs.size)
    (hxs : ∀ {j : Nat} {x}, xs[j]? = some x → ys[j]? = some x) : ys.getD i d = xs.getD i d := by
  rw [Array.getD_eq_getD_getElem?, Array.getD_eq_getD_getElem?, hxs (Array.getElem?_eq_getElem hi),
    Array.getElem?_eq_getElem hi]

theorem bytesAt (he : h.Extends k) (hr : r < h.bytes.size) : k.bytesAt r = h.bytesAt r := getD_eq hr he.bytes

theorem arrayAt (he : h.Extends k) (hr : r < h.arrays.size) : k.arrayAt r = h.arrayAt r := getD_eq hr he.arrays

theorem mapAt (he : h.Extends k) (hr : r < h.maps.size) : k.mapAt r = h.mapAt r := getD_eq hr he.maps

theorem errorAt (he : h.Extends k) (hr : r < h.errors.size) : k.errorAt r = h.errorAt r := getD_eq hr he.errors

theorem routineAt (he : h.Extends k) (hr : r < h.routines.size) : k.routineAt r = h.routineAt r :=
  getD_eq hr he.routines

end Heap.Extends

theorem Value.Fits.extend {v : Value} (he : h.Extends k) (hv : v.Fits h) : v.Fits k := by
  have hsize {α : Type} {xs ys : Array α} {r : Nat} (hr : r < xs.size)
      (hxs : ∀ {j : Nat} {x}, xs[j]? = some x → ys[j]? = some x) : r < ys.size :=
    (Array.getElem?_eq_some_iff.mp (hxs (Array.getElem?_eq_getElem hr))).1
  cases v with
  | bytes r => exact ⟨hsize hv.1 he.bytes, by rw [he.bytesAt hv.1]; exact hv.2⟩
  | array kind r => exact ⟨hsize hv.1 he.arrays, by rw [he.arrayAt hv.1]; exact hv.2⟩
  | map kind r => exact ⟨hsize hv.1 he.maps, by rw [he.mapAt hv.1]; exact hv.2⟩
  | error r => exact hsize hv he.errors
  | function r => exact ⟨hsize hv.1 he.routines, by rw [he.routineAt hv.1]; exact hv.2⟩
  | _ => exact hv

theorem Value.Holds.of_extends {v w : Value} (hv : v.Fits h) (he : h.Extends k) (hw : v.Holds k w) : v.Holds h w := by
  cases hw with
  | item mem =>
    rw [he.arrayAt hv.1] at mem
    exact .item mem
  | value mem =>
    rw [he.mapAt hv.1] at mem
    exact .value mem
  | payload =>
    rw [he.errorAt hv]
    exact .payload

theorem Value.IsTree.extend {v : Value} (he : h.Extends k) (hv : v.IsTree h) : v.IsTree k := by
  induction hv with
  | node fits _ ih => exact .node (fits.extend he) fun w hw => ih w (hw.of_extends fits he)

/-! ## The same tree in two heaps -/

/-- Does the value carry all its content itself, without an object in the heap? -/
def Value.isPlain : Value → Bool
  | .undefined | .int _ | .float _ | .char _ | .bool _ | .str _ | .time _ | .builtin _ => true
  | _ => false

/-- **The same constant**, the first in `h` and the second in `k`: of the same variant at every level, with
the same bits, texts, bytes and routines, and with the entries of maps in the same order. -/
inductive SameTree (h k : Heap) : Value → Value → Prop
  | plain {v} (plain : v.isPlain = true) : SameTree h k v v
  | bytes {r s} (content : h.bytesAt r = k.bytesAt s) : SameTree h k (.bytes r) (.bytes s)
  | array {kind r s} (items : Forall₂ (SameTree h k) (h.arrayAt r).toList (k.arrayAt s).toList) :
      SameTree h k (.array kind r) (.array kind s)
  | map {kind r s} (keys : (h.mapAt r).keys = (k.mapAt s).keys)
      (values : Forall₂ (SameTree h k) (h.mapAt r).values (k.mapAt s).values) :
      SameTree h k (.map kind r) (.map kind s)
  | error {r s} (payload : SameTree h k (h.errorAt r) (k.errorAt s)) : SameTree h k (.error r) (.error s)
  | function {r s} (routine : h.routineAt r = k.routineAt s) : SameTree h k (.function r) (.function s)

namespace SameTree

variable {h h' k : Heap} {v w : Value}

theorem forall₂_of_mem (hall : ∀ x ∈ xs, ∀ y, R x y → S x y) (hs : Forall₂ R xs ys) : Forall₂ S xs ys :=
  ((forall₂_and_left xs ys).mpr ⟨hall, hs⟩).imp fun _ y hxy => hxy.1 y hxy.2

theorem extend (hv : v.IsTree h) (he : h.Extends h') (hs : SameTree h k v w) : SameTree h' k v w := by
  induction hv generalizing w with
  | @node v fits parts ih =>
    cases hs with
    | plain hp => exact .plain hp
    | bytes content => exact .bytes (by rw [he.bytesAt fits.1, content])
    | array items =>
      refine .array ?_
      rw [he.arrayAt fits.1]
      exact forall₂_of_mem (fun x hx y hxy => ih x (.item (by simpa using hx)) hxy) items
    | map keys values =>
      refine .map (by rw [he.mapAt fits.1, keys]) ?_
      rw [he.mapAt fits.1]
      exact forall₂_of_mem (fun x hx y hxy => ih x (.value hx) hxy) values
    | error payload =>
      refine .error ?_
      rw [he.errorAt fits]
      exact ih _ .payload payload
    | function routine => exact .function (by rw [he.routineAt fits.1, routine])

theorem typeName_eq (hs : SameTree h h v w) : v.typeName h = w.typeName h := by
  cases hs with
  | array _ => rename_i kind _ _ _; cases kind <;> rfl
  | map _ _ => rename_i kind _ _ _ _; cases kind <;> rfl
  | _ => rfl

/-- A plain value that is not a floating-point number equals itself. Those are compared by their bits,
not as numbers. -/
theorem equals_self (hp : v.isPlain = true) (hf : ∀ x, v ≠ .float x) : v.equals h v = true := by
  have hself (depth : Nat) : v.equalsTo h depth v = true := by
    cases v with
    | float x => exact absurd rfl (hf x)
    | bytes _ | array _ _ | map _ _ | error _ | function _ | closure _ | host _ | iterator _ => cases hp
    | _ => cases depth <;> simp [equalsTo, isContainer, atomEq]
  exact hself _

theorem all_zip {p : Value → Value → Bool} (hall : ∀ x ∈ xs, ∀ y, R x y → p x y = true)
    (hs : Forall₂ R xs ys) : ((xs.zip ys).all fun e => p e.1 e.2) = true := by
  refine all_eq_true.mpr fun e he => ?_
  have hR : R e.1 e.2 := forall₂_zip hs he
  exact hall e.1 (of_mem_zip he).1 e.2 hR

theorem find?_of_forall₂ {es fs : List (String × Value)} (hn : (es.map Prod.fst).Nodup)
    (hkeys : es.map Prod.fst = fs.map Prod.fst) (hs : Forall₂ R (es.map Prod.snd) (fs.map Prod.snd))
    (he : e ∈ es) : ∃ y, Dict.find? e.1 fs = some y ∧ R e.2 y := by
  induction es generalizing fs with
  | nil => cases he
  | cons e' es ih =>
    cases fs with
    | nil => cases hkeys
    | cons f fs =>
      obtain ⟨hfirst, hrest⟩ := cons.inj hkeys
      obtain ⟨hnotin, hn⟩ := nodup_cons.mp hn
      cases hs with
      | cons hhead htail =>
        rcases mem_cons.mp he with rfl | he
        · exact ⟨f.2, if_pos hfirst.symm, hhead⟩
        · have hne : f.1 ≠ e.1 := by
            rw [← hfirst]
            intro heq
            exact hnotin (heq ▸ mem_map_of_mem he)
          obtain ⟨y, hy, hR⟩ := ih hn hrest htail he
          exact ⟨y, (if_neg hne).trans hy, hR⟩

/-- **The same constants are equal**, as far down as they go. -/
theorem sameConstantTo {depth : Nat} (hd : v.WithinDepth h depth) (hs : SameTree h h v w) :
    v.sameConstantTo h depth w = true := by
  induction depth generalizing v w with
  | zero => exact hd.elim
  | succ depth ih =>
    have hname : (v.typeName h == w.typeName h) = true := beq_iff_eq.mpr hs.typeName_eq
    unfold sameConstantTo
    rw [hname, Bool.true_and]
    cases hs with
    | plain hp =>
      cases v with
      | float x => exact beq_self_eq_true x
      | bytes _ | array _ _ | map _ _ | error _ | function _ | closure _ | host _ | iterator _ => cases hp
      | _ => exact equals_self hp nofun
    | bytes content => simp [equals, equalsTo, atomEq, content, Limits.nesting]
    | array items =>
      have hall := all_zip (fun x hx y hxy => ih (hd x (.item (by simpa using hx))) hxy) items
      simp only [items.length_eq, beq_self_eq_true, Bool.true_and]
      exact hall
    | @map _ r s keys values =>
      have hsize : (h.mapAt r).size = (h.mapAt s).size := by
        have := values.length_eq
        simpa [Dict.values, Dict.size] using this
      simp only [hsize, beq_self_eq_true, Bool.true_and]
      refine all_eq_true.mpr fun e he => ?_
      obtain ⟨y, hy, hxy⟩ := find?_of_forall₂ (h.mapAt r).nodup keys values he
      have hsame : e.2.sameConstantTo h depth y = true := ih (hd e.2 (.value (mem_map_of_mem he))) hxy
      rw [show (h.mapAt s).get? e.1 = some y from hy]
      exact hsame
    | error payload => exact ih (hd _ .payload) payload
    | @function r s routine =>
      show (h.routineAt r == h.routineAt s) = true
      rw [routine]
      exact beq_self_eq_true _

end SameTree

end Scripting
