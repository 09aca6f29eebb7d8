import Scripting.Proofs.Value.Native
/-!
# `Proofs.Value.Transfer` — a world is a renaming

A world relates heaps whose objects have the same numbers. It is the renaming that gives every object its
own number (`World.renaming`), so what is proved of operations under every renaming holds in every world.
-/

namespace Scripting

variable {W : World} {h k h' k' : Heap} {v w a a' b b' : Value} {i j : Iterator}

/-- The objects of a table that a program may come across. -/
def World.Holds (W : World) : Table → Ref → Prop
  | .bytes, _ => True
  | .arrays, r => W.arrays r
  | .maps, r => W.maps r
  | .errors, r => W.errors r
  | .iterators, r => W.iterators r
  | .cells, r => W.cells r
  | .closures, r => ∃ n, W.closures r n

/-- The renaming under which each object keeps its number, from two heaps on. -/
def World.renaming (W : World) (h k : Heap) : Renaming where
  refs t r s := r = s ∧ W.Holds t r
  changeable _ _ := True
  body := W.body
  skips := false
  left := h
  right := k

/-! ## Values -/

theorem renamed_eq_related (W : World) (h k : Heap) : Renamed (W.renaming h k) = Related W := by
  funext v w
  refine propext ⟨fun hv => ?_, fun hv => ?_⟩
  · cases hv with
    | bytes hr | array hr _ | map hr _ | error hr | closure hr | iterator hr _ =>
      obtain ⟨rfl, hl⟩ := hr
      exact .same hl
    | function hb => exact .function hb
    | _ => exact .same trivial
  · cases hv with
    | function hb => exact .function hb
    | same hl =>
      cases v with
      | bytes r => exact .bytes ⟨rfl, trivial⟩
      | array kind r => exact .array ⟨rfl, hl⟩ fun _ => trivial
      | map kind r => exact .map ⟨rfl, hl⟩ fun _ => trivial
      | error r => exact .error ⟨rfl, hl⟩
      | closure r => exact .closure ⟨rfl, hl⟩
      | iterator r => exact .iterator ⟨rfl, hl⟩ trivial
      | function r => exact hl.elim
      | _ => constructor

theorem renamedEntry_eq_related : RenamedEntry (W.renaming h k) = RelatedEntry W := by
  funext e e'
  simp only [RenamedEntry, RelatedEntry, renamed_eq_related]

theorem Iterator.Related.renamed (hi : Iterator.Related W i j) : Iterator.Renamed (W.renaming h k) i j := by
  obtain ⟨s, p⟩ := i
  obtain ⟨t, q⟩ := j
  obtain ⟨hs, hp⟩ := hi
  refine ⟨?_, hp⟩
  cases hs with
  | items hx =>
    refine .items_all ?_
    rw [RenamedAll, renamed_eq_related]
    exact hx
  | chars cs => exact .chars cs
  | entries hx =>
    refine .entries_all ?_
    rw [renamedEntry_eq_related]
    exact hx

theorem Iterator.Renamed.related (hi : Iterator.Renamed (W.renaming h k) i j) : Iterator.Related W i j := by
  obtain ⟨s, p⟩ := i
  obtain ⟨t, q⟩ := j
  obtain ⟨hs, hp⟩ := hi
  refine ⟨?_, hp⟩
  cases hs with
  | items _ hx =>
    refine .items ?_
    rw [RenamedAll, renamed_eq_related] at hx
    exact hx
  | chars cs => exact .chars cs
  | entries _ hx =>
    refine .entries ?_
    rw [renamedEntry_eq_related] at hx
    exact hx

/-! ## Heaps -/

theorem Heap.Related.size_eq (hh : Heap.Related W h k) (t : Table) : k.size t = h.size t := by
  cases t with
  | bytes => exact congrArg Array.size hh.bytes
  | arrays => exact hh.arrays_size
  | maps => exact hh.maps_size
  | errors => exact hh.errors_size
  | iterators => exact hh.iterators_size
  | cells => exact hh.cells_size
  | closures => exact hh.closures_size

/-- Related heaps are joined by the renaming that begins with them. -/
theorem Heap.Related.joins (hh : Heap.Related W h k) : (W.renaming h k).Joins h k where
  unique := by
    rintro t r s r' s' - ⟨rfl, -⟩ ⟨rfl, -⟩
    exact Iff.rfl
  unique_body := W.unique
  left := .refl h
  right := .refl k
  hosts := hh.hosts
  pace := Nat.add_comm ..
  kept _ _ := rfl
  kept_right _ _ := rfl
  aligned := by
    rintro t r s ht ⟨rfl, -⟩
    rw [hh.size_eq t]
    by_cases hr : r < h.size t
    · exact .inl ⟨hr, hr⟩
    · have hadd := (Nat.add_sub_cancel' (Nat.not_lt.mp hr)).symm
      exact .inr ⟨r - h.size t, hadd, hadd⟩
  fresh := by
    intro t ht n
    refine ⟨⟨by rw [hh.size_eq t], ?_⟩, trivial⟩
    cases t with
    | bytes => trivial
    | arrays => exact hh.arrays_fresh _ (Nat.le_add_right ..)
    | maps => exact hh.maps_fresh _ (Nat.le_add_right ..)
    | errors => exact hh.errors_fresh _ (Nat.le_add_right ..)
    | iterators => exact hh.iterators_fresh _ (Nat.le_add_right ..)
    | cells => exact hh.cells_fresh _ (Nat.le_add_right ..)
    | closures => exact absurd rfl ht
  objects := by
    rintro t r s ⟨rfl, hl⟩
    cases t with
    | bytes =>
      simp only [Heap.object, Heap.bytesAt, hh.bytes]
      exact .bytes _
    | arrays =>
      refine .items ?_
      rw [RenamedAll, renamed_eq_related]
      exact hh.arrays r hl
    | maps =>
      refine .entries ?_
      rw [RenamedDict, renamedEntry_eq_related]
      exact hh.maps r hl
    | errors =>
      refine .value ?_
      rw [renamed_eq_related]
      exact hh.errors r hl
    | iterators => exact .iterator (hh.iterators r hl).renamed
    | cells =>
      refine .value ?_
      rw [renamed_eq_related]
      exact hh.cells r hl
    | closures =>
      obtain ⟨n, hn⟩ := hl
      have hc := (hh.closures r n hn).2
      refine .closure ⟨?_, ?_, fun _ _ => trivial⟩
      · rw [hc.size]
        exact hc.body
      · rw [hc.cells]
        exact List.forall₂_same.mpr fun c hm => ⟨rfl, hc.live c (by simpa using hm)⟩
  made := by
    rintro r s ⟨rfl, n, hn⟩
    have hlt := (hh.closures r n hn).1
    exact ⟨hlt, hh.closures_size ▸ hlt⟩

/-- Heaps that the renaming joins later on are related, if the world knows the closures as they are by then. -/
theorem Renaming.Joins.related (hj : (W.renaming h k).Joins h' k') (hs : k.closures.size = h.closures.size)
    (hl : h.routines = W.left) (hr : k.routines = W.right)
    (hn : ∀ r n, W.closures r n → (h'.closureAt r).cells.size = n) : Heap.Related W h' k' where
  bytes := by
    have hsize := (hj.next (t := .bytes) nofun).1.1
    refine Array.ext hsize.symm fun i hi hi' => ?_
    have hb := hj.bytes (r := i) (s := i) ⟨rfl, trivial⟩
    simpa [Heap.bytesAt, hi, hi'] using hb
  hosts := hj.hosts
  arrays_size := (hj.next (t := .arrays) nofun).1.1.symm
  maps_size := (hj.next (t := .maps) nofun).1.1.symm
  errors_size := (hj.next (t := .errors) nofun).1.1.symm
  iterators_size := (hj.next (t := .iterators) nofun).1.1.symm
  cells_size := (hj.next (t := .cells) nofun).1.1.symm
  closures_size := by
    have hp := hj.pace
    simp only [World.renaming] at hp
    omega
  arrays_fresh r hr := by
    have hf := (hj.fresh (t := .arrays) nofun (r - h'.arrays.size)).1.2
    simpa only [World.Holds, Heap.size, Nat.add_sub_cancel' hr] using hf
  maps_fresh r hr := by
    have hf := (hj.fresh (t := .maps) nofun (r - h'.maps.size)).1.2
    simpa only [World.Holds, Heap.size, Nat.add_sub_cancel' hr] using hf
  errors_fresh r hr := by
    have hf := (hj.fresh (t := .errors) nofun (r - h'.errors.size)).1.2
    simpa only [World.Holds, Heap.size, Nat.add_sub_cancel' hr] using hf
  iterators_fresh r hr := by
    have hf := (hj.fresh (t := .iterators) nofun (r - h'.iterators.size)).1.2
    simpa only [World.Holds, Heap.size, Nat.add_sub_cancel' hr] using hf
  cells_fresh r hr := by
    have hf := (hj.fresh (t := .cells) nofun (r - h'.cells.size)).1.2
    simpa only [World.Holds, Heap.size, Nat.add_sub_cancel' hr] using hf
  arrays r hr := by
    rw [RelatedAll, ← renamed_eq_related W h k]
    exact hj.array ⟨rfl, hr⟩
  maps r hr := by
    rw [RelatedDict, ← renamedEntry_eq_related]
    exact hj.map ⟨rfl, hr⟩
  errors r hr := by
    rw [← renamed_eq_related W h k]
    exact hj.error ⟨rfl, hr⟩
  iterators r hr := (hj.iterator ⟨rfl, hr⟩).related
  cells r hr := by
    rw [← renamed_eq_related W h k]
    exact hj.cell ⟨rfl, hr⟩
  closures r n hc := by
    have href : (W.renaming h k).refs .closures r r := ⟨rfl, n, hc⟩
    have hclosure := hj.closure href
    have hcells : (k'.closureAt r).cells = (h'.closureAt r).cells := by
      have heq := hclosure.cells.imp fun _ _ hab => hab.1
      rw [List.forall₂_eq_eq_eq] at heq
      exact (Array.toList_inj.mp heq).symm
    have hlive := hclosure.cells
    rw [hcells] at hlive
    refine ⟨(hj.made href).1, ?_, hn r n hc, hcells, fun q hq => ?_⟩
    · rw [← hn r n hc]
      exact hclosure.body
    · exact (List.forall₂_same.mp hlive q (by simpa using hq)).2
  left := hj.left.routines.trans hl
  right := hj.right.routines.trans hr

/-- Heaps that the renaming joins later on are related in the same world. -/
theorem Heap.Related.later (hh : Heap.Related W h k) (hj : (W.renaming h k).Joins h' k') : Heap.Related W h' k' := by
  refine hj.related hh.closures_size hh.left hh.right fun r n hn => ?_
  -- closures that there were at the beginning have not changed
  obtain ⟨hlt, hc⟩ := hh.closures r n hn
  rw [hj.left.closures r hlt]
  exact hc.size

theorem Related.equals (hh : Heap.Related W h k) (ha : Related W a a') (hb : Related W b b') :
    a'.equals k b' = a.equals h b := by
  rw [← renamed_eq_related W h k] at ha hb
  exact Renamed.equals hh.joins ha hb

/-! ## Functions of the host -/

/-- **A uniform host**: its functions give related results for related arguments, whatever functions
correspond. They may hold on to arguments and call built-ins, but they neither make compiled functions
nor look into them. -/
def UniformHost (host : String → List Value → Action Value) : Prop :=
  ∀ (W : World) (name : String) (args args' : List Value), RelatedAll W args args' →
    Action.Related W (Related W) (host name args) (host name args')

end Scripting
