import Scripting.Source
/-!
# `Code.SourceMap` — where instructions come from

A source map assigns positions to byte offsets of a function's code. Not every instruction has a
position of its own; one without takes that of the closest instruction before it (`SourceMap.find`).

Entries are kept by decreasing offset, so that code written from front to back adds each new entry at
the head, and a look-up stops at the first entry that is not beyond the offset.
-/

namespace Scripting

/-- Positions by byte offset, in decreasing order of the offsets. -/
structure SourceMap where
  entries : List (Nat × Pos) := []
  sorted : entries.Pairwise (fun a b => b.1 < a.1) := by simp

namespace SourceMap

instance : Inhabited SourceMap := ⟨{}⟩

instance : DecidableEq SourceMap := fun a b =>
  decidable_of_iff (a.entries = b.entries) (by cases a; cases b; simp)

def empty : SourceMap := {}

/-- Set the position of an offset in a list with decreasing offsets. -/
def insertEntry (offset : Nat) (p : Pos) : List (Nat × Pos) → List (Nat × Pos)
  | [] => [(offset, p)]
  | e :: rest =>
    if e.1 < offset then (offset, p) :: e :: rest
    else if e.1 = offset then (offset, p) :: rest
    else e :: insertEntry offset p rest

theorem mem_insertEntry {offset : Nat} {p : Pos} {es : List (Nat × Pos)} {e : Nat × Pos}
    (h : e ∈ insertEntry offset p es) : e = (offset, p) ∨ e ∈ es := by
  induction es with
  | nil => simpa [insertEntry] using h
  | cons e' rest ih =>
    unfold insertEntry at h
    split at h
    · simpa using h
    · split at h
      · rcases List.mem_cons.1 h with h | h
        · exact .inl h
        · exact .inr (List.mem_cons_of_mem _ h)
      · rcases List.mem_cons.1 h with h | h
        · exact .inr (by simp [h])
        · exact (ih h).imp id (List.mem_cons_of_mem _)

theorem sorted_insertEntry (offset : Nat) (p : Pos) {es : List (Nat × Pos)}
    (h : es.Pairwise (fun a b => b.1 < a.1)) :
    (insertEntry offset p es).Pairwise (fun a b => b.1 < a.1) := by
  induction es with
  | nil => simp [insertEntry]
  | cons e rest ih =>
    obtain ⟨he, hr⟩ := List.pairwise_cons.1 h
    unfold insertEntry
    split
    · rename_i hlt
      refine List.pairwise_cons.2 ⟨fun b hb => ?_, h⟩
      rcases List.mem_cons.1 hb with rfl | hb
      · exact hlt
      · exact Nat.lt_trans (he b hb) hlt
    · split
      · rename_i heq
        exact List.pairwise_cons.2 ⟨fun b hb => heq ▸ he b hb, hr⟩
      · refine List.pairwise_cons.2 ⟨fun b hb => ?_, ih hr⟩
        rcases mem_insertEntry hb with rfl | hb
        · simp only; omega
        · exact he b hb

def insert (m : SourceMap) (offset : Nat) (p : Pos) : SourceMap where
  entries := insertEntry offset p m.entries
  sorted := sorted_insertEntry offset p m.sorted

/-- Set positions one after the other; of two for the same offset the later counts. -/
def ofList (es : List (Nat × Pos)) : SourceMap := es.foldl (fun m e => m.insert e.1 e.2) empty

/-- The entries by increasing offset. -/
def toList (m : SourceMap) : List (Nat × Pos) := m.entries.reverse

/-- The position of the instruction at `offset`, or of the closest one before it that has one. -/
def find (m : SourceMap) (offset : Nat) : Pos :=
  ((m.entries.find? (fun e => e.1 ≤ offset)).map Prod.snd).getD Pos.none

end SourceMap

end Scripting
