/-!
# `Dict` — dictionaries that remember the order of insertion

A `Dict` maps texts to values and lists its entries in the order in which their keys were first
inserted. Overwriting an entry keeps its place; erasing one closes the gap. The keys are distinct by
the type itself.

Main statements: `get?_insert` and `get?_erase` say what a look-up sees after a change, and
`keys_insert` says where a key stands.
-/

namespace Scripting

/-- A dictionary with text keys, in insertion order. -/
structure Dict (α : Type) where
  entries : List (String × α) := []
  nodup : (entries.map Prod.fst).Nodup := by simp

namespace Dict

variable {α β : Type}

instance : Inhabited (Dict α) := ⟨{}⟩

instance [DecidableEq α] : DecidableEq (Dict α) := fun a b =>
  decidable_of_iff (a.entries = b.entries) (by cases a; cases b; simp)

def empty : Dict α := {}

def keys (d : Dict α) : List String := d.entries.map Prod.fst

def values (d : Dict α) : List α := d.entries.map Prod.snd

def size (d : Dict α) : Nat := d.entries.length

def isEmpty (d : Dict α) : Bool := d.entries.isEmpty

/-- The value of the first entry with a key. -/
def find? (key : String) : List (String × α) → Option α
  | [] => none
  | (k, v) :: rest => if k = key then some v else find? key rest

def get? (d : Dict α) (key : String) : Option α := find? key d.entries

def contains (d : Dict α) (key : String) : Bool := (d.get? key).isSome

/-- Put a value under a key: in the place of the old entry if there is one, else at the end. -/
def insertEntry (key : String) (value : α) : List (String × α) → List (String × α)
  | [] => [(key, value)]
  | (k, v) :: rest => if k = key then (k, value) :: rest else (k, v) :: insertEntry key value rest

theorem map_fst_insertEntry (key : String) (value : α) (es : List (String × α)) :
    (insertEntry key value es).map Prod.fst =
      if key ∈ es.map Prod.fst then es.map Prod.fst else es.map Prod.fst ++ [key] := by
  induction es with
  | nil => simp [insertEntry]
  | cons e rest ih =>
    obtain ⟨k, v⟩ := e
    by_cases h : k = key
    · subst h; simp [insertEntry]
    · simp only [insertEntry, h, if_false, List.map_cons, ih, List.mem_cons, Ne.symm h, false_or]
      split <;> simp

theorem nodup_insertEntry (key : String) (value : α) {es : List (String × α)}
    (h : (es.map Prod.fst).Nodup) : ((insertEntry key value es).map Prod.fst).Nodup := by
  rw [map_fst_insertEntry]
  split
  · exact h
  · rename_i hn
    exact List.nodup_append.2 ⟨h, by simp, by
      intro a ha b hb hab
      rw [List.mem_singleton] at hb
      exact hn (hb ▸ hab ▸ ha)⟩

/-- Put a value under a key, which keeps its place or else comes last. -/
def insert (d : Dict α) (key : String) (value : α) : Dict α where
  entries := insertEntry key value d.entries
  nodup := nodup_insertEntry key value d.nodup

def erase (d : Dict α) (key : String) : Dict α where
  entries := d.entries.filter (fun e => e.1 ≠ key)
  nodup := d.nodup.sublist (List.filter_sublist.map _)

/-- Insert the entries of a list, first to last. -/
def ofList (es : List (String × α)) : Dict α := es.foldl (fun d e => d.insert e.1 e.2) empty

def insertAll (d other : Dict α) : Dict α := other.entries.foldl (fun d e => d.insert e.1 e.2) d

/-- Give the keys the values of a list, first to first. -/
def withValues (d : Dict α) (vs : List β) : Dict β where
  entries := d.keys.zip vs
  nodup := by
    have h : ∀ (ks : List String) (vs : List β), (ks.zip vs).map Prod.fst = ks.take vs.length := by
      intro ks
      induction ks with
      | nil => simp
      | cons k ks ih => intro vs; cases vs <;> simp [ih]
    rw [h]
    exact d.nodup.sublist (List.take_sublist _ _)

/-! ## Laws -/

theorem keys_insert (d : Dict α) (key : String) (value : α) :
    (d.insert key value).keys = if key ∈ d.keys then d.keys else d.keys ++ [key] :=
  map_fst_insertEntry key value d.entries

theorem find?_insertEntry (key k : String) (value : α) (es : List (String × α)) :
    find? k (insertEntry key value es) = if k = key then some value else find? k es := by
  induction es with
  | nil => simp only [insertEntry, find?, eq_comm]
  | cons e rest ih =>
    obtain ⟨k', v⟩ := e
    by_cases h : k' = key
    · subst h
      by_cases hk : k' = k
      · simp [insertEntry, find?, hk]
      · simp [insertEntry, find?, hk, Ne.symm hk]
    · by_cases hk : k' = k
      · subst hk; simp [insertEntry, find?, h]
      · simp [insertEntry, find?, h, hk, ih]

theorem get?_insert (d : Dict α) (key k : String) (value : α) :
    (d.insert key value).get? k = if k = key then some value else d.get? k :=
  find?_insertEntry key k value d.entries

theorem find?_filter_ne (key k : String) (es : List (String × α)) :
    find? k (es.filter (fun e => e.1 ≠ key)) = if k = key then none else find? k es := by
  induction es with
  | nil => simp [find?]
  | cons e rest ih =>
    obtain ⟨k', v⟩ := e
    by_cases h : k' = key
    · subst h
      by_cases hk : k' = k
      · simpa [find?, hk] using ih
      · simpa [find?, hk, Ne.symm hk] using ih
    · by_cases hk : k' = k
      · subst hk; simp [find?, h]
      · simpa [find?, h, hk] using ih

theorem get?_erase (d : Dict α) (key k : String) :
    (d.erase key).get? k = if k = key then none else d.get? k :=
  find?_filter_ne key k d.entries

end Dict

end Scripting
