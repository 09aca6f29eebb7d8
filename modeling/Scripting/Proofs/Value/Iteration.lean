import Scripting.Proofs.Value.Equality
import Scripting.Proofs.Value.Splice
import Scripting.Value.Index
import Scripting.Value.Iteration
/-!
# `Proofs.Value.Iteration` — a walk shows every entry once, in order

An iteration walks over the keys and values that its container had when it began. `Deed` is what a
program can do meanwhile: move or read the iterator, and change containers, the one it walks over among
them. What each deed on the iterator answers depends only on the entries at the beginning and on the
number of steps made so far.
-/

namespace Scripting

open Builtin Option List Value Integer

namespace Value

/-- Values with their places as keys. -/
def numbered (vs : List Value) : List (Value × Value) := vs.mapIdx fun i v => (int (Int64.ofNat i), v)

/-- The keys and values of a container, in order. -/
def listing (h : Heap) : Value → List (Value × Value)
  | array _ r => numbered (h.arrayAt r).toList
  | str s => numbered (s.toList.map char)
  | map _ r => (h.mapAt r).entries.map fun e => (str e.1, e.2)
  | _ => []

variable {c : Value} {h : Heap}

theorem len_listing (hc : c.isIterable = true) :
    call .len [c] h = .ok (.int (Int64.ofNat (c.listing h).length)) h := by
  cases c with
  | array kind r => simp [listing, numbered, call, lengthOf]
  | str s => simp [listing, numbered, call, lengthOf, String.length_toList]
  | map kind r => simp [listing, call, lengthOf, Dict.size]
  | _ => cases hc

theorem indexOf?_ofNat {n : Nat} (hn : (n : Int) < greatest) : indexOf? (Int64.ofNat n) = some n := by
  have hword : (Int64.ofNat n).toInt = n := Int64.toInt_ofNat_of_lt (by unfold greatest at hn; omega)
  simp only [indexOf?, Int64.lt_iff_toInt_lt, hword, Int64.toInt_zero]
  rw [if_neg (by omega), Int.toNat_natCast]

theorem indexOf?_numbered {vs : List Value} (hsize : ((numbered vs).length : Int) ≤ greatest)
    (he : e ∈ numbered vs) :
    ∃ i v, e = (int i, v) ∧ ∃ n, indexOf? i = some n ∧ vs[n]? = some v := by
  obtain ⟨n, hn⟩ := List.mem_iff_getElem?.1 he
  rw [numbered, List.length_mapIdx] at hsize
  rw [numbered, List.getElem?_mapIdx, map_eq_some_iff] at hn
  obtain ⟨v, hv, rfl⟩ := hn
  have hlt := (List.getElem?_eq_some_iff.1 hv).1
  exact ⟨_, v, rfl, n, indexOf?_ofNat (by omega), hv⟩

theorem indexGet_listing (hsize : ((c.listing h).length : Int) ≤ greatest)
    (he : e ∈ c.listing h) : indexGet h c e.1 = .ok e.2 := by
  cases c with
  | array kind r =>
    obtain ⟨i, v, rfl, n, hi, hv⟩ := indexOf?_numbered hsize he
    rw [Array.getElem?_toList] at hv
    simp only [indexGet, hi, bind_some, hv, getD_some]
  | str s =>
    obtain ⟨i, v, rfl, n, hi, hv⟩ := indexOf?_numbered hsize he
    rw [getElem?_map, map_eq_some_iff] at hv
    obtain ⟨ch, hch, rfl⟩ := hv
    simp only [indexGet, hi, bind_some, hch, elim_some]
  | map kind r =>
    obtain ⟨⟨k, v⟩, hk, rfl⟩ := mem_map.1 he
    simp only [indexGet, Dict.get?_of_mem hk, getD_some]
  | _ => cases he

end Value

/-! ## What an iterator shows -/

/-- A snapshot shows these entries, one for each step. -/
structure Snapshot.Lists (source : Snapshot) (entries : List (Value × Value)) : Prop where
  size : source.size = entries.length
  key : ∀ {i e}, entries[i]? = some e → Iterator.key ⟨source, i + 1⟩ = e.1
  value : ∀ {i e}, entries[i]? = some e → Iterator.value ⟨source, i + 1⟩ = e.2

theorem Value.snapshot?_lists {c : Value} (hc : c.isIterable = true) (h : Heap) :
    ∃ source, c.snapshot? h = some source ∧ source.Lists (c.listing h) := by
  cases c with
  | array kind r =>
    refine ⟨_, rfl, by simp [Snapshot.size, listing, numbered], ?_, ?_⟩
    all_goals
      simp only [listing, numbered, getElem?_mapIdx, map_eq_some_iff]
      rintro i _ ⟨v, hv, rfl⟩
      simp_all [Iterator.key, Iterator.value]
  | str s =>
    refine ⟨_, rfl, by simp [Snapshot.size, listing, numbered], ?_, ?_⟩
    all_goals
      simp only [listing, numbered, getElem?_mapIdx, getElem?_map, map_eq_some_iff]
      rintro i _ ⟨_, ⟨ch, hch, rfl⟩, rfl⟩
      simp_all [Iterator.key, Iterator.value]
  | map kind r =>
    refine ⟨_, rfl, by simp [Snapshot.size, listing], ?_, ?_⟩
    all_goals
      simp only [listing, getElem?_map, map_eq_some_iff]
      rintro i _ ⟨e, he, rfl⟩
      simp_all [Iterator.key, Iterator.value]
  | _ => cases hc

/-- What a program can do during a walk. -/
inductive Deed
  | next
  | key
  | value
  | set (target key value : Value)
  | splice (args : List Value)
  | delete (args : List Value)
  deriving DecidableEq

/-- A deed with an iterator. The answer to a change is of no interest, but it may fail. -/
def Deed.action (it : Value) : Deed → Action Value
  | next => .bool <$> it.iterNext
  | key => fun h => Action.ofExcept (iterKey h it) h
  | value => fun h => Action.ofExcept (iterValue h it) h
  | set target k v => (fun _ => .undefined) <$> indexSet target k v
  | splice args => call .splice args
  | delete args => call .delete args

/-- What an action answers and the heap it leaves, whether it succeeds or fails. -/
def Action.settle (x : Action Value) (h : Heap) : Except ValueError Value × Heap :=
  match x h with
  | .ok v h' => (.ok v, h')
  | .error e h' => (.error e, h')

/-- What a sequence of deeds answers. One that fails does not end it. -/
def Deed.answers (it : Value) : List Deed → Heap → List (Except ValueError Value)
  | [], _ => []
  | m :: ms, h => ((m.action it).settle h).1 :: answers it ms ((m.action it).settle h).2

/-- The deeds show the entries, each once and in order: a step succeeds as long as fewer have been made
than there are entries, and after the step to an entry its key and value can be read any number of
times. -/
structure Deed.Visits (entries : List (Value × Value)) (ms : List Deed)
    (answers : List (Except ValueError Value)) : Prop where
  next : ∀ j : Nat, ms[j]? = some .next → answers[j]? = some (.ok (.bool ((ms.take j).count .next < entries.length)))
  key : ∀ (j i : Nat) e, ms[j]? = some .key → (ms.take j).count .next = i + 1 → entries[i]? = some e →
    answers[j]? = some (.ok e.1)
  value : ∀ (j i : Nat) e, ms[j]? = some .value → (ms.take j).count .next = i + 1 → entries[i]? = some e →
    answers[j]? = some (.ok e.2)

/-- The iterator has made `steps` steps over these entries; it stays one past the end. -/
def Deed.At (entries : List (Value × Value)) (it : Value) (steps : Nat) (h : Heap) : Prop :=
  ∃ r source, it = .iterator r ∧ source.Lists entries ∧
    h.iterators[r]? = some ⟨source, min steps (entries.length + 1)⟩

namespace Deed
variable {entries : List (Value × Value)} {it : Value} {steps : Nat} {h : Heap}

/-- Changing containers leaves iterators alone. -/
theorem settle_iterators {m : Deed} (hm : m ≠ .next) : ((m.action it).settle h).2.iterators = h.iterators := by
  cases m with
  | next => exact absurd rfl hm
  | key => cases it <;> rfl
  | value => cases it <;> rfl
  | set target k v =>
    -- all but changeable containers refuse, and those lie in tables of their own
    rcases target with _ | _ | _ | _ | _ | _ | _ | _ | ⟨⟨⟩, r⟩ | ⟨⟨⟩, r⟩ | _ | _ | _ | _ | _ | _
    case array.mutable =>
      cases k with
      | int i =>
        simp only [Action.settle, action, Functor.map, EStateM.map, indexSet]
        cases indexOf? i with
        | none => rfl
        | some n =>
          by_cases hn : n < (h.arrayAt r).size
          · simp only [hn]
            rfl
          · simp only [hn, if_false]
      | _ => rfl
    case map.mutable => cases k <;> rfl
    all_goals rfl
  | splice args =>
    rcases args with _ | ⟨v, more⟩
    · rfl
    · rcases v with _ | _ | _ | _ | _ | _ | _ | _ | ⟨⟨⟩, r⟩ | _ | _ | _ | _ | _ | _ | _
      case array.mutable =>
        rcases splice_cases h r more with ⟨start, stop, -, hcall⟩ | ⟨-, e, hcall⟩
        all_goals simp only [Action.settle, Deed.action, hcall, Heap.newArray, Heap.setArray]
      all_goals rfl
  | delete args =>
    rcases args with _ | ⟨v, _ | ⟨k, _ | _⟩⟩
    case cons.cons.nil =>
      rcases v with _ | _ | _ | _ | _ | _ | _ | _ | _ | ⟨⟨⟩, r⟩ | _ | _ | _ | _ | _ | _
      case map.mutable => cases k <;> rfl
      all_goals rfl
    all_goals rfl

theorem At.next (hat : At entries it steps h) :
    ((Deed.next.action it).settle h).1 = .ok (.bool (steps < entries.length)) ∧
      At entries it (steps + 1) ((Deed.next.action it).settle h).2 := by
  obtain ⟨r, source, rfl, hlists, hr⟩ := hat
  have hit : h.iteratorAt r = ⟨source, min steps (entries.length + 1)⟩ := by
    simp [Heap.iteratorAt, hr]
  have hnext : (h.iteratorAt r).next =
      (decide (steps < entries.length), ⟨source, min (steps + 1) (entries.length + 1)⟩) := by
    rw [hit, Iterator.next, hlists.size]
    -- the step past the last entry is the first that fails, and the place stays the same from then on
    by_cases hs : steps ≤ entries.length
    · have hstep : min steps (entries.length + 1) + 1 = min (steps + 1) (entries.length + 1) := by omega
      simp only [if_pos (show min steps (entries.length + 1) ≤ entries.length by omega), hstep]
      exact Prod.ext (decide_eq_decide.2 (by omega)) rfl
    · have hstay : min steps (entries.length + 1) = min (steps + 1) (entries.length + 1) := by omega
      simp only [if_neg (show ¬min steps (entries.length + 1) ≤ entries.length by omega)]
      rw [hstay]
      exact Prod.ext (decide_eq_decide.2 (by omega)) rfl
  have hsettle : (Deed.next.action (.iterator r)).settle h =
      (.ok (.bool (h.iteratorAt r).next.1), h.setIterator r (h.iteratorAt r).next.2) := rfl
  rw [hsettle, hnext]
  refine ⟨rfl, r, source, rfl, hlists, ?_⟩
  have hlt : r < h.iterators.size := (Array.getElem?_eq_some_iff.1 hr).1
  simp [Heap.setIterator, hlt]

/-- What a deed does to the place of the iterator. -/
theorem At.deed (hat : At entries it steps h) (m : Deed) :
    At entries it (steps + [m].count .next) ((m.action it).settle h).2 := by
  by_cases hm : m = .next
  · subst hm
    exact hat.next.2
  · obtain ⟨r, source, hit, hlists, hr⟩ := hat
    rw [count_singleton, beq_eq_false_iff_ne.2 hm]
    exact ⟨r, source, hit, hlists, by rw [settle_iterators hm]; exact hr⟩

theorem At.read (hat : At entries it (i + 1) h) (he : entries[i]? = some e) :
    ((Deed.key.action it).settle h).1 = .ok e.1 ∧ ((Deed.value.action it).settle h).1 = .ok e.2 := by
  obtain ⟨r, source, rfl, hlists, hr⟩ := hat
  have hlt : i < entries.length := (List.getElem?_eq_some_iff.1 he).1
  have hit : h.iteratorAt r = ⟨source, i + 1⟩ := by
    rw [Nat.min_eq_left (by omega)] at hr
    simp [Heap.iteratorAt, hr]
  constructor
  · show Except.ok (h.iteratorAt r).key = _
    rw [hit, hlists.key he]
  · show Except.ok (h.iteratorAt r).value = _
    rw [hit, hlists.value he]

/-- Each answer is given where the iterator has made as many steps as were asked for before. -/
theorem At.answers {ms : List Deed} (hat : At entries it steps h) {j : Nat} (hm : ms[j]? = some m) :
    ∃ k, At entries it (steps + (ms.take j).count .next) k ∧
      (answers it ms h)[j]? = some ((m.action it).settle k).1 := by
  -- the place of the iterator is what the deeds before the one at hand have left
  induction ms generalizing steps h j with
  | nil => cases hm
  | cons m' ms ih =>
    cases j with
    | zero =>
      cases hm
      exact ⟨h, hat, rfl⟩
    | succ j =>
      obtain ⟨k, hk, ha⟩ := ih (hat.deed m') hm
      refine ⟨k, ?_, ha⟩
      rwa [take_succ_cons, ← singleton_append, count_append, ← Nat.add_assoc]

end Deed

/-- **An iteration visits a snapshot exactly once, in order.** Iterating over an array, a text or a map
begins, and whatever is done with the iterator and to containers then, the deeds on the iterator visit
the entries that the container had at the beginning: as many as `len` gives, with the keys and values by
which indexing gives them (as long as the places in the container are words, which memory sees to). -/
theorem iteration_visits_snapshot (c : Value) (hc : c.isIterable = true) (h : Heap) :
    call .len [c] h = .ok (.int (Int64.ofNat (c.listing h).length)) h ∧
    (((c.listing h).length : Int) ≤ greatest → ∀ e ∈ c.listing h, indexGet h c e.1 = .ok e.2) ∧
    ∃ it h', c.iterate? h = .ok (some it) h' ∧ ∀ ms, Deed.Visits (c.listing h) ms (Deed.answers it ms h') := by
  refine ⟨len_listing hc, fun hsize e => indexGet_listing hsize, ?_⟩
  obtain ⟨source, hsource, hlists⟩ := snapshot?_lists hc h
  refine ⟨(h.newIterator ⟨source, 0⟩).1, (h.newIterator ⟨source, 0⟩).2, ?_, fun ms => ?_⟩
  · simp only [iterate?, hsource]
  · have hat : Deed.At (c.listing h) (h.newIterator ⟨source, 0⟩).1 0 (h.newIterator ⟨source, 0⟩).2 :=
      ⟨_, source, rfl, hlists, by simp [Heap.newIterator]⟩
    constructor
    · intro j hj
      obtain ⟨k, hk, ha⟩ := hat.answers hj
      rw [ha, hk.next.1, Nat.zero_add]
    · intro j i e hj hi he
      obtain ⟨k, hk, ha⟩ := hat.answers hj
      rw [Nat.zero_add, hi] at hk
      rw [ha, (hk.read he).1]
    · intro j i e hj hi he
      obtain ⟨k, hk, ha⟩ := hat.answers hj
      rw [Nat.zero_add, hi] at hk
      rw [ha, (hk.read he).2]

/-- Emptying an array does not end a walk over it. -/
theorem emptied_array_visited :
    let h : Heap := { arrays := #[#[.int 7, .int 8]] }
    let ms := [.next, .splice [.array .mutable 0], .value, .next, .key, .value, .next]
    ∃ it h', (array .mutable 0).iterate? h = .ok (some it) h' ∧
      Deed.Visits [(.int 0, .int 7), (.int 1, .int 8)] ms (Deed.answers it ms h') := by
  intro h ms
  obtain ⟨-, -, it, h', hit, hvisits⟩ := iteration_visits_snapshot (.array .mutable 0) rfl h
  exact ⟨it, h', hit, hvisits ms⟩

end Scripting
