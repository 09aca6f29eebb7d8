import Mathlib.Algebra.Order.Group.Nat
import Mathlib.Data.List.TakeDrop
import Scripting.Builtin.Call
/-!
# `Proofs.Value.Splice` — cutting and joining an array in place

The arguments of `splice` after the array say where the cut starts and how long it is. `StartsAt` and
`StopsAt` read them as mathematical integers, so no sum overflows. A call succeeds exactly if both can
be read, and then replaces the part between them; a failed call leaves the heap as it was.
-/

namespace Scripting.Builtin

open Heap

/-- The argument is an integer from zero to the length and the cut starts there, or it is left out and
the cut starts at the front. -/
def StartsAt (length : Nat) (arg : Option Value) (start : Nat) : Prop :=
  match arg with
  | none => start = 0
  | some v => ∃ n : Int64, v = .int n ∧ n.toInt = start ∧ start ≤ length

/-- The argument is a count that is not negative and the cut stops after so many items or at the end,
or it is left out and the cut stops at the end. -/
def StopsAt (length start : Nat) (arg : Option Value) (stop : Nat) : Prop :=
  match arg with
  | none => stop = length
  | some v => ∃ n : Int64, v = .int n ∧ 0 ≤ n.toInt ∧ (stop : Int) = min (start + n.toInt) length

/-- The arguments ask for a cut of an array from `start` to `stop`. -/
structure Cuts (h : Heap) (args : List Value) (r : Ref) (start stop : Nat) : Prop where
  target : args[0]? = some (.array .mutable r)
  starts : StartsAt (h.arrayAt r).size args[1]? start
  stops : StopsAt (h.arrayAt r).size start args[2]? stop

/-- `h'` is `h` after the items of one array from `start` to `stop` have moved into a new array and
others have taken their place. A reference is what aliases share, so all of them see the change. -/
structure Spliced (h : Heap) (r : Ref) (start stop : Nat) (inserted : List Value) (h' : Heap) : Prop where
  target : ∀ kind, (h'.items? (.array kind r)).map (·.toList) =
    some ((h.arrayAt r).toList.take start ++ inserted ++ (h.arrayAt r).toList.drop stop)
  removed : (h'.arrayAt h.arrays.size).toList = ((h.arrayAt r).toList.take stop).drop start
  others : ∀ q < h.arrays.size, q ≠ r → h'.arrayAt q = h.arrayAt q
  size : h'.arrays.size = h.arrays.size + 1
  rest : h' = { h with arrays := h'.arrays }

theorem StartsAt.le (hs : StartsAt length arg start) : start ≤ length := by
  cases arg with
  | none => exact hs ▸ Nat.zero_le _
  | some v => exact hs.choose_spec.2.2

/-- The start is read, or cannot be. -/
theorem spliceStart_cases (length : Nat) (arg : Option Value) (h : Heap) :
    (∃ start, StartsAt length arg start ∧ spliceStart length arg h = .ok start h) ∨
    (∀ start, ¬StartsAt length arg start) ∧ ∃ e, spliceStart length arg h = .error e h := by
  rcases arg with _ | v
  · exact .inl ⟨0, rfl, rfl⟩
  · cases v with
    | int n =>
      by_cases hn : 0 ≤ n.toInt ∧ n.toInt ≤ length
      · refine .inl ⟨n.toInt.toNat, ⟨n, rfl, by omega, by omega⟩, ?_⟩
        simp only [spliceStart, intArgument, pure_bind, if_pos hn]
        rfl
      · refine .inr ⟨fun start => ?_, .indexOutOfBounds, ?_⟩
        · rintro ⟨m, ⟨⟩, hm, hle⟩
          omega
        · simp only [spliceStart, intArgument, pure_bind, if_neg hn]
          rfl
    | _ => exact .inr ⟨fun start hs => by simpa using hs.choose_spec.1, _, rfl⟩

/-- The count is read, and the cut is clamped to the array, or the count cannot be read. -/
theorem spliceCount_cases {length start : Nat} (hstart : start ≤ length) (arg : Option Value) (h : Heap) :
    (∃ count, StopsAt length start arg (min (start + count) length) ∧
      spliceCount (length - start) arg h = .ok count h) ∨
    (∀ start stop, ¬StopsAt length start arg stop) ∧ ∃ e, spliceCount (length - start) arg h = .error e h := by
  rcases arg with _ | v
  · exact .inl ⟨length - start, by simp only [StopsAt]; omega, rfl⟩
  · cases v with
    | int n =>
      by_cases hn : 0 ≤ n.toInt
      · refine .inl ⟨n.toInt.toNat, ⟨n, rfl, hn, by omega⟩, ?_⟩
        simp only [spliceCount, intArgument, pure_bind, if_pos hn]
        rfl
      · refine .inr ⟨fun start stop => ?_, .indexOutOfBounds, ?_⟩
        · rintro ⟨m, ⟨⟩, hm, -⟩
          exact hn hm
        · simp only [spliceCount, intArgument, pure_bind, if_neg hn]
          rfl
    | _ => exact .inr ⟨fun start stop hs => by simpa using hs.choose_spec.1, _, rfl⟩

theorem spliced_spliceItems {r : Ref} (hr : r < h.arrays.size) (inserted : List Value) :
    let items := spliceItems (h.arrayAt r) start stop inserted
    Spliced h r start stop inserted ((h.setArray r items.1).newArray .mutable items.2).2 := by
  intro items
  constructor
  · intro kind
    simp [items, items?, arrayAt, newArray, setArray, spliceItems, Array.getElem?_push, hr, hr.ne]
  · have hsize : (h.setArray r items.1).arrays.size = h.arrays.size := Array.size_setIfInBounds
    rw [arrayAt, newArray, Array.getD_eq_getD_getElem?, ← hsize]
    simp [items, spliceItems, List.drop_take]
  · intro q hq hne
    simp [arrayAt, newArray, setArray, Array.getElem?_push, hq.ne, hne.symm]
  · simp [newArray, setArray]
  · rfl

/-- The call reads both arguments before it changes anything. -/
theorem splice_cases (h : Heap) (r : Ref) (more : List Value) :
    (∃ start stop, Cuts h (.array .mutable r :: more) r start stop ∧ call .splice (.array .mutable r :: more) h =
        let items := spliceItems (h.arrayAt r) start stop (more.drop 2)
        let (v, h') := (h.setArray r items.1).newArray .mutable items.2
        .ok v h') ∨
    (∀ start stop, ¬Cuts h (.array .mutable r :: more) r start stop) ∧
      ∃ e, call .splice (.array .mutable r :: more) h = .error e h := by
  -- the array is read once, at the beginning
  have hcall : call .splice (.array .mutable r :: more) h = (spliceStart (h.arrayAt r).size more[0]? >>= fun start =>
        spliceCount ((h.arrayAt r).size - start) more[1]? >>= fun count => do
          let items := spliceItems (h.arrayAt r) start (min (start + count) (h.arrayAt r).size) (more.drop 2)
          modify (·.setArray r items.1)
          Action.newArray items.2) h := rfl
  rcases spliceStart_cases (h.arrayAt r).size more[0]? h with ⟨start, hstart, hok⟩ | ⟨hno, e, he⟩
  · rcases spliceCount_cases hstart.le more[1]? h with ⟨count, hstop, hok'⟩ | ⟨hno, e, he⟩
    · refine .inl ⟨start, _, ⟨rfl, hstart, hstop⟩, ?_⟩
      simp only [hcall, bind, EStateM.bind, hok, hok']
      rfl
    · refine .inr ⟨fun start' stop' hc => hno _ _ hc.stops, e, ?_⟩
      simp only [hcall, bind, EStateM.bind, hok, he]
  · refine .inr ⟨fun start' stop' hc => hno _ hc.starts, e, ?_⟩
    simp only [hcall, bind, EStateM.bind, he]

/-- **A splice is exact and atomic.** Whatever the arguments: either they ask for a cut, and the call
gives a new array with the part that is cut out and puts the inserted items in its place, for all
aliases of the array and also if the array is one of the inserted items; or they do not, and the call
fails and leaves the heap as it was. -/
theorem splice_exact (args : List Value) (h : Heap)
    (hexists : ∀ kind r, args[0]? = some (.array kind r) → r < h.arrays.size) :
    (∃ r start stop h', Cuts h args r start stop ∧ call .splice args h = .ok (.array .mutable h.arrays.size) h' ∧
      Spliced h r start stop (args.drop 3) h') ∨
    (∀ r start stop, ¬Cuts h args r start stop) ∧ ∃ e, call .splice args h = .error e h := by
  by_cases hv : ∃ r, args[0]? = some (.array .mutable r)
  · obtain ⟨r, hr⟩ := hv
    obtain ⟨more, rfl⟩ : ∃ more, args = .array .mutable r :: more := by
      cases args with
      | nil => cases hr
      | cons v more => exact ⟨more, by cases hr; rfl⟩
    rcases splice_cases h r more with ⟨start, stop, hc, hcall⟩ | ⟨hno, he⟩
    · refine .inl ⟨r, start, stop, _, hc, ?_, spliced_spliceItems (hexists _ r rfl) _⟩
      rw [hcall]
      simp [newArray, setArray]
    · refine .inr ⟨fun r' start stop hc => ?_, he⟩
      cases hc.target
      exact hno start stop hc
  · -- without a changeable array the call fails at once
    refine .inr ⟨fun r start stop hc => hv ⟨r, hc.target⟩, ?_⟩
    rcases args with _ | ⟨v, more⟩
    · exact ⟨_, rfl⟩
    · rcases v with _ | _ | _ | _ | _ | _ | _ | _ | ⟨⟨⟩, r⟩ | _ | _ | _ | _ | _ | _ | _
      case array.mutable => exact absurd ⟨r, rfl⟩ hv
      all_goals exact ⟨_, rfl⟩

/-- An array may be spliced into itself, and a count may be as large as a word. -/
theorem splice_into_itself :
    let h : Heap := { arrays := #[#[.int 1, .int 2, .int 3]] }
    let args := [.array .mutable 0, .int 1, .int Int64.maxValue, .array .mutable 0]
    ∃ h', call .splice args h = .ok (.array .mutable 1) h' ∧ (h'.arrayAt 0).toList = [.int 1, .array .mutable 0] ∧
      (h'.arrayAt 1).toList = [.int 2, .int 3] := by
  intro h args
  rcases splice_exact args h (by rintro kind r ⟨⟩; decide) with
    ⟨r, start, stop, h', hc, hcall, hspliced⟩ | ⟨hno, -⟩
  · obtain ⟨htarget, ⟨n, ⟨⟩, hstart, -⟩, m, ⟨⟩, -, hstop⟩ := hc
    obtain rfl : r = 0 := by cases htarget; rfl
    obtain rfl : start = 1 := Int.ofNat_inj.1 (hstart.symm.trans (by decide))
    obtain rfl : stop = 3 := Int.ofNat_inj.1 (hstop.trans (by decide))
    exact ⟨h', hcall, Option.some.inj (hspliced.target .mutable), hspliced.removed⟩
  · exact absurd ⟨rfl, ⟨1, rfl, rfl, by decide⟩, ⟨Int64.maxValue, rfl, by decide, by decide⟩⟩ (hno 0 1 3)

end Scripting.Builtin
