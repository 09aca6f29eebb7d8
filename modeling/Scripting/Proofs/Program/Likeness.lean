import Scripting.Proofs.Program.Merge
import Scripting.Proofs.Value.Equality
/-!
# `Proofs.Program.Likeness` — how like a constant is the one that is kept for it

Merging replaces a constant by the same value, unless it is a frozen array or map: then by one that is equal,
as a program compares values. Such a comparison overlooks three things: the sign of a zero, whether a container
further down may be changed, and the order of the entries of a map. `Resembles slack` relates values that agree
in everything except what `slack` lets pass, and `Confusable slack` says that a value has something in it about
which a comparison could be mistaken.

* `resembles_of_equalsTo` — values that compare equal are alike, up to what they are confusable in;
* `merged_constants_resemble` — so are the constants and what merging puts in their places.
-/

namespace Scripting

open Array List

/-! ## Numbers -/

namespace Flonum

/-- One of the two zeros. -/
def isZero (x : Flonum) : Bool := x.exponentField == 0 && x.fraction == 0

theorem same_or_zeros {x y : Flonum} (h : x.eq y = true) : x = y ∨ x.isZero = true ∧ y.isZero = true := by
  rcases eq_cases h with heq | ⟨rfl, rfl⟩ | ⟨rfl, rfl⟩
  · exact .inl heq
  · exact .inr (by decide)
  · exact .inr (by decide)

end Flonum

/-! ## Likeness -/

/-- Differences that are let pass. -/
structure Slack where
  /-- The two zeros. -/
  zeros : Bool
  /-- Containers that may be changed and containers that may not. -/
  kinds : Bool
  /-- Maps with the same entries in another order. -/
  order : Bool
  deriving DecidableEq, Repr

def Slack.none : Slack := { zeros := false, kinds := false, order := false }

def Slack.all : Slack := { zeros := true, kinds := true, order := true }

/-- **Values that agree** in the variant at every level, in all bits, texts and bytes, and in the entries of
maps and their order, except for what is let pass. -/
inductive Resembles (slack : Slack) (h : Heap) : Value → Value → Prop
  | same {v : Value} : Resembles slack h v v
  | zeros {x y} (pass : slack.zeros = true) (left : x.isZero = true) (right : y.isZero = true) :
      Resembles slack h (.float x) (.float y)
  | bytes {r s} (content : h.bytesAt r = h.bytesAt s) : Resembles slack h (.bytes r) (.bytes s)
  | array {kind kind' r s} (kinds : kind = kind' ∨ slack.kinds = true)
      (size : (h.arrayAt r).size = (h.arrayAt s).size)
      (items : ∀ (i : Nat) x y, (h.arrayAt r)[i]? = some x → (h.arrayAt s)[i]? = some y → Resembles slack h x y) :
      Resembles slack h (.array kind r) (.array kind' s)
  | map {kind kind' r s} (kinds : kind = kind' ∨ slack.kinds = true) (keys : (h.mapAt r).keys.Perm (h.mapAt s).keys)
      (order : (h.mapAt r).keys = (h.mapAt s).keys ∨ slack.order = true)
      (values : ∀ key x y, (h.mapAt r).get? key = some x → (h.mapAt s).get? key = some y → Resembles slack h x y) :
      Resembles slack h (.map kind r) (.map kind' s)

/-- **A value about which a comparison can be mistaken**, beyond what is let pass: somewhere in its arrays and
maps there is a negative zero, a container that may be changed, or a map whose keys are not in order. -/
inductive Confusable (slack : Slack) (h : Heap) : Value → Prop
  | zero {x} (strict : slack.zeros = false) (zero : x.isZero = true) (negative : x ≠ ⟨0⟩) :
      Confusable slack h (.float x)
  | mutableArray {r} (strict : slack.kinds = false) : Confusable slack h (.array .mutable r)
  | mutableMap {r} (strict : slack.kinds = false) : Confusable slack h (.map .mutable r)
  | unordered {kind r} (strict : slack.order = false)
      (unordered : ¬(h.mapAt r).keys.Pairwise (· < ·)) : Confusable slack h (.map kind r)
  | item {kind r} {v : Value} (mem : v ∈ h.arrayAt r) (inside : Confusable slack h v) :
      Confusable slack h (.array kind r)
  | value {kind r} {v : Value} (mem : v ∈ (h.mapAt r).values) (inside : Confusable slack h v) :
      Confusable slack h (.map kind r)

section

variable {slack : Slack} {h : Heap} {v w : Value}

/-- With everything let pass, no value is confusable. -/
theorem not_confusable_all : ¬Confusable .all h v := by
  intro hv
  induction hv with
  | zero strict => cases strict
  | mutableArray strict => cases strict
  | mutableMap strict => cases strict
  | unordered strict => cases strict
  | item _ _ ih => exact ih
  | value _ _ ih => exact ih

/-! ## Comparison -/

theorem resembles_of_eq {x y : Flonum} (heq : x.eq y = true) (hx : ¬Confusable slack h (.float x))
    (hy : ¬Confusable slack h (.float y)) : Resembles slack h (.float x) (.float y) := by
  rcases Flonum.same_or_zeros heq with rfl | ⟨hzero, hzero'⟩
  · exact .same
  · cases hslack : slack.zeros with
    | true => exact .zeros hslack hzero hzero'
    | false =>
      have hpositive {z : Flonum} (hz : z.isZero = true) (hnot : ¬Confusable slack h (.float z)) : z = ⟨0⟩ := by
        by_contra hne
        exact hnot (.zero hslack hz hne)
      rw [hpositive hzero hx, hpositive hzero' hy]
      exact .same

theorem resembles_of_atomEq (heq : v.atomEq h w = true) (hv : ¬Confusable slack h v) (hw : ¬Confusable slack h w) :
    Resembles slack h v w := by
  rcases atomEq_cases heq with rfl | ⟨x, y, rfl, rfl, hxy⟩ | ⟨r, s, rfl, rfl, content⟩
  · exact .same
  · exact resembles_of_eq hxy hv hw
  · exact .bytes content

theorem frozen_of_array (hv : ¬Confusable slack h (.array kind r)) (hslack : slack.kinds = false) :
    kind = .frozen := by
  cases kind with
  | frozen => rfl
  | mutable => exact absurd (.mutableArray hslack) hv

theorem frozen_of_map (hv : ¬Confusable slack h (.map kind r)) (hslack : slack.kinds = false) : kind = .frozen := by
  cases kind with
  | frozen => rfl
  | mutable => exact absurd (.mutableMap hslack) hv

theorem keys_ordered (hv : ¬Confusable slack h (.map kind r)) (hslack : slack.order = false) :
    (h.mapAt r).keys.Pairwise (· < ·) := by
  by_contra hne
  exact hv (.unordered hslack hne)

/-- **Values that compare equal** resemble each other, up to what they are confusable in. -/
theorem resembles_of_equalsTo {depth : Nat} (heq : Value.equalsTo h depth v w = true)
    (hv : ¬Confusable slack h v) (hw : ¬Confusable slack h w) : Resembles slack h v w := by
  replace heq := equal_of_equalsTo heq
  induction heq with
  | atom atoms => exact resembles_of_atomEq atoms hv hw
  | same => exact .same
  | array size _ ih =>
    refine .array ?_ size fun i x y hx hy => ih i x y hx hy ?_ ?_
    · cases hslack : slack.kinds with
      | true => exact .inr rfl
      | false => exact .inl ((frozen_of_array hv hslack).trans (frozen_of_array hw hslack).symm)
    · exact fun hc => hv (.item (mem_of_getElem? hx) hc)
    · exact fun hc => hw (.item (mem_of_getElem? hy) hc)
  | map keys _ ih =>
    refine .map ?_ keys ?_ fun key x y hx hy => ih key x y hx hy ?_ ?_
    · cases hslack : slack.kinds with
      | true => exact .inr rfl
      | false => exact .inl ((frozen_of_map hv hslack).trans (frozen_of_map hw hslack).symm)
    · cases hslack : slack.order with
      | true => exact .inr rfl
      | false => exact .inl (keys.eq_of_pairwise' (keys_ordered hv hslack) (keys_ordered hw hslack))
    · exact fun hc => hv (.value (mem_map.mpr ⟨(key, x), Dict.mem_of_get? hx, rfl⟩) hc)
    · exact fun hc => hw (.value (mem_map.mpr ⟨(key, y), Dict.mem_of_get? hy, rfl⟩) hc)

/-! ## Merging -/

/-- **What merging puts in the place of a constant.** A function is copied, with its constants renumbered. All
else is kept, or is a frozen container for which another one is kept. -/
inductive Substitutes (places : Array Nat) (h k : Heap) (slack : Slack) : Value → Value → Prop
  | function {r s} (routine : k.routineAt s = (h.routineAt r).moved places) :
      Substitutes places h k slack (.function r) (.function s)
  | kept {v : Value} (plain : ∀ r, v ≠ .function r) : Substitutes places h k slack v v
  | merged {v w : Value} (left : v.isFrozenContainer = true) (right : w.isFrozenContainer = true)
      (resembles : Resembles slack h w v) : Substitutes places h k slack v w

variable {p : Program}

/-- **Merging keeps constants up to what a comparison overlooks.** In the place of a function is a copy of it,
and in the place of any other constant the same value, except that for a frozen array or map there may be another
one that differs from it in the sign of zeros, in which containers inside may be changed, and in the order of
the entries of maps. Where no frozen constant is confusable in one of the three, it is kept too; where none is
confusable in any, each constant is replaced by one that agrees with it in everything. -/
theorem merged_constants_resemble (hmain : p.main < h.routines.size)
    (hlt : ∀ r, .function r ∈ p.constants → r < h.routines.size) :
    ∃ places : Array Nat, (p.merged h).2.routineAt (p.merged h).1.main = (h.routineAt p.main).moved places ∧
      (∀ (i : Nat) v, p.constants[i]? = some v → ∃ (j : Nat) (w : Value), places[i]? = some j ∧
        (p.merged h).1.constants[j]? = some w ∧ Substitutes places h (p.merged h).2 .all v w) ∧
      ∀ slack, (∀ v ∈ p.constants, v.isFrozenContainer = true → ¬Confusable slack h v) →
        ∀ (i : Nat) v, p.constants[i]? = some v → ∃ (j : Nat) (w : Value), places[i]? = some j ∧
          (p.merged h).1.constants[j]? = some w ∧ Substitutes places h (p.merged h).2 slack v w := by
  obtain ⟨places, pool, -, hold, hc⟩ := merged_copies hmain hlt
  have hcode := (hc.pair_routine ⟨0, rfl, getElem?_append_left Nat.one_pos⟩).2.2
  have hplaces (slack) (hconfusable : ∀ v ∈ p.constants, v.isFrozenContainer = true → ¬Confusable slack h v)
      (i : Nat) (v) (hi : p.constants[i]? = some v) : ∃ (j : Nat) (w : Value), places[i]? = some j ∧
        (p.merged h).1.constants[j]? = some w ∧ Substitutes places h (p.merged h).2 slack v w := by
    obtain ⟨j, w, hj, -, hw, hstands⟩ := hold.place (by simpa using hi)
    have hall : (Value.function p.main :: pool.kept.toList)[j + 1]? = some w := by simpa using hw
    by_cases hf : ∃ r, w = .function r
    · obtain ⟨r, rfl⟩ := hf
      have hv : v = .function r := by
        rcases hstands with hv | ⟨-, hfrozen, -⟩
        · exact hv.symm
        · cases hfrozen
      obtain ⟨s, hs, -, -, hroutine⟩ := hc.function hall
      subst hv
      exact ⟨j, .function s, hj, merged_shift ▸ hs, .function hroutine⟩
    · have hplain : ∀ r, w ≠ .function r := fun r hr => hf ⟨r, hr⟩
      refine ⟨j, w, hj, merged_shift ▸ hc.other hall hplain, ?_⟩
      rcases hstands with rfl | ⟨hv, hw', hequals⟩
      · exact .kept hplain
      · have hmem : w ∈ p.constants := by simpa using hold.origin w (mem_of_getElem? hw)
        exact .merged hv hw' (resembles_of_equalsTo hequals (hconfusable w hmem hw')
          (hconfusable v (mem_of_getElem? hi) hv))
  exact ⟨places, hcode, hplaces .all fun v _ _ => not_confusable_all, hplaces⟩

end

def cloneHeap : Heap where
  arrays := #[#[.float ⟨0x3ff8000000000000⟩, .map .frozen 0], #[.float ⟨0x3ff8000000000000⟩, .map .frozen 1]]
  maps := #[Dict.ofList [("a", .int 1), ("b", .int 2)], Dict.ofList [("a", .int 1), ("b", .int 2)]]
  routines := #[{}]

def clones : Program where
  main := 0
  constants := #[.array .frozen 0, .array .frozen 1]

theorem clones_not_confusable (hv : v ∈ clones.constants) : ¬Confusable .none cloneHeap v := by
  have hint (n : Int64) : ¬Confusable .none cloneHeap (.int n) := nofun
  have hfloat : ¬Confusable .none cloneHeap (.float ⟨0x3ff8000000000000⟩) := by
    rintro ⟨_, hzero, _⟩
    revert hzero
    decide
  have hmap {r : Ref} (hr : r = 0 ∨ r = 1) : ¬Confusable .none cloneHeap (.map .frozen r) := by
    intro hc
    cases hc with
    | unordered _ unordered => rcases hr with rfl | rfl <;> exact unordered (by decide)
    | @value _ _ w mem inside =>
      have hmem : w ∈ [Value.int 1, .int 2] := by rcases hr with rfl | rfl <;> exact mem
      simp only [mem_cons, not_mem_nil, or_false] at hmem
      rcases hmem with rfl | rfl <;> exact hint _ inside
  have hitem {w : Value} {r : Ref} (hr : r = 0 ∨ r = 1)
      (hw : w ∈ [Value.float ⟨0x3ff8000000000000⟩, .map .frozen r]) : ¬Confusable .none cloneHeap w := by
    simp only [mem_cons, not_mem_nil, or_false] at hw
    rcases hw with rfl | rfl
    · exact hfloat
    · exact hmap hr
  intro hc
  simp only [clones, mem_def, mem_cons, not_mem_nil, or_false] at hv
  rcases hv with rfl | rfl
  · cases hc with
    | item mem inside => exact hitem (.inl rfl) (mem_toList_iff.mpr mem) inside
  · cases hc with
    | item mem inside => exact hitem (.inr rfl) (mem_toList_iff.mpr mem) inside

/-- They are merged, and each is replaced by one that agrees with it in everything. -/
theorem clones_resemble : (clones.merged cloneHeap).1.constants = #[.array .frozen 0] ∧
    ∃ places : Array Nat, ∀ (i : Nat) v, clones.constants[i]? = some v → ∃ (j : Nat) (w : Value),
      places[i]? = some j ∧ (clones.merged cloneHeap).1.constants[j]? = some w ∧
        Substitutes places cloneHeap (clones.merged cloneHeap).2 .none v w := by
  have hfunctions : ∀ r, .function r ∈ clones.constants → r < cloneHeap.routines.size := by
    intro r hr
    simp [clones] at hr
  obtain ⟨places, _, _, hstrict⟩ := merged_constants_resemble (p := clones) (h := cloneHeap) (by decide) hfunctions
  exact ⟨by decide +kernel, places, hstrict .none fun v hv _ => clones_not_confusable hv⟩

/-- Two zeros, two arrays of which one may be changed, and two orders of the same entries, each in a frozen
container of its own. -/
def twinHeap : Heap where
  arrays := #[#[.float ⟨0⟩], #[.float ⟨0x8000000000000000⟩], #[.int 1], #[.array .mutable 2], #[.array .frozen 2]]
  maps := #[Dict.ofList [("a", .int 1), ("b", .int 2)], Dict.ofList [("b", .int 2), ("a", .int 1)]]
  routines := #[{}]

def twins : Program where
  main := 0
  constants := #[.array .frozen 0, .array .frozen 1, .array .frozen 3, .array .frozen 4, .map .frozen 0, .map .frozen 1]

/-- Of each pair only the first is left, though the two do not agree. -/
theorem twins_are_merged : (twins.merged twinHeap).1.constants = #[.array .frozen 0, .array .frozen 3, .map .frozen 0] ∧
    ¬Resembles .none twinHeap (.array .frozen 0) (.array .frozen 1) ∧
    ¬Resembles .none twinHeap (.array .frozen 3) (.array .frozen 4) ∧
    ¬Resembles .none twinHeap (.map .frozen 0) (.map .frozen 1) := by
  refine ⟨by decide +kernel, ?_, ?_, ?_⟩
  · intro hr
    cases hr with
    | array _ _ items => cases items 0 (.float ⟨0⟩) (.float ⟨0x8000000000000000⟩) rfl rfl with
      | zeros pass => cases pass
  · intro hr
    cases hr with
    | array _ _ items => cases items 0 (.array .mutable 2) (.array .frozen 2) rfl rfl with
      | array kinds =>
        rcases kinds with h | h <;> cases h
  · intro hr
    cases hr with
    | map _ _ order =>
      rcases order with h | h
      · revert h
        decide
      · cases h

end Scripting
