import Mathlib.Logic.Function.Basic
import Scripting.Proofs.Code.Renumber
import Scripting.Proofs.Compile.Building
/-!
# `Proofs.Compile.Book` — the numbers that a compilation gives

The numbers that constants, functions and maps get depend on what was compiled before. To compare compilations, a
unit (a program or a module) is compiled once more on its own, and the numbers of the two compilations are matched.

* **books** — a `Book` lists the numbers that the constants, functions and maps of a unit have got, in the order in
  which the unit made them;
* **apart** — a number is used once: units have different numbers, and none that is reserved (`UsedOnce`);
* **realization** — `Realizes M d c b`: what the unit made when it was compiled on its own, in context `d`, is there
  in context `c` under the numbers of the book `b`. Constants are equal or stand for things that correspond, and
  functions have the same code up to the numbers of their constants.
-/

namespace Scripting

open Code Generator Function List Option

/-- What gets a number. -/
inductive Series
  | constants
  | routines
  | maps
  deriving DecidableEq

/-- How many numbers have been given out. -/
def Generator.Context.count (c : Context) : Series → Nat
  | .constants => c.constants.size
  | .routines => c.heap.routines.size
  | .maps => c.heap.maps.size

/-- **The numbers of a unit**, in the order in which it got them. -/
abbrev Book := Series → Array Nat

namespace Book

variable {b b' b'' : Book} {k k' : Series} {j m n : Nat}

def blank : Book := fun _ => #[]

/-- Write down a number. -/
def note (b : Book) (k : Series) (n : Nat) : Book := update b k ((b k).push n)

/-- `κ` gives the constants of the unit their numbers. -/
def Numbers (b : Book) (κ : Nat → Nat) : Prop := ∀ ⦃j n : Nat⦄, (b .constants)[j]? = some n → κ j = n

/-- `b'` has the numbers of `b`, and maybe more. -/
def Le (b b' : Book) : Prop := ∀ ⦃k : Series⦄ ⦃j n : Nat⦄, (b k)[j]? = some n → (b' k)[j]? = some n

theorem Le.refl (b : Book) : b.Le b := fun _ _ _ hj => hj

theorem Le.trans (h : b.Le b') (h' : b'.Le b'') : b.Le b'' := fun _ _ _ hj => h' (h hj)

theorem Numbers.of_le (h : b'.Numbers κ) (hle : b.Le b') : b.Numbers κ := fun _ _ hj => h (hle hj)

/-- The number of a constant of the unit; one that the unit does not have is zero. -/
def number (b : Book) (j : Nat) : Nat := (b .constants).getD j 0

theorem numbers_number (b : Book) : b.Numbers b.number := by
  intro j n hj
  simp [number, hj]

theorem of_note (h : (b.note k n k')[j]? = some m) : (b k')[j]? = some m ∨ k' = k ∧ j = (b k).size ∧ m = n := by
  unfold note at h
  by_cases hk : k' = k
  · subst hk
    rw [update_self, Array.getElem?_push] at h
    split at h
    · exact .inr ⟨rfl, ‹_›, (some.inj h).symm⟩
    · exact .inl h
  · rw [update_of_ne hk] at h
    exact .inl h

theorem note_self (b : Book) (k : Series) (n : Nat) : (b.note k n k)[(b k).size]? = some n := by
  rw [note, update_self, Array.getElem?_push_size]

theorem le_note (b : Book) (k : Series) (n : Nat) : b.Le (b.note k n) := by
  intro k' j m h
  unfold note
  by_cases hk : k' = k
  · subst hk
    have hj : j < (b k').size := (Array.getElem?_eq_some_iff.mp h).1
    rw [update_self, Array.getElem?_push, if_neg (Nat.ne_of_lt hj), h]
  · rw [update_of_ne hk, h]

theorem size_note : (b.note k n k').size = (b k').size + if k' = k then 1 else 0 := by
  unfold note
  by_cases hk : k' = k
  · subst hk
    rw [update_self, Array.size_push, if_pos rfl]
  · rw [update_of_ne hk, if_neg hk, Nat.add_zero]

end Book

/-! ## Numbers that are used once -/

/-- The book of the unit at hand, or that of a module. -/
def shelf (library : String → Book) (b : Book) : Option String → Book
  | none => b
  | some name => library name

/-- **Every number is used once**, and never one that is reserved. -/
structure UsedOnce (F : Option String → Array Nat) (Q : Nat → Prop) : Prop where
  injective : ∀ {o o' : Option String} {j j' n : Nat}, (F o)[j]? = some n → (F o')[j']? = some n → o = o' ∧ j = j'
  outside : ∀ {o : Option String} {j n : Nat}, (F o)[j]? = some n → ¬Q n

namespace UsedOnce

variable {F F' : Option String → Array Nat} {Q Q' : Nat → Prop}

/-- The unit at hand takes a number that is larger than all that are in use. -/
theorem push (h : UsedOnce F Q) (hF : ∀ {o : Option String} {j n : Nat}, (F o)[j]? = some n → n < r)
    (hQ : ∀ {n}, Q n → n < r) (hnone : F' none = (F none).push r)
    (hsome : ∀ name, F' (some name) = F (some name)) : UsedOnce F' Q := by
  have hcases {o : Option String} {j n : Nat} (hn : (F' o)[j]? = some n) :
      (F o)[j]? = some n ∨ o = none ∧ j = (F none).size ∧ n = r := by
    cases o with
    | some name => exact .inl (hsome name ▸ hn)
    | none =>
      rw [hnone, Array.getElem?_push] at hn
      split at hn
      · exact .inr ⟨rfl, ‹_›, (some.inj hn).symm⟩
      · exact .inl hn
  constructor
  · intro o o' j j' n hn hn'
    rcases hcases hn with hn | ⟨rfl, rfl, rfl⟩ <;> rcases hcases hn' with hn' | ⟨rfl, rfl, hr⟩
    · exact h.injective hn hn'
    · exact absurd (hr ▸ hF hn) (Nat.lt_irrefl _)
    · exact absurd (hF hn') (Nat.lt_irrefl _)
    · exact ⟨rfl, rfl⟩
  · intro o j n hn hq
    rcases hcases hn with hn | ⟨-, -, rfl⟩
    · exact h.outside hn hq
    · exact absurd (hQ hq) (Nat.lt_irrefl _)

/-- A new unit begins; the numbers of the one at hand are reserved meanwhile. -/
theorem begin (h : UsedOnce F Q) (hnone : F' none = #[]) (hsome : ∀ name, F' (some name) = F (some name))
    (hQ : ∀ {n}, Q' n → Q n ∨ ∃ j : Nat, (F none)[j]? = some n) : UsedOnce F' Q' := by
  have hcases {o : Option String} {j n : Nat} (hn : (F' o)[j]? = some n) :
      ∃ name, o = some name ∧ (F o)[j]? = some n := by
    cases o with
    | some name => exact ⟨name, rfl, hsome name ▸ hn⟩
    | none => simp [hnone] at hn
  constructor
  · intro o o' j j' n hn hn'
    obtain ⟨_, rfl, hn⟩ := hcases hn
    obtain ⟨_, rfl, hn'⟩ := hcases hn'
    exact h.injective hn hn'
  · intro o j n hn hq
    obtain ⟨_, rfl, hn⟩ := hcases hn
    rcases hQ hq with hq | ⟨_, hold⟩
    · exact h.outside hn hq
    · exact some_ne_none _ (h.injective hn hold).1

/-- A module is done: its numbers go on the shelf, and the unit that waited goes on. -/
theorem resume (h : UsedOnce F Q) (h' : UsedOnce F' Q') (hnone : G none = F none) (hnew : G (some name) = F' none)
    (hsome : ∀ other, other ≠ name → G (some other) = F' (some other))
    (hQ : ∀ {n}, (Q n ∨ ∃ j : Nat, (F none)[j]? = some n) → Q' n) : UsedOnce G Q := by
  -- what is on the shelf was apart from the unit that waited
  have hcases {o : String} {j n : Nat} (hn : (G (some o))[j]? = some n) :
      ∃ o', (F' o')[j]? = some n ∧ (o' = none ∧ o = name ∨ o' = some o ∧ o ≠ name) := by
    by_cases ho : o = name
    · subst ho
      exact ⟨none, hnew ▸ hn, .inl ⟨rfl, rfl⟩⟩
    · exact ⟨some o, hsome o ho ▸ hn, .inr ⟨rfl, ho⟩⟩
  have hapart {o : String} {j j' n : Nat} (hn : (G (some o))[j]? = some n) : ¬(G none)[j']? = some n := by
    intro hn'
    obtain ⟨o', hn, -⟩ := hcases hn
    exact h'.outside hn (hQ (.inr ⟨j', hnone ▸ hn'⟩))
  constructor
  · intro o o' j j' n hn hn'
    cases o with
    | none =>
      cases o' with
      | none =>
        rw [hnone] at hn hn'
        exact ⟨rfl, (h.injective hn hn').2⟩
      | some o' => exact absurd hn (hapart hn')
    | some o =>
      cases o' with
      | none => exact absurd hn' (hapart hn)
      | some o' =>
        obtain ⟨p, hp, ho⟩ := hcases hn
        obtain ⟨p', hp', ho'⟩ := hcases hn'
        obtain ⟨rfl, rfl⟩ := h'.injective hp hp'
        refine ⟨congrArg some ?_, rfl⟩
        rcases ho with ⟨rfl, rfl⟩ | ⟨rfl, -⟩ <;> rcases ho' with ⟨h1, rfl⟩ | ⟨h1, -⟩
        · rfl
        · cases h1
        · cases h1
        · exact some.inj h1
  · intro o j n hn hq
    cases o with
    | none => exact h.outside (hnone ▸ hn) hq
    | some o =>
      obtain ⟨o', hn, -⟩ := hcases hn
      exact h'.outside hn (hQ (.inl hq))

end UsedOnce

/-! ## Placeholders -/

/-- A source module that a unit imports is known by its place in the module map. -/
def ModuleMap.placeholders (M : ModuleMap) : Dict Ref := M.withValues (range M.size)

namespace ModuleMap

theorem find?_zip_range {ks : List String} (hnodup : ks.Nodup) {name : String} {r : Nat} : ∀ {n : Nat},
    Dict.find? name (ks.zip (range' n ks.length)) = some r ↔ n ≤ r ∧ ks[r - n]? = some name := by
  induction ks with
  | nil => simp [Dict.find?]
  | cons key rest ih =>
    intro n
    obtain ⟨hmem, hrest⟩ := nodup_cons.mp hnodup
    rw [length_cons, range'_succ, zip_cons_cons, Dict.find?]
    by_cases hkey : key = name
    · subst hkey
      rw [if_pos rfl]
      constructor
      · intro h
        cases h
        simp
      · rintro ⟨hle, hget⟩
        by_cases hr : r = n
        · rw [hr]
        · obtain ⟨i, hi⟩ : ∃ i, r - n = i + 1 := ⟨r - n - 1, by omega⟩
          rw [hi, getElem?_cons_succ] at hget
          exact absurd (mem_of_getElem? hget) hmem
    · rw [if_neg hkey, ih hrest]
      constructor
      · rintro ⟨hle, hget⟩
        refine ⟨by omega, ?_⟩
        have hsub : r - n = (r - (n + 1)) + 1 := by omega
        rw [hsub, getElem?_cons_succ, hget]
      · rintro ⟨hle, hget⟩
        have hne : r ≠ n := by
          intro hr
          rw [hr, Nat.sub_self] at hget
          exact hkey (some.inj hget)
        refine ⟨by omega, ?_⟩
        have hsub : r - n = (r - (n + 1)) + 1 := by omega
        rwa [hsub, getElem?_cons_succ] at hget

theorem get?_placeholders {M : ModuleMap} : M.placeholders.get? name = some r ↔ M.keys[r]? = some name := by
  have hlen : M.size = M.keys.length := by simp [Dict.size, Dict.keys]
  have hnodup : M.keys.Nodup := M.nodup
  have h := @find?_zip_range M.keys hnodup name r 0
  rw [← hlen, ← range_eq_range'] at h
  show Dict.find? name (M.keys.zip (range M.size)) = some r ↔ _
  simp [h]

theorem lt_of_placeholder {M : ModuleMap} (h : M.placeholders.get? name = some r) : r < M.size := by
  have hr := (List.getElem?_eq_some_iff.mp (get?_placeholders.mp h)).1
  simpa [Dict.size, Dict.keys] using hr

theorem not_placeholder {M : ModuleMap} : ¬M.placeholders.get? name = some (M.size + j) :=
  fun h => Nat.not_lt.mpr (Nat.le_add_right ..) (lt_of_placeholder h)

theorem eq_of_placeholder {M : ModuleMap} (h : M.placeholders.get? name = some r)
    (h' : M.placeholders.get? name' = some r) : name = name' :=
  some.inj ((get?_placeholders.mp h).symm.trans (get?_placeholders.mp h'))

theorem mem_keys_of_find? : ∀ {es : List (String × α)}, Dict.find? name es = some v → name ∈ es.map Prod.fst
  | (key, w) :: rest, h => by
    rw [Dict.find?] at h
    split at h
    · subst_vars
      simp
    · exact mem_cons_of_mem _ (mem_keys_of_find? h)

theorem exists_placeholder {M : ModuleMap} (h : M.get? name = some m) : ∃ r, M.placeholders.get? name = some r := by
  obtain ⟨r, hr⟩ := mem_iff_getElem?.mp (mem_keys_of_find? h)
  exact ⟨r, get?_placeholders.mpr hr⟩

end ModuleMap

/-! ## Realization -/

/-- The functions that a unit finds when it is compiled on its own. -/
def ModuleMap.offset (M : ModuleMap) : Series → Nat
  | .routines => M.size
  | _ => 0

/-- The constant `w` is what the constant `v` is when the unit is compiled on its own. -/
inductive Counterpart (M : ModuleMap) (b : Book) (modules : Dict Ref) : Value → Value → Prop
  | literal {v} (h : v.isLiteral = true) : Counterpart M b modules v v
  | attributes {j m} (h : (b .maps)[j]? = some m) : Counterpart M b modules (.map .frozen j) (.map .frozen m)
  | function {j r} (h : (b .routines)[j]? = some r) : Counterpart M b modules (.function (M.size + j)) (.function r)
  | module {name p r} (hp : M.placeholders.get? name = some p) (hr : modules.get? name = some r) :
    Counterpart M b modules (.function p) (.function r)

/-- The same function up to the numbers of its constants. -/
structure SameUpTo (b : Book) (r r' : Routine) : Prop where
  code : ∃ f, Assembled f r.code ∧ ∀ κ, b.Numbers κ → Assembled (f.renumber κ) r'.code
  others : r' = { r with code := r'.code }

/-- What the unit has under one of its numbers in context `d`, where it is compiled on its own, is there in context `c`
under the number `n`. -/
def Found (M : ModuleMap) (d c : Context) (b : Book) : Series → Nat → Nat → Prop
  | .constants, j, n => ∃ v w, d.constants[j]? = some v ∧ c.constants[n]? = some w ∧ Counterpart M b c.modules v w
  | .routines, j, n => n < c.heap.routines.size ∧ SameUpTo b (d.heap.routineAt (M.size + j)) (c.heap.routineAt n)
  | .maps, j, n => n < c.heap.maps.size ∧ c.heap.mapAt n = d.heap.mapAt j

/-- **What a unit makes in context `d`, where it is compiled on its own, is there in context `c`**, under the numbers
of the book. -/
structure Realizes (M : ModuleMap) (d c : Context) (b : Book) : Prop where
  count : ∀ k, d.count k = M.offset k + (b k).size
  found : ∀ {k j n}, (b k)[j]? = some n → Found M d c b k j n

/-- More constants, objects and modules. -/
structure Generator.Context.Extends (c c' : Context) : Prop where
  le : c.Le c'
  modules : ∀ {name : String} {r : Ref}, c.modules.get? name = some r → c'.modules.get? name = some r

variable {M : ModuleMap} {c c' c1 c2 d d' : Context} {b b' : Book}

theorem Generator.Context.Extends.refl (c : Context) : c.Extends c := ⟨.refl c, id⟩

theorem Generator.Context.Extends.trans (h : c.Extends c1) (h' : c1.Extends c2) : c.Extends c2 :=
  ⟨h.le.trans h'.le, fun hm => h'.modules (h.modules hm)⟩

theorem Generator.Context.Le.count_le (h : c.Le c') (k : Series) : c.count k ≤ c'.count k := by
  cases k with
  | constants => exact h.constants_size
  | routines => exact h.routines_size
  | maps => exact h.maps_size

theorem Counterpart.mono {modules modules' : Dict Ref} (h : Counterpart M b modules v w) (hb : b.Le b')
    (hm : ∀ {name : String} {r : Ref}, modules.get? name = some r → modules'.get? name = some r) :
    Counterpart M b' modules' v w := by
  cases h with
  | literal h => exact .literal h
  | attributes h => exact .attributes (hb h)
  | function h => exact .function (hb h)
  | module hp hr => exact .module hp (hm hr)

theorem SameUpTo.mono (h : SameUpTo b r r') (hb : b.Le b') : SameUpTo b' r r' := by
  obtain ⟨f, hf, hcode⟩ := h.code
  exact ⟨⟨f, hf, fun κ hκ => hcode κ (hκ.of_le hb)⟩, h.others⟩

namespace Realizes

/-- Nothing has been made yet. -/
theorem empty (h : ∀ k, d.count k = M.offset k) : Realizes M d c .blank where
  count k := by rw [h k]; rfl
  found h := by simp [Book.blank] at h

theorem lt_count (h : Realizes M d c b) {j n : Nat} (hn : (b k)[j]? = some n) : n < c.count k := by
  have hfound := h.found hn
  cases k with
  | constants =>
    obtain ⟨v, w, -, hw, -⟩ := hfound
    exact (Array.getElem?_eq_some_iff.mp hw).1
  | routines => exact hfound.1
  | maps => exact hfound.1

section

variable (h : Realizes M d c b) (hd : d.Le d') (hc : c.Extends c')
include h hd hc

theorem found_of_le (hb : b.Le b') {j n : Nat} (hn : (b k)[j]? = some n) : Found M d' c' b' k j n := by
  have hj : M.offset k + j < d.count k := by
    rw [h.count]
    exact Nat.add_lt_add_left (Array.getElem?_eq_some_iff.mp hn).1 _
  have hfound := h.found hn
  cases k with
  | constants =>
    obtain ⟨v, w, hv, hw, hvw⟩ := hfound
    exact ⟨v, w, hd.constants hv, hc.le.constants hw, hvw.mono hb hc.modules⟩
  | routines =>
    obtain ⟨hlt, hsame⟩ := hfound
    have hj : M.size + j < d.heap.routines.size := hj
    refine ⟨Nat.lt_of_lt_of_le hlt hc.le.routines_size, ?_⟩
    rw [hd.routines hj, hc.le.routines hlt]
    exact hsame.mono hb
  | maps =>
    obtain ⟨hlt, heq⟩ := hfound
    have hj : j < d.heap.maps.size := Nat.zero_add j ▸ hj
    refine ⟨Nat.lt_of_lt_of_le hlt hc.le.maps_size, ?_⟩
    rw [hd.maps hj, hc.le.maps hlt]
    exact heq

theorem grow (hcount : ∀ k, d'.count k = d.count k) : Realizes M d' c' b where
  count k := (hcount k).trans (h.count k)
  found := h.found_of_le hd hc (.refl b)

/-- **A number is written down** for what both contexts have got. -/
theorem note (hcount : ∀ k', d'.count k' = d.count k' + if k' = k then 1 else 0)
    (hnew : ∀ j, d.count k = M.offset k + j → Found M d' c' (b.note k n) k j n) : Realizes M d' c' (b.note k n) where
  count k' := by rw [hcount, h.count, Book.size_note, Nat.add_assoc]
  found hn := by
    rcases Book.of_note hn with hn | ⟨rfl, rfl, rfl⟩
    · exact h.found_of_le hd hc (b.le_note ..) hn
    · exact hnew _ (h.count _)

end

theorem withConstant (h : Realizes M d c b) {v w : Value} (hv : Counterpart M b c.modules v w) :
    Realizes M (d.withConstant v) (c.withConstant w) (b.note .constants c.constants.size) := by
  refine h.note (d.le_withConstant v) ⟨c.le_withConstant w, id⟩ (fun k => ?_) fun j hj => ?_
  · cases k <;> simp [Context.count, Context.withConstant]
  · obtain rfl : d.constants.size = j := hj.trans (Nat.zero_add j)
    exact ⟨v, w, by simp [Context.withConstant], by simp [Context.withConstant], hv.mono (b.le_note ..) id⟩

theorem withRoutine (h : Realizes M d c b) {r r' : Routine} (hr : SameUpTo b r r') :
    Realizes M (d.withHeapRoutine r) (c.withHeapRoutine r') (b.note .routines c.heap.routines.size) := by
  refine h.note (d.le_withHeapRoutine r) ⟨c.le_withHeapRoutine r', id⟩ (fun k => ?_) fun j hj => ?_
  · cases k <;> simp [Context.count, Context.withHeapRoutine, Heap.newFunction]
  · have hleft : M.size + j = (d.heap.newFunction r).1 := hj.symm
    have hnew : (c.withHeapRoutine r').heap.routineAt c.heap.routines.size = r' := c.routineAt_withHeapRoutine r'
    refine ⟨c.lt_withHeapRoutine r', ?_⟩
    rw [hleft, d.routineAt_withHeapRoutine r, hnew]
    exact hr.mono (b.le_note ..)

theorem withMap (h : Realizes M d c b) (attributes : Dict Value) :
    Realizes M (d.withFrozenMap attributes) (c.withFrozenMap attributes) (b.note .maps c.heap.maps.size) := by
  refine h.note (d.le_withFrozenMap attributes) ⟨c.le_withFrozenMap attributes, id⟩ (fun k => ?_) fun j hj => ?_
  · cases k <;> simp [Context.count, Context.withFrozenMap, Heap.newMap]
  · obtain rfl : d.heap.maps.size = j := hj.trans (Nat.zero_add j)
    refine ⟨by simp [Context.withFrozenMap, Heap.newMap], ?_⟩
    simp [Context.withFrozenMap, mapAt_newMap]

end Realizes

end Scripting
