import Scripting.Proofs.Image.Tree
import Scripting.Proofs.Program.Likeness
/-!
# `Proofs.Program.Canonical` — the pool that merging leaves

Which constants are merged is a relation that is symmetric and transitive (`merges_symm`, `merges_trans`); it is not
reflexive, as a container with a not-a-number in it is not even equal to itself. So the constants that are kept are
those that merge with none before them (`firsts`), no two of them merge, and merging once more changes nothing
(`merged_canonical`).

In the code of a function only the numbers of constants change (`Renumbers`), whatever else the code is.
-/

namespace Scripting

open Code Fragment Value List

variable {h k : Heap} {v w u : Value} {depth : Nat}

/-! ## What is merged -/

theorem Equal.routines (he : Equal h depth v w) (rs : Array Routine) : Equal { h with routines := rs } depth v w := by
  induction he with
  | atom atoms => exact .atom atoms
  | same hc => exact .same hc
  | array size _ ih => exact .array size ih
  | map keys _ ih => exact .map keys ih

namespace Value

/-- **The merge relation**: the same plain constant, or frozen containers that are equal. -/
def merges (h : Heap) (v w : Value) : Bool :=
  v.isPlainConstant && v == w || v.isFrozenContainer && w.isFrozenContainer && v.equals h w

theorem merges_iff : v.merges h w = true ↔ v.isPlainConstant = true ∧ v = w ∨
    v.isFrozenContainer = true ∧ w.isFrozenContainer = true ∧ v.equals h w = true := by
  simp [merges, and_assoc]

theorem merges_symm (hm : v.merges h w = true) : w.merges h v = true := by
  rcases merges_iff.mp hm with ⟨hp, rfl⟩ | ⟨hv, hw, he⟩
  · exact hm
  · exact merges_iff.mpr (.inr ⟨hw, hv, (equal_of_equalsTo he).symm.equalsTo⟩)

theorem merges_trans (hm : v.merges h w = true) (hm' : w.merges h u = true) : v.merges h u = true := by
  rcases merges_iff.mp hm with ⟨hp, rfl⟩ | ⟨hv, hw, he⟩
  · exact hm'
  · rcases merges_iff.mp hm' with ⟨-, rfl⟩ | ⟨-, hu, he'⟩
    · exact hm
    · exact merges_iff.mpr (.inr ⟨hv, hu, ((equal_of_equalsTo he).trans (equal_of_equalsTo he')).equalsTo⟩)

theorem merges_of_routines (hm : v.merges { h with routines := rs } w = true) : v.merges h w = true := by
  rcases merges_iff.mp hm with hp | ⟨hv, hw, he⟩
  · exact merges_iff.mpr (.inl hp)
  · exact merges_iff.mpr (.inr ⟨hv, hw, ((equal_of_equalsTo he).routines h.routines).equalsTo⟩)

end Value

/-- The constants that do not merge with one before them, where `before` come before all. -/
def firstsAfter (h : Heap) (before : List Value) : List Value → List Value
  | [] => []
  | v :: rest =>
    if before.any (·.merges h v) then firstsAfter h (v :: before) rest
    else v :: firstsAfter h (v :: before) rest

/-- **The first occurrences** of the constants, in order. -/
def firsts (h : Heap) (vs : List Value) : List Value := firstsAfter h [] vs

/-- **The place of a constant** among the first occurrences: that of the one before it with which it merges, or else the
next one. Numbers of no constant stay. -/
def newPlace (h : Heap) (vs : List Value) (n : Nat) : Nat :=
  (vs[n]?.map fun v => (firsts h (vs.take n)).findIdx (·.merges h v)).getD n

theorem firstsAfter_distinct (h : Heap) (before vs : List Value) :
    (firstsAfter h before vs).Pairwise (fun v w => v.merges h w = false) ∧
      ∀ v ∈ before, ∀ w ∈ firstsAfter h before vs, v.merges h w = false := by
  induction vs generalizing before with
  | nil => exact ⟨.nil, fun _ _ _ hw => nomatch hw⟩
  | cons v rest ih =>
    obtain ⟨hrest, hbefore⟩ := ih (v :: before)
    unfold firstsAfter
    split
    · exact ⟨hrest, fun u hu => hbefore u (mem_cons_of_mem v hu)⟩
    · next hany =>
      refine ⟨.cons (hbefore v mem_cons_self) hrest, fun u hu => forall_mem_cons.mpr ⟨?_, ?_⟩⟩
      · simpa using any_eq_false.mp (by simpa using hany) u hu
      · exact hbefore u (mem_cons_of_mem v hu)

theorem getElem?_distinct {vs : Array Value} (hd : vs.toList.Pairwise fun v w => v.merges h w = false) {i j : Nat}
    (hi : vs[i]? = some v) (hj : vs[j]? = some w) (hm : v.merges h w = true) : i = j := by
  have hless {i j : Nat} {v w : Value} (hij : i < j) (hi : vs[i]? = some v) (hj : vs[j]? = some w)
      (hm : v.merges h w = true) : False := by
    obtain ⟨hlt, rfl⟩ := Array.getElem?_eq_some_iff.mp hi
    obtain ⟨hlt', rfl⟩ := Array.getElem?_eq_some_iff.mp hj
    have hfalse := pairwise_iff_getElem.mp hd i j hlt hlt' hij
    rw [Array.getElem_toList, Array.getElem_toList, hm] at hfalse
    cases hfalse
  rcases Nat.lt_trichotomy i j with hij | heq | hij
  · exact (hless hij hi hj hm).elim
  · exact heq
  · exact (hless hij hj hi (merges_symm hm)).elim

/-! ## The pool -/

namespace Pool

variable {vs rest : List Value} {pool : Pool} {places : Array Nat}

/-- **A constant is found at the first kept one that it merges with.** -/
theorem Holds.find?_eq (hold : Holds h vs pool places) (v : Value) :
    pool.find? h v = pool.kept.findIdx? (·.merges h v) := by
  unfold find?
  by_cases hp : v.isPlainConstant
  · rw [if_pos hp]
    cases hj : pool.kept.findIdx? (·.merges h v) with
    | none =>
      cases hi : pool.places[v]? with
      | none => rfl
      | some i =>
        have := Array.findIdx?_eq_none_iff.mp hj v (Array.mem_of_getElem? (hold.found hi))
        rw [merges_iff.mpr (.inl ⟨hp, rfl⟩)] at this
        cases this
    | some j =>
      obtain ⟨hlt, hmerges, -⟩ := Array.findIdx?_eq_some_iff_getElem.mp hj
      rcases merges_iff.mp hmerges with ⟨-, heq⟩ | ⟨-, hf, -⟩
      · exact hold.once hp (heq ▸ Array.getElem?_eq_getElem hlt)
      · cases v <;> simp_all [isFrozenContainer, isPlainConstant]
  · have hmerges (w : Value) : w.merges h v = (v.isFrozenContainer && (w.isFrozenContainer && w.equals h v)) := by
      rw [Bool.eq_iff_iff, merges_iff]
      simp only [Bool.and_eq_true]
      constructor
      · rintro (⟨hw, rfl⟩ | ⟨hw, hv, he⟩)
        · exact absurd hw hp
        · exact ⟨hv, hw, he⟩
      · exact fun ⟨hv, hw, he⟩ => .inr ⟨hw, hv, he⟩
    rw [if_neg hp]
    simp only [hmerges]
    cases v.isFrozenContainer with
    | true => simp
    | false => exact (Array.findIdx?_eq_none_iff.mpr fun _ _ => rfl).symm

/-- **What is kept are the first occurrences.** The constants before and those that are kept already merge with the
same values. -/
theorem Holds.place_kept (hold : Holds h vs pool places) {before : List Value}
    (hb : ∀ u, before.any (·.merges h u) = pool.kept.any (·.merges h u)) :
    (Pool.place h rest pool places).2.kept.toList = pool.kept.toList ++ firstsAfter h before rest := by
  induction rest generalizing vs pool places before with
  | nil => simp [Pool.place, firstsAfter]
  | cons v rest ih =>
    have hany : before.any (·.merges h v) = (pool.find? h v).isSome := by
      rw [hb v, hold.find?_eq v, Array.findIdx?_isSome]
    unfold Pool.place firstsAfter
    rw [hany]
    cases hf : pool.find? h v with
    | some j =>
      refine ih (hold.old hf) fun u => ?_
      obtain ⟨w, hw, hmerges⟩ : ∃ w ∈ pool.kept, w.merges h v = true := by
        rw [← Array.any_eq_true', ← hb v, hany, hf]
        rfl
      rw [any_cons, hb u, Bool.or_eq_right_iff_imp]
      intro hu
      exact Array.any_eq_true'.mpr ⟨w, hw, merges_trans hmerges hu⟩
    | none =>
      refine (@ih _ _ _ (hold.new hf) (v :: before) fun u => ?_).trans (by simp [push])
      simp [push, hb u, Bool.or_comm]

/-- Constants of which no two merge keep their places. -/
theorem Holds.place_distinct (hold : Holds h vs pool places)
    (hp : (pool.kept.toList ++ rest).Pairwise fun v w => v.merges h w = false) :
    (Pool.place h rest pool places).1.toList = places.toList ++ range' pool.kept.size rest.length ∧
      (Pool.place h rest pool places).2.kept.toList = pool.kept.toList ++ rest := by
  induction rest generalizing vs pool places with
  | nil => simp [Pool.place]
  | cons v rest ih =>
    have hf : pool.find? h v = none := by
      rw [hold.find?_eq v, Array.findIdx?_eq_none_iff]
      intro w hw
      exact (pairwise_append.mp hp).2.2 w (by simpa using hw) v mem_cons_self
    unfold Pool.place
    rw [hf]
    obtain ⟨hplaces, hkept⟩ := ih (hold.new hf) (by simpa [push] using hp)
    exact ⟨hplaces.trans (by simp [push, range'_succ]), hkept.trans (by simp [push])⟩

theorem place_append (h : Heap) (vs rest : List Value) (pool : Pool) (places : Array Nat) :
    place h (vs ++ rest) pool places = place h rest (place h vs pool places).2 (place h vs pool places).1 := by
  induction vs generalizing pool places with
  | nil => rfl
  | cons v vs ih =>
    rw [cons_append, place, place]
    cases pool.find? h v <;> exact ih _ _

theorem place_stays (h : Heap) (rest : List Value) (pool : Pool) {places : Array Nat} {n j : Nat}
    (hn : places[n]? = some j) : (place h rest pool places).1[n]? = some j := by
  induction rest generalizing pool places with
  | nil => exact hn
  | cons v rest ih =>
    unfold place
    cases pool.find? h v <;> exact ih _ (getElem?_push_of_some hn)

/-- **Where the constants are found again.** -/
theorem placeOf_place : placeOf (place h vs {} #[]).1 n = newPlace h vs n := by
  unfold placeOf newPlace
  have hall := place_holds vs (Holds.empty h)
  cases hv : vs[n]? with
  | none =>
    have hn : (place h vs {} #[]).1.size ≤ n := by
      rw [hall.size]
      exact getElem?_eq_none_iff.mp hv
    rw [Array.getElem?_eq_none hn]
    rfl
  | some v =>
    have hlt := (List.getElem?_eq_some_iff.mp hv).1
    -- the constants before the one in question have found their places
    have hsplit : vs = vs.take n ++ v :: vs.drop (n + 1) := by
      rw [← (List.getElem?_eq_some_iff.mp hv).2, ← List.drop_eq_getElem_cons hlt, List.take_append_drop]
    have hold := place_holds (vs.take n) (Holds.empty h)
    have hkept : (place h (vs.take n) {} #[]).2.kept.toList = firsts h (vs.take n) :=
      (Holds.empty h).place_kept fun _ => (by simp)
    rw [nil_append] at hold
    have hsize := hold.size
    rw [length_take_of_le (Nat.le_of_lt hlt)] at hsize
    have hfound : (place h vs {} #[]).1[n]? =
        some (((place h (vs.take n) {} #[]).2.find? h v).getD (place h (vs.take n) {} #[]).2.kept.size) := by
      have hpush (j : Nat) : ((place h (vs.take n) {} #[]).1.push j)[n]? = some j := by
        rw [Array.getElem?_push, if_pos hsize.symm]
      nth_rewrite 1 [hsplit]
      rw [place_append, place]
      cases (place h (vs.take n) {} #[]).2.find? h v <;> exact place_stays h _ _ (hpush _)
    rw [hfound, hold.find?_eq v, ← Array.findIdx_eq_getD_findIdx?, Option.map_some, ← hkept, ← findIdx_toArray,
      Array.toArray_toList]

end Pool

/-! ## Code -/

/-- The instruction has the number of a constant, all of which is there. -/
def NamesConstant (size : Nat) (a : Nat × Instruction) : Prop :=
  (a.2.op = .constant ∨ a.2.op = .closure) ∧ a.1 + 3 ≤ size

/-- **What renumbering does to code**: the numbers of constants in the instructions `ls` are replaced, and nothing else
changes. -/
structure Renumbers (f : Nat → Nat) (ls : List (Nat × Instruction)) (code code' : Bytes) : Prop where
  size : code'.size = code.size
  numbers : ∀ a ∈ ls, NamesConstant code.size a → readU16 code' (a.1 + 1) = f (readU16 code (a.1 + 1))
  others : ∀ j, (∀ a ∈ ls, NamesConstant code.size a → j ≠ a.1 + 1 ∧ j ≠ a.1 + 2) → code'[j]? = code[j]?

section

variable {code code' : Bytes} {places : Array Nat} {i j value size : Nat} {a : Nat × Instruction}

theorem readU16_congr (hfirst : code'[i]? = code[i]?) (hsecond : code'[i + 1]? = code[i + 1]?) :
    readU16 code' i = readU16 code i := by
  simp only [readU16, readU8, Array.getD_eq_getD_getElem?, hfirst, hsecond]

theorem readU16_lt : readU16 code i < 65536 := by
  have hfirst := (code.getD i 0).toNat_lt
  have hsecond := (code.getD (i + 1) 0).toNat_lt
  unfold readU16 readU8
  omega

theorem getElem?_patchU16 (hi : j ≠ i) (hj : j ≠ i + 1) : (patchU16 code i value)[j]? = code[j]? := by
  unfold patchU16
  split
  · rw [Array.getElem?_setIfInBounds_ne hj.symm, Array.getElem?_setIfInBounds_ne hi.symm]
  · rfl

theorem readU16_patchU16 (hi : i + 2 ≤ code.size) (hv : value < 65536) : readU16 (patchU16 code i value) i = value := by
  have hfirst : i < code.size := by omega
  have hsecond : i + 1 < code.size := by omega
  simp only [patchU16, if_pos hi, readU16, readU8, Array.getD_eq_getD_getElem?, Array.getElem?_setIfInBounds,
    Array.size_setIfInBounds, hfirst, hsecond]
  simp
  omega

theorem patchU16_readU16 : patchU16 code i (readU16 code i) = code := by
  unfold patchU16
  split
  · have hfirst : i < code.size := by omega
    have hsecond : i + 1 < code.size := by omega
    have hhigh : UInt8.ofNat (readU16 code i / 256) = code[i] := by
      have := code[i].toNat_lt
      have := code[i + 1].toNat_lt
      apply UInt8.toNat_inj.mp
      simp [readU16, readU8, hfirst, hsecond]
      omega
    have hlow : UInt8.ofNat (readU16 code i) = code[i + 1] := by
      apply UInt8.toNat_inj.mp
      simp [readU16, readU8, hfirst, hsecond]
    simp [hhigh, hlow, Array.setIfInBounds_def, hfirst, hsecond]
  · rfl

theorem renumberAt_namesConstant (hop : a.2.op = .constant ∨ a.2.op = .closure) :
    renumberAt places code a = patchU16 code (a.1 + 1) (placeOf places (readU16 code (a.1 + 1))) := by
  have hnone : places[readU16 code (a.1 + 1)]? = none →
      code = patchU16 code (a.1 + 1) (placeOf places (readU16 code (a.1 + 1))) := fun hn => by
    rw [placeOf, hn, Option.getD_none, patchU16_readU16]
  unfold renumberAt
  cases hn : places[readU16 code (a.1 + 1)]? with
  | none => rcases hop with hop | hop <;> (rw [hop]; exact hnone hn)
  | some j => rcases hop with hop | hop <;> simp [hop, placeOf, hn]

theorem renumberAt_of_not (ha : ¬NamesConstant code.size a) : renumberAt places code a = code := by
  by_cases hop : a.2.op = .constant ∨ a.2.op = .closure
  · rw [renumberAt_namesConstant hop, patchU16, if_neg fun hsize => ha ⟨hop, hsize⟩]
  · unfold renumberAt
    split <;> first | rfl | exact absurd (by simp_all) hop

theorem foldl_renumbers (hle : ∀ n, placeOf places n ≤ n)
    (hs : ls.Pairwise fun a b => NamesConstant code.size a → a.1 + 3 ≤ b.1) :
    Renumbers (placeOf places) ls code (ls.foldl (renumberAt places) code) := by
  induction ls generalizing code with
  | nil => exact ⟨rfl, nofun, fun _ _ => rfl⟩
  | cons x xs ih =>
    obtain ⟨hx, hxs⟩ := pairwise_cons.mp hs
    rw [foldl_cons]
    by_cases hr : NamesConstant code.size x
    · have hvalue : placeOf places (readU16 code (x.1 + 1)) < 65536 := Nat.lt_of_le_of_lt (hle _) readU16_lt
      rw [renumberAt_namesConstant hr.1]
      obtain ⟨hsize, hnumbers, hothers⟩ :=
        @ih (patchU16 code (x.1 + 1) (placeOf places (readU16 code (x.1 + 1)))) (by rwa [size_patchU16])
      rw [size_patchU16] at hsize hnumbers hothers
      refine ⟨hsize, forall_mem_cons.mpr ⟨fun _ => ?_, fun a ha hnames => ?_⟩, fun j hj => ?_⟩
      · -- the later instructions leave the number that is written now
        have hkept (j : Nat) (hj : j < x.1 + 3) := hothers j fun a ha _ => by
          have := hx a ha hr
          omega
        rw [readU16_congr (hkept _ (by omega)) (hkept _ (by omega)), readU16_patchU16 hr.2 hvalue]
      · have hfar := hx a ha hr
        rw [hnumbers a ha hnames]
        exact congrArg _ (readU16_congr (getElem?_patchU16 (by omega) (by omega))
          (getElem?_patchU16 (by omega) (by omega)))
      · rw [hothers j fun a ha => hj a (mem_cons_of_mem x ha)]
        obtain ⟨hfirst, hsecond⟩ := hj x mem_cons_self hr
        exact getElem?_patchU16 hfirst hsecond
    · rw [renumberAt_of_not hr]
      obtain ⟨hsize, hnumbers, hothers⟩ := ih hxs
      refine ⟨hsize, forall_mem_cons.mpr ⟨fun hx => absurd hx hr, hnumbers⟩, fun j hj => ?_⟩
      exact hothers j fun a ha => hj a (mem_cons_of_mem x ha)

theorem length_of_namesConstant (ha : NamesConstant size a) : 3 ≤ a.2.op.length := by
  rcases ha.1 with hop | hop <;> (rw [hop]; decide)

theorem decodeFrom_spaced (code : Bytes) (size ip : Nat) :
    ((decodeFrom code ip).Pairwise fun a b => NamesConstant size a → a.1 + 3 ≤ b.1) ∧
      ∀ a ∈ decodeFrom code ip, ip ≤ a.1 := by
  fun_induction decodeFrom code ip with
  | case1 => exact ⟨.nil, nofun⟩
  | case2 ip hip op hop ih =>
    obtain ⟨hspaced, hle⟩ := ih
    refine ⟨.cons (fun b hb href => ?_) hspaced, forall_mem_cons.mpr ⟨Nat.le_refl ip, fun b hb => ?_⟩⟩
    · exact (Nat.add_le_add_left (length_of_namesConstant href) ip).trans (hle b hb)
    · exact (Nat.le_add_right ip _).trans (hle b hb)
  | case3 => exact ⟨.nil, nofun⟩

/-- **The instructions stay where they are**, if the bytes change only in numbers of constants. -/
theorem decodeFrom_map (hsize : code'.size = code.size) (hbytes : ∀ j, ip ≤ j →
      (∀ a ∈ decodeFrom code ip, NamesConstant code.size a → j ≠ a.1 + 1 ∧ j ≠ a.1 + 2) → code'[j]? = code[j]?) :
    (decodeFrom code' ip).map (fun a => (a.1, a.2.op)) = (decodeFrom code ip).map fun a => (a.1, a.2.op) := by
  have hfirst {ip : Nat} (hip : ip < code.size) (hip' : ip < code'.size) (heq : code'[ip]? = code[ip]?) :
      code'[ip] = code[ip] := by
    rw [Array.getElem?_eq_getElem hip, Array.getElem?_eq_getElem hip'] at heq
    exact Option.some.inj heq
  fun_induction decodeFrom code ip with
  | case1 ip hip hop =>
    have hip' : ip < code'.size := hsize ▸ hip
    rw [decodeFrom, dif_pos hip', hfirst hip hip' (hbytes ip (Nat.le_refl ip) nofun), hop]
  | case2 ip hip op hop ih =>
    have hip' : ip < code'.size := hsize ▸ hip
    have hlater := (decodeFrom_spaced code 0 (ip + op.length)).2
    have hsame := hbytes ip (Nat.le_refl ip) (forall_mem_cons.mpr
      ⟨fun _ => ⟨by simp, by simp⟩, fun a ha _ => by have := hlater a ha; omega⟩)
    rw [decodeFrom, dif_pos hip', hfirst hip hip' hsame, hop, map_cons, map_cons, ih]
    intro j hj hfar
    refine hbytes j (by omega) (forall_mem_cons.mpr ⟨fun hr => ?_, hfar⟩)
    have hlength : 3 ≤ op.length := length_of_namesConstant hr
    exact ⟨by simp; omega, by simp; omega⟩
  | case3 ip hip => rw [decodeFrom, dif_neg (hsize ▸ hip)]

/-- **Renumbering changes the numbers of constants**, as far as the code can be read, and nothing else. -/
theorem renumber_renumbers (hle : ∀ n, placeOf places n ≤ n) (code : Bytes) :
    Renumbers (placeOf places) (decode code) code (Code.renumber places code) := by
  exact foldl_renumbers hle (decodeFrom_spaced code code.size 0).1

theorem renumber_of_id (hid : ∀ n, placeOf places n = n) : Code.renumber places code = code := by
  have hone (a : Nat × Instruction) : renumberAt places code a = code := by
    by_cases ha : NamesConstant code.size a
    · rw [renumberAt_namesConstant ha.1, hid, patchU16_readU16]
    · exact renumberAt_of_not ha
  rw [renumber_eq]
  induction decode code with
  | nil => rfl
  | cons a ls ih => rw [foldl_cons, hone, ih]

end

/-! ## Programs -/

/-- **A function and its copy**: they differ in the numbers of constants. -/
structure CopyOf (f : Nat → Nat) (a b : Routine) : Prop where
  rest : b = { a with code := b.code }
  code : Renumbers f (decode a.code) a.code b.code
  instructions : (decode b.code).map (fun i => (i.1, i.2.op)) = (decode a.code).map fun i => (i.1, i.2.op)

/-- **A constant that is kept**: a copy of a function, or any other constant as it is. -/
inductive Kept (f : Nat → Nat) (h k : Heap) : Value → Value → Prop
  | function {r s} (routine : CopyOf f (h.routineAt r) (k.routineAt s)) : Kept f h k (.function r) (.function s)
  | other {v : Value} (other : ∀ r, v ≠ .function r) : Kept f h k v v

/-- **Merged constants.** The pool has the first occurrences, of which no two merge, functions and code name them
by their new places, and merging once more gives an equal program. -/
structure Canonical (p : Program) (h : Heap) (q : Program) (k : Heap) : Prop where
  files : q.files = p.files
  main : CopyOf (newPlace h p.constants.toList) (h.routineAt p.main) (k.routineAt q.main)
  pool : Forall₂ (Kept (newPlace h p.constants.toList) h k) (firsts h p.constants.toList) q.constants.toList
  distinct : ∀ {i j : Nat} {v w : Value}, q.constants[i]? = some v → q.constants[j]? = some w →
    v.merges k w = true → i = j
  again : q.same (q.merged k).2 (q.merged k).1 = true

theorem moved_copyOf {places : Array Nat} (hle : ∀ n, placeOf places n ≤ n) (a : Routine) :
    CopyOf (placeOf places) a (a.moved places) := by
  have hcode := renumber_renumbers hle a.code
  exact ⟨rfl, hcode, decodeFrom_map hcode.size fun j _ hj => hcode.others j hj⟩

theorem moved_of_id {places : Array Nat} (hid : ∀ n, placeOf places n = n) (a : Routine) : a.moved places = a := by
  unfold Routine.moved
  rw [renumber_of_id hid]

/-- A constant that has been copied if it is a function, and stays if not. -/
inductive Copies.Of (places : Array Nat) (h k : Heap) : Value → Value → Prop
  | function {r s} (lt : s < k.routines.size) (routine : k.routineAt s = (h.routineAt r).moved places) :
      Copies.Of places h k (.function r) (.function s)
  | other {v : Value} (other : ∀ r, v ≠ .function r) : Copies.Of places h k v v

theorem Copies.Of.eq {places : Array Nat} (hc : Copies.Of places h k v w) (hw : ∀ s, w ≠ .function s) : v = w := by
  cases hc with
  | function => exact absurd rfl (hw _)
  | other => rfl

theorem Copies.Of.copy {places : Array Nat} (hc : Copies.Of places h k (.function r) (.function s)) :
    s < k.routines.size ∧ k.routineAt s = (h.routineAt r).moved places := by
  cases hc with
  | function lt routine => exact ⟨lt, routine⟩
  | other other => exact absurd rfl (other r)

/-- What a constant is a copy of. -/
theorem Copies.Of.origin {places : Array Nat} (hs : Forall₂ (Copies.Of places h k) vs ws)
    (hw : w ∈ ws) : ∃ v ∈ vs, Copies.Of places h k v w := by
  induction hs with
  | nil => cases hw
  | cons hc _ ih =>
    rcases mem_cons.mp hw with rfl | hw
    · exact ⟨_, mem_cons_self, hc⟩
    · obtain ⟨v, hv, hc⟩ := ih hw
      exact ⟨v, mem_cons_of_mem _ hv, hc⟩

namespace Copies

variable {places : Array Nat} {vs : List Value} {done : Array Value}

theorem forall₂ (hc : Copies places h vs done k) : Forall₂ (Copies.Of places h k) vs done.toList := by
  refine forall₂_iff_get.mpr ⟨hc.size.symm, fun i hi hi' => ?_⟩
  have hdone : done[i]? = some (done.toList.get ⟨i, hi'⟩) := Array.getElem?_eq_getElem hi'
  have hv : vs[i]? = some (vs.get ⟨i, hi⟩) := getElem?_eq_getElem hi
  by_cases hf : ∃ r, vs.get ⟨i, hi⟩ = .function r
  · obtain ⟨r, hr⟩ := hf
    rw [hr] at hv ⊢
    obtain ⟨s, hs, -, hlt, hroutine⟩ := hc.function hv
    rw [hdone] at hs
    rw [Option.some.inj hs]
    exact .function hlt hroutine
  · have hother : ∀ r, vs.get ⟨i, hi⟩ ≠ .function r := fun r hr => hf ⟨r, hr⟩
    rw [Option.some.inj (hdone.symm.trans (hc.other hv hother))]
    exact .other hother

theorem cons {x y : Value} (hc : Copies places h (x :: vs) (#[y] ++ done) k) :
    Copies.Of places h k x y ∧ Forall₂ (Copies.Of places h k) vs done.toList := by
  simpa using hc.forall₂

/-- **No two of the copies merge** if no two of the constants do. -/
theorem distinct (hc : Copies places h (x :: vs) (#[y] ++ done) k)
    (hd : vs.Pairwise fun v w => v.merges h w = false) : done.toList.Pairwise fun v w => v.merges k w = false := by
  obtain ⟨hlength, hat⟩ := forall₂_iff_get.mp hc.cons.2
  obtain ⟨extra, rfl⟩ := hc.heap
  refine pairwise_iff_getElem.mpr fun i j hi hj hij => Bool.not_eq_true _ ▸ fun hmerges => ?_
  have hkept := pairwise_iff_getElem.mp hd i j (hlength ▸ hi) (hlength ▸ hj) hij
  have hboth (hf : ∀ s, done.toList[i] ≠ .function s) (hf' : ∀ s, done.toList[j] ≠ .function s) : False := by
    have hfirst := (hat i (hlength ▸ hi) hi).eq hf
    have hsecond := (hat j (hlength ▸ hj) hj).eq hf'
    rw [get_eq_getElem, get_eq_getElem] at hfirst hsecond
    rw [hfirst, hsecond, merges_of_routines hmerges] at hkept
    cases hkept
  rcases merges_iff.mp hmerges with ⟨-, heq⟩ | ⟨hf, hf', -⟩
  · by_cases hs : ∃ s, done.toList[i] = .function s
    · obtain ⟨s, hs⟩ := hs
      have hplace {n : Nat} (hn : n < done.toList.length) (heq : done.toList[n] = .function s) :
          (#[y] ++ done)[n + 1]? = some (.function s) := by
        rw [Array.getElem?_append_right (by simp)]
        exact (Array.getElem?_eq_getElem hn).trans (congrArg some heq)
      have := hc.injective (hplace hi hs) (hplace hj (heq ▸ hs))
      omega
    · exact hboth (fun s hs' => hs ⟨s, hs'⟩) (fun s hs' => hs ⟨s, heq ▸ hs'⟩)
  · refine hboth (fun s hs => ?_) (fun s hs => ?_)
    · rw [hs] at hf
      cases hf
    · rw [hs] at hf'
      cases hf'

theorem extends_heap (hc : Copies places h vs done k) : h.Extends k := by
  obtain ⟨extra, rfl⟩ := hc.heap
  exact ⟨id, id, id, id, fun hx => by
    rw [Array.getElem?_append_left (Array.getElem?_eq_some_iff.mp hx).1]
    exact hx⟩

end Copies

/-- A constant is equal to itself, as far down as it goes. -/
theorem Value.sameConstantTo_self (hd : v.WithinDepth h depth) : v.sameConstantTo h depth v = true := by
  induction depth generalizing v with
  | zero => exact hd.elim
  | succ depth ih =>
    have hname : (v.typeName h == v.typeName h) = true := beq_self_eq_true _
    unfold sameConstantTo
    cases v with
    | array kind r =>
      have hall : ((h.arrayAt r).toList.zip (h.arrayAt r).toList).all
          (fun e => e.1.sameConstantTo h depth e.2) = true :=
        SameTree.all_zip (fun x hx y (hxy : x = y) => hxy ▸ ih (hd x (.item (by simpa using hx))))
          (forall₂_same.mpr fun _ _ => rfl)
      simpa using hall
    | map kind r =>
      simp only [beq_self_eq_true, Bool.true_and, all_eq_true]
      intro e he
      rw [Dict.get?_of_mem he]
      exact ih (hd e.2 (.value (mem_map_of_mem he)))
    | error r => exact ih (hd _ .payload)
    | _ => simp [equals, equalsTo, atomEq, Limits.nesting]

section

variable {p : Program}

/-- **Nothing is merged** where no two constants merge. -/
theorem same_merged (hmain : p.main < h.routines.size) (hlt : ∀ r, .function r ∈ p.constants → r < h.routines.size)
    (hdistinct : p.constants.toList.Pairwise fun v w => v.merges h w = false)
    (htree : ∀ v ∈ p.constants, (∀ r, v ≠ .function r) → v.IsTree h) :
    p.same (p.merged h).2 (p.merged h).1 = true := by
  obtain ⟨places, pool, hplaced, -, hc⟩ := merged_copies hmain hlt
  obtain ⟨hplaces, hkept⟩ := @Pool.Holds.place_distinct h [] p.constants.toList {} #[] (.empty h) hdistinct
  rw [hplaced] at hplaces hkept
  have hid (n : Nat) : placeOf places n = n := by
    have hn : places[n]? = (range' 0 p.constants.toList.length)[n]? := by
      rw [← Array.getElem?_toList, hplaces]
      rfl
    rw [placeOf, hn]
    cases hj : (range' 0 p.constants.toList.length)[n]? with
    | none => rfl
    | some j =>
      obtain ⟨hlt, rfl⟩ := List.getElem?_eq_some_iff.mp hj
      simp
  have he := hc.extends_heap
  obtain ⟨hfirst, hrest⟩ := hc.cons
  rw [show pool.kept.toList = p.constants.toList from hkept] at hrest
  have hroutines {r s : Ref} (hr : r < h.routines.size)
      (hcopy : Copies.Of places h (p.merged h).2 (.function r) (.function s)) :
      (p.merged h).2.routineAt r = (p.merged h).2.routineAt s := by
    rw [hcopy.copy.2, moved_of_id hid, he.routineAt hr]
  have hsize : p.constants.size = (p.merged h).1.constants.size := hrest.length_eq
  unfold Program.same
  rw [hroutines hmain hfirst, hsize]
  simp only [beq_self_eq_true, Bool.and_true, Bool.and_eq_true]
  refine ⟨beq_self_eq_true p.files, SameTree.all_zip (fun v hv w hvw => ?_) hrest⟩
  have hv' : v ∈ p.constants := by simpa using hv
  cases hvw with
  | @function r s lt routine =>
    have hsame := hroutines (hlt r hv') (.function lt routine)
    simp [sameConstant, sameConstantTo, Heap.nestingBound, typeName, hsame]
  | other other => exact sameConstantTo_self ((htree v hv' other).extend he).withinDepth

/-- **Merging gives the canonical pool**, if the constants are finite trees. -/
theorem merged_canonical (hmain : p.main < h.routines.size) (htree : ∀ v ∈ p.constants, v.IsTree h) :
    Canonical p h (p.merged h).1 (p.merged h).2 := by
  have hlt (r : Ref) (hr : .function r ∈ p.constants) : r < h.routines.size :=
    (IsTree.fits (htree (.function r) hr)).1
  obtain ⟨places, pool, hplaced, hold, hc⟩ := merged_copies hmain hlt
  have hplaces : placeOf places = newPlace h p.constants.toList := by
    funext n
    rw [← Pool.placeOf_place, hplaced]
  have hkept : pool.kept.toList = firsts h p.constants.toList := by
    have := @Pool.Holds.place_kept h [] p.constants.toList {} #[] (.empty h) [] fun _ => (by simp)
    rw [hplaced] at this
    exact this
  have hmoved {r s : Ref} (hcopy : Copies.Of places h (p.merged h).2 (.function r) (.function s)) :
      CopyOf (newPlace h p.constants.toList) (h.routineAt r) ((p.merged h).2.routineAt s) := by
    rw [hcopy.copy.2, ← hplaces]
    exact moved_copyOf (placeOf_le hold) _
  have hdistinct := hc.distinct (hkept ▸ (firstsAfter_distinct h [] p.constants.toList).1)
  obtain ⟨hfirst, hrest⟩ := hc.cons
  refine ⟨rfl, hmoved hfirst, ?_, fun hi hj => getElem?_distinct hdistinct hi hj,
    same_merged hfirst.copy.1 ?_ hdistinct ?_⟩
  · rw [← hkept]
    refine hrest.imp fun v w hvw => ?_
    cases hvw with
    | function lt routine => exact .function (hmoved (.function lt routine))
    | other other => exact .other other
  · intro s hs
    obtain ⟨v, -, hcopy⟩ := Copies.Of.origin hrest (by simpa using hs)
    cases hcopy with
    | function lt => exact lt
    | other other => exact absurd rfl (other s)
  · intro w hw hother
    obtain ⟨v, hv, hcopy⟩ := Copies.Of.origin hrest (by simpa using hw)
    have hmem : v ∈ p.constants := by simpa using hold.origin v (by simpa using hv)
    exact hcopy.eq hother ▸ (htree v hmem).extend hc.extends_heap

end

/-- Two frozen arrays with the same content, and code that names the second one. -/
def repeatsHeap : Heap where
  arrays := #[#[.int 1], #[.int 1]]
  routines := #[{ code := #[Opcode.constant.byte, 0, 1] }]

def repeats : Program where
  main := 0
  constants := #[.array .frozen 0, .array .frozen 1]

/-- The first one is left, and the code names it. -/
theorem repeats_canonical : (repeats.merged repeatsHeap).1.constants = #[.array .frozen 0] ∧
    ((repeats.merged repeatsHeap).2.routineAt (repeats.merged repeatsHeap).1.main).code =
      #[Opcode.constant.byte, 0, 0] ∧
    Canonical repeats repeatsHeap (repeats.merged repeatsHeap).1 (repeats.merged repeatsHeap).2 := by
  have harray {r : Ref} (hr : r < repeatsHeap.arrays.size) (heq : repeatsHeap.arrayAt r = #[int 1]) :
      (array .frozen r).IsTree repeatsHeap := by
    refine .node ⟨hr, by simp [heq, wordLimit]⟩ fun w hw => ?_
    cases hw with
    | item mem =>
      rw [heq] at mem
      obtain rfl : w = .int 1 := by simpa using mem
      exact .node trivial fun w hw => by cases hw
  refine ⟨by decide +kernel, by decide +kernel, merged_canonical (by decide) fun v hv => ?_⟩
  simp only [repeats, Array.mem_def, mem_cons, not_mem_nil, or_false] at hv
  rcases hv with rfl | rfl
  · exact harray (by decide) rfl
  · exact harray (by decide) rfl

end Scripting
