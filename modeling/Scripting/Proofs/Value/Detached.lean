import Scripting.Builtin.Call
import Scripting.Proofs.Value.Duplicate
import Scripting.Proofs.Value.Equality
/-!
# `Proofs.Value.Detached` — copies are equal to their originals and apart from them

`CopiedTo h k depth v w` says how a copy `w`, made of objects of `k` that are not in `h`, follows the value `v` of `h`
down to a depth, where it goes over into the original. Copying gives such a value (`copyTo_copied`). It is equal to the
original since a comparison looks as far down as a copy goes (`CopiedTo.equal`).

An `Edit` changes one container and may make others. So edits of the objects that were there before the copy was made
leave the new ones alone, and the other way round (`copy_equal_detached`).
-/

namespace Scripting

open Nat Dict Value Array Object

variable {h k k' : Heap} {u v w x y : Value} {depth : Nat} {path : List Edge} {e : Edge}

/-! ## What can be copied -/

/-- What a value refers to is there, and it is neither a not-a-number, nor an error, nor an iterator. -/
def Value.Ordinary (h : Heap) : Value → Prop
  | .float x => x.isNaN = false
  | .bytes r => r < h.bytes.size
  | .array _ r => r < h.arrays.size
  | .map _ r => r < h.maps.size
  | .error _ | .iterator _ => False
  | _ => True

/-- **All values inside are ordinary**, through any number of arrays and maps. -/
def Value.Copyable (h : Heap) (v : Value) : Prop := ∀ path u, v.at? h path = some u → u.Ordinary h

theorem Value.Copyable.ordinary (hv : v.Copyable h) : v.Ordinary h := hv [] v rfl

theorem Value.Copyable.child (hv : v.Copyable h) (hx : v.child? h e = some x) : x.Copyable h :=
  fun path u hu => hv (e :: path) u (Option.bind_eq_some_iff.mpr ⟨x, hx, hu⟩)

theorem Value.Ordinary.atomEq_self (hv : v.Ordinary h) (hc : v.isContainer = false) : v.atomEq k v = true := by
  refine Scripting.atomEq_self hc ?_
  rintro x rfl
  exact hv

namespace Heap.Grown

theorem bytesAt_eq (hg : h.Grown k) (hr : r < h.bytes.size) : k.bytesAt r = h.bytesAt r :=
  bytes.inj (hg.object (t := .bytes) hr)

theorem arrayAt_eq (hg : h.Grown k) (hr : r < h.arrays.size) : k.arrayAt r = h.arrayAt r :=
  items.inj (hg.object (t := .arrays) hr)

theorem mapAt_eq (hg : h.Grown k) (hr : r < h.maps.size) : k.mapAt r = h.mapAt r :=
  entries.inj (hg.object (t := .maps) hr)

/-- Arrays and maps that are there keep their contents. -/
theorem child?_eq (hg : h.Grown k) (hv : v.Ordinary h) : v.child? k e = v.child? h e := by
  cases v with
  | array kind r => simp only [child?, hg.arrayAt_eq hv]
  | map kind r => simp only [child?, hg.mapAt_eq hv]
  | _ => rfl

theorem at?_eq (hg : h.Grown k) (hv : v.Copyable h) : v.at? k path = v.at? h path := by
  induction path generalizing v with
  | nil => rfl
  | cons e path ih =>
    unfold at?
    rw [hg.child?_eq hv.ordinary]
    cases hx : v.child? h e with
    | none => rfl
    | some x => exact ih (hv.child hx)

end Heap.Grown

/-! ## Copies -/

/-- **`w` is a copy of `v`** to this depth, made of objects of `k` that are not in `h`. -/
inductive CopiedTo (h k : Heap) : Nat → Value → Value → Prop
  | shared (v : Value) : CopiedTo h k 0 v v
  | atom {depth : Nat} {v : Value} (container : v.isContainer = false) (buffer : ∀ r, v ≠ .bytes r) :
      CopiedTo h k (depth + 1) v v
  | bytes {depth : Nat} {r s : Ref} (fresh : h.bytes.size ≤ s) (live : s < k.bytes.size)
      (content : k.bytesAt s = h.bytesAt r) : CopiedTo h k (depth + 1) (.bytes r) (.bytes s)
  | array {depth : Nat} {kind} {r s : Ref} (fresh : h.arrays.size ≤ s) (live : s < k.arrays.size)
      (size : (k.arrayAt s).size = (h.arrayAt r).size)
      (items : ∀ (i : Nat) x y, (h.arrayAt r)[i]? = some x → (k.arrayAt s)[i]? = some y → CopiedTo h k depth x y) :
      CopiedTo h k (depth + 1) (.array kind r) (.array .mutable s)
  | map {depth : Nat} {kind} {r s : Ref} (fresh : h.maps.size ≤ s) (live : s < k.maps.size)
      (keys : (k.mapAt s).keys = (h.mapAt r).keys)
      (values : ∀ key x y, (h.mapAt r).get? key = some x → (k.mapAt s).get? key = some y → CopiedTo h k depth x y) :
      CopiedTo h k (depth + 1) (.map kind r) (.map .mutable s)

/-- If the value is a container or a buffer, it is an object of `k` that is not in `h`, and can be changed. -/
def Value.New (h k : Heap) : Value → Prop
  | .bytes r => h.bytes.size ≤ r ∧ r < k.bytes.size
  | .array kind r => kind = .mutable ∧ h.arrays.size ≤ r ∧ r < k.arrays.size
  | .map kind r => kind = .mutable ∧ h.maps.size ≤ r ∧ r < k.maps.size
  | _ => True

namespace CopiedTo

theorem grow (hc : CopiedTo h k depth v w) (hg : k.Grown k') : CopiedTo h k' depth v w := by
  induction hc with
  | shared v => exact .shared v
  | atom container buffer => exact .atom container buffer
  | bytes fresh live content =>
    exact .bytes fresh (lt_of_lt_of_le live (hg.later.size .bytes)) ((hg.bytesAt_eq live).trans content)
  | array fresh live size _ ih =>
    have hitems := hg.arrayAt_eq live
    refine .array fresh (lt_of_lt_of_le live (hg.later.size .arrays)) (by rw [hitems, size]) ?_
    rw [hitems]
    exact ih
  | map fresh live keys _ ih =>
    have hentries := hg.mapAt_eq live
    refine .map fresh (lt_of_lt_of_le live (hg.later.size .maps)) (by rw [hentries, keys]) ?_
    rw [hentries]
    exact ih

/-- **A copy is equal to its original**: a comparison looks as far down as the copy goes. -/
theorem equal (hc : CopiedTo h k depth v w) (hg : h.Grown k) (hv : v.Copyable h) : Equal k depth w v := by
  induction hc with
  | shared v =>
    cases hcontainer : v.isContainer with
    | true => exact .same hcontainer
    | false => exact .atom (hv.ordinary.atomEq_self hcontainer)
  | atom container => exact .atom (hv.ordinary.atomEq_self container)
  | bytes _ _ content => exact .atom (beq_iff_eq.mpr (content.trans (hg.bytesAt_eq hv.ordinary).symm))
  | array _ _ size _ ih =>
    have hitems := hg.arrayAt_eq hv.ordinary
    refine .array (by rw [hitems, size]) fun i y x hy hx => ?_
    rw [hitems] at hx
    exact ih i x y hx hy (hv.child (e := .item i) hx)
  | map _ _ keys _ ih =>
    have hentries := hg.mapAt_eq hv.ordinary
    refine .map (by rw [hentries, keys]) fun key y x hy hx => ?_
    rw [hentries] at hx
    exact ih key x y hx hy (hv.child (e := .entry key) hx)

theorem child (hc : CopiedTo h k (depth + 1) v w) (e : Edge) :
    Option.Rel (CopiedTo h k depth) (v.child? h e) (w.child? k e) := by
  cases hc with
  | atom container => cases v <;> first | exact .none | cases container
  | bytes => exact .none
  | @array _ _ r s _ _ size items =>
    cases e with
    | entry => exact .none
    | item i =>
      show Option.Rel _ (h.arrayAt r)[i]? (k.arrayAt s)[i]?
      by_cases hi : i < (h.arrayAt r).size
      · have hi' := size ▸ hi
        rw [getElem?_eq_getElem hi, getElem?_eq_getElem hi']
        exact .some (items i _ _ (getElem?_eq_getElem hi) (getElem?_eq_getElem hi'))
      · rw [getElem?_eq_none (not_lt.mp hi), getElem?_eq_none (size ▸ not_lt.mp hi)]
        exact .none
  | @map _ _ r s _ _ keys values =>
    cases e with
    | item => exact .none
    | entry key =>
      show Option.Rel _ ((h.mapAt r).get? key) ((k.mapAt s).get? key)
      cases hx : (h.mapAt r).get? key with
      | some x =>
        have hkey : key ∈ (k.mapAt s).keys := keys ▸ List.mem_map_of_mem (mem_of_get? hx)
        obtain ⟨y, hy⟩ := get?_of_mem_keys hkey
        rw [hy]
        exact .some (values key x y hx hy)
      | none =>
        cases hy : (k.mapAt s).get? key with
        | none => exact .none
        | some y =>
          have hkey : key ∈ (h.mapAt r).keys := keys ▸ List.mem_map_of_mem (mem_of_get? hy)
          obtain ⟨x, hx'⟩ := get?_of_mem_keys hkey
          cases hx.symm.trans hx'

/-- **The containers of a copy are new and can be changed**, as far down as it goes. -/
theorem fresh (hc : CopiedTo h k depth v w) (hlen : path.length < depth) (hu : w.at? k path = some u) :
    u.New h k := by
  induction path generalizing depth v w with
  | nil =>
    cases hu
    cases hc with
    | shared => cases hlen
    | atom container buffer =>
      cases u with
      | bytes r => exact absurd rfl (buffer r)
      | array | map => cases container
      | _ => trivial
    | bytes fresh live => exact ⟨fresh, live⟩
    | array fresh live => exact ⟨rfl, fresh, live⟩
    | map fresh live => exact ⟨rfl, fresh, live⟩
  | cons e path ih =>
    cases depth with
    | zero => cases hlen
    | succ depth =>
      obtain ⟨y, hy, hu⟩ := Option.bind_eq_some_iff.mp hu
      have hrel := hc.child e
      rw [hy] at hrel
      generalize v.child? h e = o at hrel
      cases hrel with
      | some hxy => exact ih hxy (lt_of_succ_lt_succ hlen) hu

/-- **The functions of a copy are those of the original.** -/
theorem functions (hc : CopiedTo h k depth v w) (hg : h.Grown k) (hv : v.Copyable h) (hf : u.isCallable = true) :
    v.at? h path = some u ↔ w.at? k path = some u := by
  induction path generalizing depth v w with
  | nil =>
    cases hc with
    | shared | atom => exact Iff.rfl
    | _ => constructor <;> rintro ⟨⟩ <;> cases hf
  | cons e path ih =>
    cases depth with
    | zero =>
      cases hc
      rw [hg.at?_eq hv]
    | succ depth =>
      have hrel := hc.child e
      unfold at?
      cases hx : v.child? h e with
      | none =>
        rw [hx] at hrel
        generalize w.child? k e = o at hrel ⊢
        cases hrel
        exact Iff.rfl
      | some x =>
        rw [hx] at hrel
        generalize w.child? k e = o at hrel ⊢
        cases hrel with
        | some hxy => exact ih hxy (hv.child hx)

end CopiedTo

/-! ## Copying -/

/-- **An operation that only makes objects.** Run after `h`, it has a result in `R`. -/
def OnlyMakes (h : Heap) {α : Type} (R : Heap → α → Prop) (x : Action α) : Prop :=
  ∀ h1, h.Grown h1 → ∃ a h2, x h1 = .ok a h2 ∧ h1.Grown h2 ∧ R h2 a

section

variable {α β : Type} {R : Heap → α → Prop} {S : Heap → β → Prop}

theorem OnlyMakes.bind {x : Action α} {f : α → Action β} (hx : OnlyMakes h R x)
    (hf : ∀ a h2, h.Grown h2 → R h2 a → ∃ b h3, f a h2 = .ok b h3 ∧ h2.Grown h3 ∧ S h3 b) :
    OnlyMakes h S (x >>= f) := by
  intro h1 hg
  obtain ⟨a, h2, hrun, hg1, hR⟩ := hx h1 hg
  obtain ⟨b, h3, hrun', hg2, hS⟩ := hf a h2 (hg.trans hg1) hR
  refine ⟨b, h3, ?_, hg1.trans hg2, hS⟩
  show EStateM.bind x f h1 = _
  rw [EStateM.bind, hrun]
  exact hrun'

theorem OnlyMakes.read {g : Heap → α} {f : α → Action β} (hg : ∀ h1, h.Grown h1 → g h1 = g h)
    (hf : OnlyMakes h S (f (g h))) : OnlyMakes h S (Action.read g >>= f) := by
  intro h1 hgrown
  have hread : (Action.read g >>= f) h1 = f (g h) h1 := by
    show f (g h1) h1 = _
    rw [hg h1 hgrown]
  rw [hread]
  exact hf h1 hgrown

/-- The copies of the values of a list, all of them in the last heap. -/
theorem OnlyMakes.mapM {f : Value → Action Value} {xs : List Value}
    (hf : ∀ x ∈ xs, OnlyMakes h (fun k => CopiedTo h k depth x) (f x)) :
    OnlyMakes h (fun k => List.Forall₂ (CopiedTo h k depth) xs) (xs.mapM f) := by
  induction xs with
  | nil => exact fun h1 _ => ⟨[], h1, rfl, .refl h1, .nil⟩
  | cons x xs ih =>
    rw [List.mapM_cons]
    refine (hf x List.mem_cons_self).bind fun y h2 hg hxy => ?_
    obtain ⟨ys, h3, hrun, hg', hall⟩ := ih (fun x hx => hf x (List.mem_cons_of_mem _ hx)) h2 hg
    refine ⟨y :: ys, h3, ?_, hg', .cons (hxy.grow hg') hall⟩
    show EStateM.bind _ _ h2 = _
    rw [EStateM.bind, hrun]
    rfl

end

theorem Dict.get?_withValues {d : Dict Value} {R : Value → Value → Prop} (hR : List.Forall₂ R d.values ys)
    (hx : d.get? key = some x) (hy : (d.withValues ys).get? key = some y) : R x y := by
  change List.Forall₂ R (d.entries.map Prod.snd) ys at hR
  change find? key d.entries = some x at hx
  change find? key ((d.entries.map Prod.fst).zip ys) = some y at hy
  generalize d.entries = es at hR hx hy
  induction es generalizing ys with
  | nil => cases hx
  | cons e es ih =>
    cases hR with
    | cons hab hR =>
      simp only [List.map_cons, List.zip_cons_cons, find?] at hx hy
      split at hx
      · rename_i heq
        rw [if_pos heq] at hy
        cases hx
        cases hy
        exact hab
      · rename_i hne
        rw [if_neg hne] at hy
        exact ih hR hx hy

theorem Dict.keys_withValues {d : Dict Value} {ys : List Value} (hlen : ys.length = d.values.length) :
    (d.withValues ys).keys = d.keys := by
  unfold withValues
  unfold keys
  rw [List.map_fst_zip]
  rw [hlen, values, List.length_map, List.length_map]

/-- **Copying makes a copy.** -/
theorem copyTo_copied (hv : v.Copyable h) : OnlyMakes h (fun k => CopiedTo h k depth v) (v.copyTo depth) := by
  induction depth generalizing v with
  | zero => exact fun h1 _ => ⟨v, h1, rfl, .refl h1, .shared v⟩
  | succ depth ih =>
    have hatom (hc : v.isContainer = false) (hb : ∀ r, v ≠ .bytes r) :
        OnlyMakes h (fun k => CopiedTo h k (depth + 1) v) (pure v) :=
      fun h1 _ => ⟨v, h1, rfl, .refl h1, .atom hc hb⟩
    cases v with
    | bytes r =>
      refine .read (fun h1 hg => hg.bytesAt_eq hv.ordinary) fun h1 hg => ?_
      have ha := h1.newBytes_adds (h.bytesAt r)
      exact ⟨_, _, rfl, ha.grown, .bytes (hg.later.size .bytes) ha.live (bytes.inj ha.found)⟩
    | array kind r =>
      refine .read (fun h1 hg => hg.arrayAt_eq hv.ordinary) ?_
      rw [array_mapM, bind_assoc]
      have hcopies (x) (hx : x ∈ (h.arrayAt r).toList) :
          OnlyMakes h (fun k => CopiedTo h k depth x) (x.copyTo depth) := by
        obtain ⟨i, hi⟩ := List.getElem?_of_mem hx
        exact ih (hv.child (e := .item i) (by simpa [child?] using hi))
      refine (OnlyMakes.mapM hcopies).bind fun ys h2 hg hys => ?_
      have ha := h2.newArray_adds .mutable ys.toArray
      have hitems := items.inj ha.found
      refine ⟨.array .mutable (h2.size .arrays), (h2.newArray .mutable ys.toArray).2, rfl, ha.grown,
        .array (hg.later.size .arrays) ha.live ?_ ?_⟩
      · rw [hitems, List.size_toArray, ← hys.length_eq, length_toList]
      · intro i x y hx hy
        rw [hitems, List.getElem?_toArray] at hy
        rw [← getElem?_toList] at hx
        have hrel := getElem?_rel hys i
        rw [hx, hy] at hrel
        cases hrel with
        | some hxy => exact hxy.grow ha.grown
    | map kind r =>
      refine .read (fun h1 hg => hg.mapAt_eq hv.ordinary) ?_
      have hcopies (x) (hx : x ∈ (h.mapAt r).values) :
          OnlyMakes h (fun k => CopiedTo h k depth x) (x.copyTo depth) := by
        obtain ⟨e, he, rfl⟩ := List.mem_map.mp hx
        exact ih (hv.child (e := .entry e.1) (get?_of_mem he))
      refine (OnlyMakes.mapM hcopies).bind fun ys h2 hg hys => ?_
      have ha := h2.newMap_adds .mutable ((h.mapAt r).withValues ys)
      have hentries := entries.inj ha.found
      refine ⟨.map .mutable (h2.size .maps), (h2.newMap .mutable ((h.mapAt r).withValues ys)).2, rfl, ha.grown,
        .map (hg.later.size .maps) ha.live ?_ ?_⟩
      · rw [hentries, keys_withValues hys.length_eq.symm]
      · intro key x y hx hy
        rw [hentries] at hy
        exact (get?_withValues hys hx hy).grow ha.grown
    | error | iterator => cases hv.ordinary
    | _ => exact hatom rfl (by rintro r ⟨⟩)

/-! ## Later changes -/

/-- The array or map that a value refers to. -/
def Value.object? : Value → Option (Table × Ref)
  | .array _ r => some (.arrays, r)
  | .map _ r => some (.maps, r)
  | _ => none

/-- **At most one object has changed.** Others may have been made. -/
structure Heap.Alters (o : Option (Table × Ref)) (k k' : Heap) : Prop where
  size : ∀ t, k.size t ≤ k'.size t
  object : ∀ t r, r < k.size t → o ≠ some (t, r) → k'.object t r = k.object t r

namespace Heap

variable {o : Option (Table × Ref)} {t : Table} {r : Ref} {c : Object} {k'' : Heap}

theorem Alters.refl (o : Option (Table × Ref)) (k : Heap) : k.Alters o k := ⟨fun _ => le_refl _, fun _ _ _ _ => rfl⟩

theorem Alters.trans (ha : k.Alters o k') (hb : k'.Alters o k'') : k.Alters o k'' where
  size t := le_trans (ha.size t) (hb.size t)
  object t r hr ho := (hb.object t r (lt_of_lt_of_le hr (ha.size t)) ho).trans (ha.object t r hr ho)

theorem Adds.alters (ha : k.Adds t c k') : k.Alters o k' where
  size := ha.later.size
  object _ _ hr _ := ha.grown.object hr

theorem Sets.alters (hs : k.Sets t r c k') : k.Alters (some (t, r)) k' where
  size t' := le_of_eq (hs.size t').symm
  object t' r' _ ho := by
    rw [hs.object, if_neg]
    rintro ⟨rfl, rfl, _⟩
    exact ho rfl

end Heap

namespace Action

variable {α β : Type} {o : Option (Table × Ref)} {a : Action α} {f : α → Action β}

def after (a : Action α) (k : Heap) : Heap :=
  match a k with
  | .ok _ k' => k'
  | .error _ k' => k'

/-- The action changes at most one object. -/
def Alters (o : Option (Table × Ref)) (a : Action α) : Prop := ∀ k : Heap, k.Alters o (a.after k)

theorem Alters.of_after (ha : ∀ k, a.after k = k) : a.Alters o := by
  intro k
  rw [ha k]
  exact .refl o k

theorem Alters.bind (ha : a.Alters o) (hf : ∀ x, (f x).Alters o) : (a >>= f).Alters o := by
  intro k
  have hk := ha k
  unfold after at hk ⊢
  simp only [Bind.bind, EStateM.bind]
  cases hrun : a k with
  | error e k1 =>
    rw [hrun] at hk
    exact hk
  | ok x k1 =>
    rw [hrun] at hk
    exact hk.trans (hf x k1)

end Action

theorem indexSet_alters (target key x : Value) : Action.Alters target.object? (target.indexSet key x) := by
  intro k
  unfold Action.after
  generalize hrun : target.indexSet key x k = result
  unfold indexSet at hrun
  repeat' split at hrun
  all_goals subst hrun
  · exact (k.modifyArray_sets ..).alters
  · exact .refl _ k
  · exact .refl _ k
  · exact .refl _ k
  · exact (k.modifyMap_sets ..).alters
  · exact .refl _ k
  · exact .refl _ k

theorem deleteFrom_alters : Action.Alters target.object? (Builtin.deleteFrom target key) := by
  fun_cases Builtin.deleteFrom target key with
  | case1 => exact fun k => (k.modifyMap_sets ..).alters
  | _ => exact .of_after fun _ => rfl

theorem intArgument_alters : Action.Alters o (Builtin.intArgument place x) := by
  cases x <;> exact .of_after fun _ => rfl

theorem spliceStart_alters : Action.Alters o (Builtin.spliceStart length x?) := by
  cases x? with
  | none => exact .of_after fun _ => rfl
  | some x =>
    refine intArgument_alters.bind fun n => ?_
    split <;> exact .of_after fun _ => rfl

theorem spliceCount_alters : Action.Alters o (Builtin.spliceCount rest x?) := by
  cases x? with
  | none => exact .of_after fun _ => rfl
  | some x =>
    refine intArgument_alters.bind fun n => ?_
    split <;> exact .of_after fun _ => rfl

theorem spliceArray_alters : Action.Alters target.object? (Builtin.spliceArray target args) := by
  fun_cases Builtin.spliceArray target args with
  | case1 r =>
    refine .bind (.of_after fun _ => rfl) fun items => ?_
    refine spliceStart_alters.bind fun start => ?_
    refine spliceCount_alters.bind fun count => ?_
    refine .bind (fun k => (k.setArray_sets ..).alters) fun _ => ?_
    exact fun k => (k.newArray_adds .mutable _).alters
  | case2 => exact .of_after fun _ => rfl

/-- **A change of a container**, by assigning to an index or key of it or by a built-in function. -/
inductive Edit where
  | set (target key value : Value)
  | splice (target : Value) (args : List Value)
  | delete (target key : Value)

namespace Edit

/-- The container that the edit is for. -/
def target : Edit → Option (Table × Ref)
  | set v _ _ | splice v _ | delete v _ => v.object?

/-- The heap after the edit, which may fail. -/
def apply (k : Heap) : Edit → Heap
  | set v key x => (v.indexSet key x).after k
  | splice v args => (Builtin.splice.call (v :: args)).after k
  | delete v key => (Builtin.delete.call [v, key]).after k

/-- **An edit changes its target only.** -/
theorem apply_alters (e : Edit) (k : Heap) : k.Alters e.target (e.apply k) := by
  cases e with
  | set v key x => exact indexSet_alters v key x k
  | splice v args => exact spliceArray_alters k
  | delete v key => exact deleteFrom_alters k

/-- **Edits leave an object alone that is the target of none of them.** -/
theorem foldl_apply {edits : List Edit} (hr : r < k.size t) (hne : ∀ e ∈ edits, e.target ≠ some (t, r)) :
    (edits.foldl apply k).object t r = k.object t r := by
  induction edits generalizing k with
  | nil => rfl
  | cons e edits ih =>
    have he := e.apply_alters k
    calc (edits.foldl apply (e.apply k)).object t r = (e.apply k).object t r :=
          ih (lt_of_lt_of_le hr (he.size t)) fun e he => hne e (List.mem_cons_of_mem _ he)
      _ = k.object t r := he.object t r hr (hne e List.mem_cons_self)

end Edit

/-! ## Copies are equal and apart -/

/-- **A copy is equal to the original and apart from it.** Let all values inside `v` be ordinary. Copying `v` makes
objects and changes none. The copy is equal to `v`. All containers and buffers inside it, as far down as values are
followed, are new and can be changed, and the functions inside are those of `v`, at the same places.

From then on, edits of the objects that were there before do not change the new ones, and edits of the new ones do not
change those that were there before. -/
theorem copy_equal_detached (h : Heap) (v : Value) (hv : v.Copyable h) :
    ∃ w k, v.copy h = .ok w k ∧ h.Grown k ∧ w.equals k v = true ∧
      (∀ path u, path.length < Limits.nesting → w.at? k path = some u → u.New h k) ∧
      (∀ path f, f.isCallable = true → (v.at? h path = some f ↔ w.at? k path = some f)) ∧
      ∀ (k' : Heap) (edits : List Edit), k.Later k' → ((∀ e ∈ edits, ∀ t r, e.target = some (t, r) → r < h.size t) →
          ∀ t r, h.size t ≤ r → r < k.size t → (edits.foldl Edit.apply k').object t r = k'.object t r) ∧
        ((∀ e ∈ edits, ∀ t r, e.target = some (t, r) → h.size t ≤ r) →
          ∀ t r, r < h.size t → (edits.foldl Edit.apply k').object t r = k'.object t r) := by
  obtain ⟨w, k, hcopy, hg, hc⟩ := copyTo_copied hv h (.refl h)
  refine ⟨w, k, hcopy, hg, ?_, ?_, ?_, ?_⟩
  · exact (hc.equal hg hv).equalsTo
  · exact fun path u => hc.fresh
  · exact fun path f hf => hc.functions hg hv hf
  · intro k' edits hlater
    constructor
    · intro hold t r hnew hr
      refine Edit.foldl_apply (lt_of_lt_of_le hr (hlater.size t)) fun e he htarget => ?_
      exact not_lt.mpr hnew (hold e he t r htarget)
    · intro hnew t r hr
      refine Edit.foldl_apply (lt_of_lt_of_le hr ((hg.later.trans hlater).size t)) fun e he htarget => ?_
      exact not_lt.mpr (hnew e he t r htarget) hr

/-- The copy of an array that contains itself is a new array, equal to it. -/
theorem loopHeap_copy : ∃ w k, (array .mutable 0).copy loopHeap = .ok w k ∧
    w.equals k (.array .mutable 0) = true ∧ w.New loopHeap k := by
  have hv : (array .mutable 0).Copyable loopHeap := by
    intro path u hu
    -- every path leads back to the array
    induction path with
    | nil =>
      cases hu
      exact zero_lt_two
    | cons e path ih =>
      cases e with
      | item i =>
        cases i with
        | zero => exact ih hu
        | succ i => cases hu
      | entry key => cases hu
  obtain ⟨w, k, hcopy, -, heq, hnew, -⟩ := copy_equal_detached loopHeap (.array .mutable 0) hv
  exact ⟨w, k, hcopy, heq, hnew [] w (by decide) rfl⟩

end Scripting
