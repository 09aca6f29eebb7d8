import Scripting.Proofs.Value.Copy
/-!
# `Proofs.Value.Duplicate` — originals and their copies

Copying makes one new object for each that it duplicates (`Value.duplicated`), in the order in which it finishes
with them. Under any renaming that pairs these with their originals, and keeps what is shared, the copy
corresponds to the original and so do the contents of the new objects (`copyTo_makes`), unless a frozen
container has become changeable on the way (`Value.Thaws`).
-/

namespace Scripting

open List

variable {ρ : Renaming} {h h1 h2 h3 : Heap} {t : Table} {r : Ref} {v w : Value}

/-! ## Heaps that only grow -/

/-- `k` has everything that `h` has, unchanged. -/
structure Heap.Grown (h k : Heap) : Prop where
  later : h.Later k
  object : ∀ {t r}, r < h.size t → k.object t r = h.object t r

namespace Heap.Grown

theorem refl (h : Heap) : h.Grown h := ⟨.refl h, fun _ => rfl⟩

theorem trans (a : h1.Grown h2) (b : h2.Grown h3) : h1.Grown h3 where
  later := a.later.trans b.later
  object hr := (b.object (Nat.lt_of_lt_of_le hr (a.later.size _))).trans (a.object hr)

end Heap.Grown

theorem Heap.Adds.grown (ha : h1.Adds t o h2) : h1.Grown h2 := by
  refine ⟨ha.later, fun {t' r} hr => ?_⟩
  rw [ha.object, if_neg]
  rintro ⟨rfl, rfl⟩
  exact Nat.lt_irrefl _ hr

/-! ## What is duplicated -/

namespace Value

/-- **The objects that a copy to this depth duplicates**, one entry for each time. -/
def duplicated (h : Heap) : Nat → Value → List (Table × Ref)
  | 0, _ => []
  | depth + 1, v =>
    match v with
    | bytes r => [(.bytes, r)]
    | array _ r => (h.arrayAt r).toList.flatMap (duplicated h depth) ++ [(.arrays, r)]
    | map _ r => (h.mapAt r).values.flatMap (duplicated h depth) ++ [(.maps, r)]
    | error r => duplicated h depth (h.errorAt r) ++ [(.errors, r)]
    | iterator r => [(.iterators, r)]
    | _ => []

/-- A copy to this depth makes a frozen container changeable. -/
inductive Thaws (h : Heap) : Nat → Value → Prop
  | array (depth : Nat) (r : Ref) : Thaws h (depth + 1) (.array .frozen r)
  | map (depth : Nat) (r : Ref) : Thaws h (depth + 1) (.map .frozen r)
  | item {depth kind} {r : Ref} {u} (mem : u ∈ (h.arrayAt r).toList)
    (inside : Thaws h depth u) : Thaws h (depth + 1) (.array kind r)
  | entry {depth kind} {r : Ref} {u} (mem : u ∈ (h.mapAt r).values)
    (inside : Thaws h depth u) : Thaws h (depth + 1) (.map kind r)
  | payload {depth} {r : Ref} (inside : Thaws h depth (h.errorAt r)) : Thaws h (depth + 1) (.error r)

end Value

/-- An object and its copy. -/
structure Duplicate where
  table : Table
  original : Ref
  copy : Ref

namespace Duplicate

/-- The renaming pairs originals with their copies, and lets them be changed. -/
def Paired (ρ : Renaming) (ds : List Duplicate) : Prop :=
  ∀ d ∈ ds, ρ.refs d.table d.original d.copy ∧ ρ.changeable d.table d.original

/-- `h2` is `h1` with these duplicates of objects of `h`, and `a` came with them. -/
structure Duplicated (h : Heap) (S : Value → Prop) (A : Renaming → Prop) {α : Type} (R : Renaming → α → Prop)
    (h1 : Heap) (a : α) (h2 : Heap) (ds : List Duplicate) : Prop where
  grown : h1.Grown h2
  new : ∀ d ∈ ds, h1.size d.table ≤ d.copy ∧ d.copy < h2.size d.table
  distinct : (ds.map fun d => (d.table, d.copy)).Nodup
  alike : ∀ ρ : Renaming, ρ.Keeps h S → Paired ρ ds → A ρ →
    R ρ a ∧ ∀ d ∈ ds, Object.Renamed ρ (h.object d.table d.original) (h2.object d.table d.copy)

/-- **An operation that duplicates these objects of `h`.** Its result is in `R` under every renaming that is in
`A`, keeps what `S` leads to and pairs the objects with their duplicates. -/
def Duplicates (h : Heap) (S : Value → Prop) (originals : List (Table × Ref)) (A : Renaming → Prop) {α : Type}
    (R : Renaming → α → Prop) (x : Action α) : Prop :=
  ∀ h1, h.Grown h1 → ∃ a h2 ds, x h1 = .ok a h2 ∧ (ds.map fun d => (d.table, d.original)) = originals ∧
    Duplicated h S A R h1 a h2 ds

namespace Duplicates

variable {S : Value → Prop} {A : Renaming → Prop} {α β : Type} {R : Renaming → α → Prop} {R' : Renaming → β → Prop}
  {originals originals' : List (Table × Ref)} {x : Action α} {f : α → Action β}

theorem pure (ha : ∀ ρ : Renaming, ρ.Keeps h S → A ρ → R ρ a) : Duplicates h S [] A R (pure a) := by
  intro h1 _
  refine ⟨a, h1, [], rfl, rfl, .refl h1, ?_, nodup_nil, fun ρ hk _ hA => ⟨ha ρ hk hA, ?_⟩⟩
  · simp
  · simp

theorem read (hg : ∀ h1, h.Grown h1 → g h1 = g h) (hf : Duplicates h S originals A R' (f (g h))) :
    Duplicates h S originals A R' (Action.read g >>= f) := by
  intro h1 hgrown
  have hbind : (Action.read g >>= f) h1 = f (g h) h1 := by
    show f (g h1) h1 = _
    rw [hg h1 hgrown]
  rw [hbind]
  exact hf h1 hgrown

theorem make (build : Ref → Value) (hg : ∀ h1, h1.Adds t o (g h1).2 ∧ (g h1).1 = build (h1.size t))
    (ho : ∀ ρ : Renaming, ρ.Keeps h S → A ρ → Object.Renamed ρ (h.object t r) o)
    (hv : ∀ (ρ : Renaming) (s : Ref), ρ.refs t r s → ρ.changeable t r → Renamed ρ v (build s)) :
    Duplicates h S [(t, r)] A (fun ρ => Renamed ρ v) (Action.make g) := by
  intro h1 _
  obtain ⟨ha, hw⟩ := hg h1
  refine ⟨(g h1).1, (g h1).2, [⟨t, r, h1.size t⟩], rfl, rfl, ha.grown, ?_, ?_, ?_⟩
  · intro d hd
    obtain rfl := mem_singleton.mp hd
    exact ⟨Nat.le_refl _, ha.live⟩
  · simp
  · intro ρ hk hpaired hA
    obtain ⟨hrefs, hfree⟩ := hpaired _ (mem_singleton_self _)
    refine ⟨hw ▸ hv ρ _ hrefs hfree, fun d hd => ?_⟩
    obtain rfl := mem_singleton.mp hd
    rw [ha.found]
    exact ho ρ hk hA

/-- One operation after another: the objects of the first are not touched by the second. -/
theorem bind (hx : Duplicates h S originals A R x)
    (hf : ∀ a, Duplicates h S originals' (fun ρ => A ρ ∧ R ρ a) R' (f a)) :
    Duplicates h S (originals ++ originals') A R' (x >>= f) := by
  intro h1 hgrown
  obtain ⟨a, h2, ds, hrun, horiginals, hmade⟩ := hx h1 hgrown
  obtain ⟨b, h3, ds', hrun', horiginals', hmade'⟩ := hf a h2 (hgrown.trans hmade.grown)
  refine ⟨b, h3, ds ++ ds', ?_, ?_, hmade.grown.trans hmade'.grown, ?_, ?_, ?_⟩
  · show EStateM.bind x f h1 = _
    rw [EStateM.bind, hrun]
    exact hrun'
  · rw [map_append, horiginals, horiginals']
  · intro d hd
    rcases mem_append.mp hd with hd | hd
    · exact ⟨(hmade.new d hd).1, Nat.lt_of_lt_of_le (hmade.new d hd).2 (hmade'.grown.later.size _)⟩
    · exact ⟨Nat.le_trans (hmade.grown.later.size _) (hmade'.new d hd).1, (hmade'.new d hd).2⟩
  · rw [map_append]
    refine nodup_append.mpr ⟨hmade.distinct, hmade'.distinct, fun p hp p' hp' heq => ?_⟩
    obtain ⟨d, hd, rfl⟩ := mem_map.mp hp
    obtain ⟨d', hd', rfl⟩ := mem_map.mp hp'
    obtain ⟨htable, hcopy⟩ := Prod.mk.inj heq
    have hbefore := (hmade.new d hd).2
    have hafter := (hmade'.new d' hd').1
    rw [← htable, ← hcopy] at hafter
    exact Nat.lt_irrefl _ (Nat.lt_of_lt_of_le hbefore hafter)
  · intro ρ hk hpaired hA
    obtain ⟨hR, hobjects⟩ := hmade.alike ρ hk (fun d hd => hpaired d (mem_append_left _ hd)) hA
    obtain ⟨hR', hobjects'⟩ := hmade'.alike ρ hk (fun d hd => hpaired d (mem_append_right _ hd)) ⟨hA, hR⟩
    refine ⟨hR', fun d hd => ?_⟩
    rcases mem_append.mp hd with hd | hd
    · rw [hmade'.grown.object (hmade.new d hd).2]
      exact hobjects d hd
    · exact hobjects' d hd

theorem mapM {f : Value → Action Value} (hf : ∀ v ∈ xs, ∀ A, Duplicates h S (g v) A (fun ρ => Renamed ρ v) (f v)) :
    ∀ A, Duplicates h S (xs.flatMap g) A (fun ρ => RenamedAll ρ xs) (xs.mapM f) := by
  induction xs with
  | nil => exact fun A => pure fun _ _ _ => .nil
  | cons v xs ih =>
    intro A
    rw [mapM_cons, flatMap_cons]
    refine bind (hf v mem_cons_self A) fun w => ?_
    -- the rest makes its own duplicates; putting the lists together makes none
    rw [← append_nil (xs.flatMap g)]
    refine bind (ih (fun u hu => hf u (mem_cons_of_mem _ hu)) _) fun ws => pure fun ρ _ hA => ?_
    exact .cons hA.1.2 hA.2

end Duplicates

end Duplicate

/-! ## Copies -/

theorem RenamedDict.of_values (hy : RenamedAll ρ d.values ys) : RenamedDict ρ d (d.withValues ys) := by
  unfold RenamedDict Dict.withValues Dict.keys
  unfold Dict.values at hy
  dsimp only
  generalize d.entries = es at hy
  induction es generalizing ys with
  | nil => exact .nil
  | cons e es ih =>
    cases hy with
    | cons hv hy => exact .cons ⟨rfl, hv⟩ (ih hy)

section

variable {S : Value → Prop}

open Duplicate

theorem Duplicate.Duplicates.shared (hv : Meets h S v) : Duplicates h S [] A (fun ρ => Renamed ρ v) (Pure.pure v) :=
  .pure fun _ hk _ => hk.value hv

/-- **A copy corresponds to its original** once the objects that it duplicates are paired with their copies. -/
theorem copyTo_makes : ∀ (depth : Nat) {v : Value}, h.Covers v → (∀ x, Value.Shares h depth v x → Meets h S x) →
    ¬v.Thaws h depth → ∀ A, Duplicates h S (v.duplicated h depth) A (fun ρ => Renamed ρ v) (v.copyTo depth) := by
  intro depth
  induction depth with
  | zero => exact fun _ hshared _ A => .shared (hshared _ (.whole _))
  | succ depth ih =>
    intro v hcovers hshared hthaws A
    have hinside {u : Value} (hu : Value.Part h v u) : h.Covers u := fun w hw => hcovers (.head hu hw)
    have hthere {t : Table} {r : Ref} (hr : Value.Refers h v t r) (h1 : Heap) (hgrown : h.Grown h1) :
        h1.object t r = h.object t r := hgrown.object (hcovers .refl hr)
    cases v with
    | bytes r =>
      refine .read (fun h1 hgrown => Object.bytes.inj (hthere (.bytes r) h1 hgrown)) ?_
      exact .make .bytes (fun h1 => ⟨h1.newBytes_adds _, rfl⟩) (fun _ _ _ => .bytes _) fun ρ s hrefs _ => .bytes hrefs
    | array kind r =>
      obtain rfl : kind = .mutable := by
        cases kind with
        | mutable => rfl
        | frozen => exact absurd (.array depth r) hthaws
      refine .read (fun h1 hgrown => Object.items.inj (hthere (.array _ r) h1 hgrown)) ?_
      rw [array_mapM, bind_assoc]
      refine .bind (.mapM (fun u hu => ih (hinside (.item hu)) (fun x hx => hshared x (.item hu hx))
        fun ht => hthaws (.item hu ht)) A) fun ys => ?_
      exact .make (.array .mutable) (fun h1 => ⟨h1.newArray_adds .mutable _, rfl⟩)
        (fun _ _ hA => .items hA.2) fun ρ s hrefs hfree => .array hrefs fun _ => hfree
    | map kind r =>
      obtain rfl : kind = .mutable := by
        cases kind with
        | mutable => rfl
        | frozen => exact absurd (.map depth r) hthaws
      refine .read (fun h1 hgrown => Object.entries.inj (hthere (.map _ r) h1 hgrown)) ?_
      refine .bind (.mapM (fun u hu => ?_) A) fun ys => ?_
      · obtain ⟨e, he, rfl⟩ := mem_map.mp hu
        exact ih (hinside (.entry he)) (fun x hx => hshared x (.entry he hx)) fun ht => hthaws (.entry hu ht)
      · refine .make (.map .mutable) (fun h1 => ⟨h1.newMap_adds .mutable _, rfl⟩) (fun ρ _ hA => ?_)
          fun ρ s hrefs hfree => .map hrefs fun _ => hfree
        exact .entries (RenamedDict.of_values hA.2)
    | error r =>
      refine .read (fun h1 hgrown => Object.value.inj (hthere (.error r) h1 hgrown)) ?_
      refine .bind (ih (hinside (.payload r)) (fun x hx => hshared x (.payload hx))
        (fun ht => hthaws (.payload ht)) A) fun w => ?_
      exact .make .error (fun h1 => ⟨h1.newError_adds w, rfl⟩) (fun _ _ hA => .value hA.2)
        fun ρ s hrefs _ => .error hrefs
    | iterator r =>
      refine .read (fun h1 hgrown => Object.iterator.inj (hthere (.iterator r) h1 hgrown)) ?_
      exact .make .iterator (fun h1 => ⟨h1.newIterator_adds _, rfl⟩)
        (fun ρ hk _ => .iterator (.self hk.skips fun u hu => hk.value (hshared u (.element hu))))
        fun ρ s hrefs hfree => .iterator hrefs hfree
    | closure r => exact .shared (hshared _ (.closure depth r))
    | function r => exact .pure fun ρ hk _ => .function (hk.body 0 r)
    | _ => exact .pure fun _ _ _ => by constructor

end

end Scripting
