import Scripting.Proofs.Value.Access
/-!
# `Proofs.Value.Copy` — deep copies

Copying never fails (`Value.copyTo_total`). A copy is not apart from its original in everything: closures are
shared, the elements of iterators are, and so is what is nested too deeply (`Value.Shares`). Whoever knows what
is shared knows the copy (`copyTo_knowing`).
-/

namespace Scripting

open Renaming Object

variable {ρ : Renaming} {h k : Heap} {u v w : Value}

/-! ## Operations that never fail -/

/-- An operation that succeeds on every heap. -/
def Action.Total {α : Type} (x : Action α) : Prop := ∀ h, ∃ a k, x h = .ok a k

namespace Action.Total

variable {α β : Type}

theorem pure (a : α) : Total (pure a : Action α) := fun h => ⟨a, h, rfl⟩

theorem read (f : Heap → α) : Total (Action.read f) := fun h => ⟨f h, h, rfl⟩

theorem make (f : Heap → α × Heap) : Total (Action.make f) := fun h => ⟨(f h).1, (f h).2, rfl⟩

theorem bind (hx : Total x) (hf : ∀ a, Total (f a)) : Total (x >>= f) := by
  intro h
  obtain ⟨a, k, hk⟩ := hx h
  obtain ⟨b, l, hl⟩ := hf a k
  refine ⟨b, l, ?_⟩
  show EStateM.bind x f h = _
  rw [EStateM.bind, hk]
  exact hl

theorem mapM (hf : ∀ a, Total (f a)) (xs : List α) : Total (xs.mapM f) := by
  induction xs with
  | nil => exact pure []
  | cons x xs ih =>
    rw [List.mapM_cons]
    exact bind (hf x) fun y => bind ih fun ys => pure (y :: ys)

theorem array_mapM (hf : ∀ a, Total (f a)) (xs : Array α) : Total (xs.mapM f) := by
  rw [Scripting.array_mapM]
  exact bind (mapM hf xs.toList) fun ys => pure ys.toArray

end Action.Total

/-- **Copying never fails.** -/
theorem Value.copyTo_total : ∀ (depth : Nat) (v : Value), (v.copyTo depth).Total
  | 0, v => .pure v
  | depth + 1, v => by
    have ih := Value.copyTo_total depth
    cases v with
    | bytes r => exact .bind (.read _) fun _ => .make _
    | array kind r => exact .bind (.read _) fun _ => .bind (.array_mapM ih _) fun _ => .make _
    | map kind r => exact .bind (.read _) fun _ => .bind (.mapM ih _) fun _ => .make _
    | error r => exact .bind (.read _) fun _ => .bind (ih _) fun _ => .make _
    | iterator r => exact .bind (.read _) fun _ => .make _
    | _ => exact .pure _

/-! ## What a copy has in common with the original -/

namespace Value

/-- **`x` is shared** by `v` and its copies to this depth. -/
inductive Shares (h : Heap) : Nat → Value → Value → Prop
  | whole (v : Value) : Shares h 0 v v
  | closure (depth : Nat) (r : Ref) : Shares h (depth + 1) (.closure r) (.closure r)
  | item {depth kind r} {u x : Value} (mem : u ∈ (h.arrayAt r).toList)
    (inside : Shares h depth u x) : Shares h (depth + 1) (.array kind r) x
  | entry {depth kind r e x}
    (mem : e ∈ (h.mapAt r).entries) (inside : Shares h depth e.2 x) : Shares h (depth + 1) (.map kind r) x
  | payload {depth r x} (inside : Shares h depth (h.errorAt r) x) : Shares h (depth + 1) (.error r) x
  | element {depth r} {u : Value} (mem : u ∈ (h.iteratorAt r).ahead) : Shares h (depth + 1) (.iterator r) u

theorem Shares.leads (hx : Shares h depth v x) : Leads h v x := by
  induction hx with
  | whole v => exact .refl
  | closure depth r => exact .refl
  | item mem _ ih => exact .head (.item mem) ih
  | entry mem _ ih => exact .head (.entry mem) ih
  | payload _ ih => exact .head (.payload _) ih
  | element mem => exact .single (.element mem)

end Value

section

variable {l : Heap} {S : Value → Prop}

/-- An object that a program can come to, or else one that is on both sides as it was. -/
theorem Renaming.Joins.refs_or_kept (hj : (keeping l l S).Joins h k) (ht : t ≠ .closures) (r : Ref) :
    (keeping l l S).refs t r r ∨ (h.object t r = l.object t r ∧ k.object t r = l.object t r) := by
  by_cases hin : (keeping l l S).refs t r r
  · exact .inl hin
  · refine .inr ?_
    have hlt : r < l.size t := by
      refine Nat.lt_of_not_le fun hle => hin (.inr ⟨ht, r - l.size t, ?_⟩)
      exact ⟨(Nat.add_sub_cancel' hle).symm, (Nat.add_sub_cancel' hle).symm⟩
    refine ⟨hj.kept hlt ?_, hj.kept_right hlt fun r' href => ?_⟩
    · rintro (hle | he)
      · exact absurd hle (Nat.not_le.mpr hlt)
      · exact hin (.inl ⟨rfl, he.reached⟩)
    · -- no pair has only one of its objects past the end
      rcases href with ⟨rfl, hr⟩ | ⟨-, n, -, rfl⟩
      · exact absurd (.inl ⟨rfl, hr⟩) hin
      · exact absurd hlt (Nat.not_lt.mpr (Nat.le_add_right ..))

/-- **To know what is shared is to know the copy**: a program that comes to all of it can tell apart no two
copies. -/
theorem copyTo_knowing : ∀ (depth : Nat) {v : Value}, (∀ x, Value.Shares l depth v x → Meets l S x) →
    (keeping l l S).Acts (Renamed (keeping l l S)) (v.copyTo depth) (v.copyTo depth) := by
  intro depth
  have hk := keeping_keeps l l S
  induction depth with
  | zero => exact fun hv => .pure (hk.value (hv _ (.whole _)))
  | succ depth ih =>
    intro v hv
    -- what is inside is known, or is as it was in the beginning
    let Q (a b : Value) : Prop :=
      Renamed (keeping l l S) a b ∨ (b = a ∧ ∀ x, Value.Shares l depth a x → Meets l S x)
    have hQ (a b : Value) (hab : Q a b) :
        (keeping l l S).Acts (Renamed (keeping l l S)) (a.copyTo depth) (b.copyTo depth) := by
      rcases hab with hab | ⟨rfl, ha⟩
      · exact copyTo_renamed depth hab
      · exact ih ha
    cases v with
    | bytes r =>
      refine .bind (R := Eq) (.read fun h k hj => ?_) ?_
      · rcases hj.refs_or_kept (t := .bytes) nofun r with hr | ⟨hh, hk⟩
        · exact (hj.bytes hr).symm
        · exact bytes.inj (hh.trans hk.symm)
      · rintro bs _ rfl
        exact .newBytes bs
    | array kind r =>
      refine .bind (R := fun xs ys => List.Forall₂ Q xs.toList ys.toList) (.read fun h k hj => ?_) fun xs ys hx => ?_
      · rcases hj.refs_or_kept (t := .arrays) nofun r with hr | ⟨hh, hk⟩
        · exact (hj.array hr).imp fun _ _ => .inl
        · rw [show h.arrayAt r = l.arrayAt r from items.inj hh,
            show k.arrayAt r = l.arrayAt r from items.inj hk]
          exact List.forall₂_same.mpr fun a ha => .inr ⟨rfl, fun x hx => hv x (.item ha hx)⟩
      · rw [array_mapM, bind_assoc]
        rw [array_mapM, bind_assoc]
        refine .bind (.mapM hQ hx) fun _ _ hy => ?_
        exact .newArray hy
    | map kind r =>
      refine .bind (R := fun d e => e.keys = d.keys ∧ List.Forall₂ Q d.values e.values) (.read fun h k hj => ?_) ?_
      · rcases hj.refs_or_kept (t := .maps) nofun r with hr | ⟨hh, hk⟩
        · exact ⟨RenamedDict.keys_eq (hj.map hr), (RenamedDict.values (hj.map hr)).imp fun _ _ => .inl⟩
        · rw [show h.mapAt r = l.mapAt r from entries.inj hh,
            show k.mapAt r = l.mapAt r from entries.inj hk]
          refine ⟨rfl, List.forall₂_same.mpr fun a ha => ?_⟩
          obtain ⟨e, he, rfl⟩ := List.mem_map.mp ha
          exact .inr ⟨rfl, fun x hx => hv x (.entry he hx)⟩
      · rintro d e ⟨hkeys, hd⟩
        exact .bind (.mapM hQ hd) fun _ _ hy => .newMap (RenamedDict.withValues hkeys hy)
    | error r =>
      refine .bind (R := Q) (.read fun h k hj => ?_) fun a b hab => .bind (hQ a b hab) fun _ _ hq => .newError hq
      rcases hj.refs_or_kept (t := .errors) nofun r with hr | ⟨hh, hk⟩
      · exact .inl (hj.error hr)
      · rw [show h.errorAt r = l.errorAt r from value.inj hh,
          show k.errorAt r = l.errorAt r from value.inj hk]
        exact .inr ⟨rfl, fun x hx => hv x (.payload hx)⟩
    | iterator r =>
      refine .bind (R := Iterator.Renamed (keeping l l S)) (.read fun h k hj => ?_) fun _ _ hi =>
        .make fun _ _ hj => hj.newIterator hi
      rcases hj.refs_or_kept (t := .iterators) nofun r with hr | ⟨hh, hk'⟩
      · exact hj.iterator hr
      · rw [show h.iteratorAt r = l.iteratorAt r from iterator.inj hh,
          show k.iteratorAt r = l.iteratorAt r from iterator.inj hk']
        exact .self rfl fun u hu => hk.value (hv u (.element hu))
    | closure r => exact .pure (hk.value (hv _ (.closure depth r)))
    | function r => exact .pure (.function rfl)
    | _ => exact .pure (by constructor)

end

end Scripting
