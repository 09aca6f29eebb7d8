import Scripting.Proofs.Machine.Boxed
import Scripting.Proofs.Machine.Variables
/-!
# `Proofs.Machine.Boxing` — what the two machines do to variables

`Boxes f m n` relates a state of the machine to one of the boxed machine. This module proves for each
operation on variables that it leads from related states to related ones: reading, assigning, defining
and sharing a local variable, the same for captured variables, and opening and closing a frame. Only
where a plain variable is shared does a cell get a new name; the boxed machine had the cell before.

All other instructions do not look at variables at all, which `Commutes` says for each of them.
`Agrees R x y` is the form in which the results are put together: from related states, both
computations end in related states, with results in `R` or with the same fault.
-/

namespace Scripting

open Array Machine Function

/-! ## Related states -/

/-- A local variable of the machine and the cell that the boxed machine has for it. A plain variable
has a cell that stands for no cell of the machine. -/
inductive Slot.Boxed (f : Ref → Ref) (h k : Heap) : Slot → Slot → Prop
  | plain {d} (spare : Heap.Spare f h k d) : Boxed f h k (.plain (k.cellAt d)) (.shared d)
  | shared {r} (live : r < h.cells.size) : Boxed f h k (.shared r) (.shared (f r))

/-- **A state of the machine and one of the boxed machine.** They differ in nothing but the way
variables are kept, and the cell of a plain variable is in no other slot. -/
structure Boxes (f : Ref → Ref) (m n : Machine) : Prop where
  heap : Heap.Renames f m.heap n.heap
  rest : n = { m with heap := n.heap, locals := n.locals, captures := m.captures.map f }
  captured : ∀ r ∈ m.captures, r < m.heap.cells.size
  size : n.locals.size = m.locals.size
  slots : ∀ (i : Nat) (s : Slot), m.locals[i]? = some s → ∃ t, n.locals[i]? = some t ∧ Slot.Boxed f m.heap n.heap s t
  own : ∀ (i j : Nat) (v : Value) (t : Slot), m.locals[i]? = some (.plain v) →
    n.locals[i]? = some t → n.locals[j]? = some t → j = i

variable {f f' : Ref → Ref} {m n : Machine}

theorem Slot.Boxed.value {h k : Heap} {s t : Slot} (hr : Heap.Renames f h k)
    (hs : Slot.Boxed f h k s t) : slotValue k t = slotValue h s := by
  cases hs with
  | plain _ => rfl
  | shared hlt => exact hr.cells _ hlt

/-- A slot is kept when its cell keeps its name, or its value if it is plain. -/
theorem Slot.Boxed.keep (hs : Slot.Boxed f h k s t) (hgrows : h.cells.size ≤ h'.cells.size)
    (hnames : ∀ r < h.cells.size, f' r = f r)
    (hspare : ∀ v d, s = .plain v → t = .shared d → Heap.Spare f h k d →
      Heap.Spare f' h' k' d ∧ k'.cellAt d = k.cellAt d) :
    Slot.Boxed f' h' k' s t := by
  cases hs with
  | plain hd =>
    obtain ⟨hd', hcell⟩ := hspare _ _ rfl rfl hd
    rw [← hcell]
    exact .plain hd'
  | shared hlt =>
    rw [← hnames _ hlt]
    exact .shared (Nat.lt_of_lt_of_le hlt hgrows)

namespace Boxes

theorem frame (hb : Boxes f m n) : n.frame = m.frame := by rw [hb.rest]

theorem callers (hb : Boxes f m n) : n.callers = m.callers := by rw [hb.rest]

theorem eq_withVariables (hb : Boxes f m n) : n = m.withVariables n.vars := by
  have hheap : n.heap = m.heap.withCells n.heap.cells n.heap.closures := by
    rw [hb.heap.closures]
    exact hb.heap.rest
  have hcaptures : m.captures.map f = n.captures := (congrArg captures hb.rest).symm
  calc n = { m with heap := n.heap, locals := n.locals, captures := m.captures.map f } := hb.rest
    _ = { m with heap := n.heap, locals := n.locals, captures := n.captures } := by rw [hcaptures]
    _ = m.withVariables n.vars := by
      unfold withVariables vars
      rw [← hheap, hb.callers, hb.frame]
      rfl

/-- What does not belong to the variables may be anything. -/
theorem elsewhere (hb : Boxes f m n) (q : Machine) : Boxes f (q.withVariables m.vars) (q.withVariables n.vars) where
  heap := (Heap.Evolves.withCells hb.heap q.heap).renames
  rest := by
    have hcaptures : n.captures = m.captures.map f := congrArg captures hb.rest
    unfold withVariables vars
    rw [hcaptures, hb.callers, hb.frame]
  captured := hb.captured
  size := hb.size
  slots := by
    intro i s hi
    obtain ⟨t, ht, hst⟩ := hb.slots i s hi
    exact ⟨t, ht, hst.keep (Nat.le_refl _) (fun _ _ => rfl) fun _ _ _ _ hd => ⟨⟨hd.lt, hd.ne⟩, rfl⟩⟩
  own := hb.own

theorem evolve (hb : Boxes f m n) (he : Heap.Evolves f m.heap n.heap f' h' k') :
    Boxes f' { m with heap := h' } { n with heap := k' } where
  heap := he.renames
  rest := by
    have hcaptures : m.captures.map f = m.captures.map f' :=
      map_congr_left fun r hr => (he.names r (hb.captured r hr)).symm
    have hrest := congrArg (fun q : Machine => { q with heap := k' }) hb.rest
    rw [hcaptures] at hrest
    exact hrest
  captured r hr := Nat.lt_of_lt_of_le (hb.captured r hr) he.grows
  size := hb.size
  slots := by
    intro i s hi
    obtain ⟨t, ht, hst⟩ := hb.slots i s hi
    exact ⟨t, ht, hst.keep he.grows he.names fun _ d _ _ hd => he.spare d hd⟩
  own := hb.own

theorem slot_lt (hb : Boxes f m n) {i : Nat} (hi : n.locals[i]? = some (.shared d)) : d < n.heap.cells.size := by
  obtain ⟨hlt, -⟩ := Array.getElem?_eq_some_iff.mp hi
  have hlt' : i < m.locals.size := hb.size ▸ hlt
  obtain ⟨t, ht, hst⟩ := hb.slots i _ (getElem?_eq_getElem hlt')
  rw [hi] at ht
  cases ht
  generalize m.locals[i] = s at hst
  cases hst with
  | plain hd => exact hd.lt
  | shared hlt => exact hb.heap.lt _ hlt

/-- **One slot changes**, and with it the heaps, but not so that other slots notice. -/
theorem update (hb : Boxes f m n) (hr : Heap.Renames f' h' k') (hgrows : m.heap.cells.size ≤ h'.cells.size)
    (hnames : ∀ r < m.heap.cells.size, f' r = f r)
    (hspare : ∀ d, n.locals[i]? ≠ some (.shared d) → Heap.Spare f m.heap n.heap d →
      Heap.Spare f' h' k' d ∧ k'.cellAt d = n.heap.cellAt d)
    (hst : Slot.Boxed f' h' k' s t) (hown : ∀ j, n.locals[j]? = some t → j = i) :
    Boxes f' { m with heap := h', locals := m.locals.setIfInBounds i s }
      { n with heap := k', locals := n.locals.setIfInBounds i t } where
  heap := hr
  rest := by
    have hcaptures : m.captures.map f = m.captures.map f' :=
      map_congr_left fun r hm => (hnames r (hb.captured r hm)).symm
    have hrest := congrArg (fun q : Machine => { q with heap := k', locals := n.locals.setIfInBounds i t }) hb.rest
    rw [hcaptures] at hrest
    exact hrest
  captured r hm := Nat.lt_of_lt_of_le (hb.captured r hm) hgrows
  size := by simpa using hb.size
  slots := by
    intro j s' hj
    have hj' : (m.locals.setIfInBounds i s)[j]? = some s' := hj
    by_cases hij : i = j
    · subst hij
      rw [getElem?_setIfInBounds_self] at hj' ⊢
      rw [hb.size]
      by_cases hlt : i < m.locals.size
      · rw [if_pos hlt] at hj' ⊢
        cases hj'
        exact ⟨t, rfl, hst⟩
      · rw [if_neg hlt] at hj'
        cases hj'
    · rw [getElem?_setIfInBounds_ne hij] at hj' ⊢
      obtain ⟨t', ht', hst'⟩ := hb.slots j s' hj'
      refine ⟨t', ht', hst'.keep hgrows hnames fun v d hv hd => hspare d fun hi => ?_⟩
      -- a plain slot has its cell for itself
      subst hv hd
      exact hij (hb.own j i v _ hj' ht' hi)
  own := by
    intro i' j v t' hi' ht' hj
    have hi1 : (m.locals.setIfInBounds i s)[i']? = some (.plain v) := hi'
    have ht1 : (n.locals.setIfInBounds i t)[i']? = some t' := ht'
    have hj1 : (n.locals.setIfInBounds i t)[j]? = some t' := hj
    by_cases hii : i = i' <;> by_cases hij : i = j
    · rw [← hii, hij]
    · subst hii
      rw [getElem?_setIfInBounds_self] at ht1
      rw [getElem?_setIfInBounds_ne hij] at hj1
      split at ht1
      · cases ht1
        exact hown j hj1
      · cases ht1
    · subst hij
      rw [getElem?_setIfInBounds_self] at hj1
      rw [getElem?_setIfInBounds_ne hii] at ht1
      split at hj1
      · cases hj1
        exact (hown i' ht1).symm
      · cases hj1
    · rw [getElem?_setIfInBounds_ne hii] at hi1 ht1
      rw [getElem?_setIfInBounds_ne hij] at hj1
      exact hb.own i' j v t' hi1 ht1 hj1

theorem append (hb : Boxes f m n) (values : Array Value) :
    Boxes f { m with locals := m.locals ++ values.map Slot.plain } { n with
        heap := n.heap.addCells values
        locals := n.locals ++ (range values.size).map fun i => .shared (n.heap.cells.size + i) } where
  heap := hb.heap.grow values
  rest := congrArg (fun q : Machine => { q with
    heap := n.heap.addCells values
    locals := n.locals ++ (range values.size).map fun i => Slot.shared (n.heap.cells.size + i) }) hb.rest
  captured := hb.captured
  size := by simp [hb.size]
  slots := by
    intro i s hi
    have hi' : (m.locals ++ values.map Slot.plain)[i]? = some s := hi
    rw [getElem?_append] at hi' ⊢
    rw [hb.size]
    by_cases hlt : i < m.locals.size
    · rw [if_pos hlt] at hi' ⊢
      obtain ⟨t, ht, hst⟩ := hb.slots i s hi'
      refine ⟨t, ht, hst.keep (Nat.le_refl _) (fun _ _ => rfl) fun _ d _ _ hd => ?_⟩
      exact ⟨hd.grow values, Heap.cellAt_addCells _ values hd.lt⟩
    · rw [if_neg hlt, getElem?_map] at hi' ⊢
      obtain ⟨v, hv, rfl⟩ := Option.map_eq_some_iff.mp hi'
      obtain ⟨hlt', -⟩ := Array.getElem?_eq_some_iff.mp hv
      refine ⟨.shared (n.heap.cells.size + (i - m.locals.size)), ?_, ?_⟩
      · rw [getElem?_range, if_pos hlt']
        rfl
      · have hcell := Heap.cellAt_addCells_new n.heap values (i - m.locals.size)
        rw [getD_eq_getD_getElem?, hv] at hcell
        have hspare := Heap.Spare.added hb.heap values hlt'
        have hplain := Slot.Boxed.plain hspare
        rwa [hcell] at hplain
  own := by
    -- the cells of old slots are below the number of cells, those of new slots count up from there
    have hcell {i : Nat} {t : Slot} (hi : (n.locals ++ (range values.size).map fun i =>
        Slot.shared (n.heap.cells.size + i))[i]? = some t) :
        (i < m.locals.size ∧ n.locals[i]? = some t ∧ ∀ d, t = .shared d → d < n.heap.cells.size) ∨
          (m.locals.size ≤ i ∧ t = .shared (n.heap.cells.size + (i - m.locals.size))) := by
      rw [getElem?_append, hb.size] at hi
      by_cases hlt : i < m.locals.size
      · rw [if_pos hlt] at hi
        refine .inl ⟨hlt, hi, ?_⟩
        rintro d rfl
        exact hb.slot_lt hi
      · rw [if_neg hlt, getElem?_map, getElem?_range] at hi
        split at hi
        · cases hi
          exact .inr ⟨Nat.le_of_not_lt hlt, rfl⟩
        · cases hi
    intro i j v t hi ht hj
    have hi' : (m.locals ++ values.map Slot.plain)[i]? = some (.plain v) := hi
    rcases hcell ht with ⟨hlt, ht', hd⟩ | ⟨hle, rfl⟩ <;> rcases hcell hj with ⟨hlt', hj', hd'⟩ | ⟨hle', he⟩
    · rw [getElem?_append_left hlt] at hi'
      exact hb.own i j v t hi' ht' hj'
    · exact absurd (hd _ he) (Nat.not_lt_of_le (Nat.le_add_right ..))
    · exact absurd (hd' _ rfl) (Nat.not_lt_of_le (Nat.le_add_right ..))
    · have hsum : n.heap.cells.size + (i - m.locals.size) = n.heap.cells.size + (j - m.locals.size) :=
        Slot.shared.inj he
      omega

theorem getElem?_shrink (xs : Array α) (k i : Nat) : (xs.shrink k)[i]? = if i < k then xs[i]? else none := by
  rw [← getElem?_toList, toList_shrink, List.getElem?_take, getElem?_toList]

theorem shrink (hb : Boxes f m n) (k : Nat) :
    Boxes f { m with locals := m.locals.shrink k } { n with locals := n.locals.shrink k } where
  heap := hb.heap
  rest := congrArg (fun q : Machine => { q with locals := n.locals.shrink k }) hb.rest
  captured := hb.captured
  size := by simp [hb.size]
  slots := by
    intro i s hi
    have hi' : (m.locals.shrink k)[i]? = some s := hi
    rw [getElem?_shrink] at hi' ⊢
    split at hi'
    · rename_i hlt
      rw [if_pos hlt]
      exact hb.slots i s hi'
    · cases hi'
  own := by
    have hkeep {xs : Array Slot} {i : Nat} {t : Slot} (hi : (xs.shrink k)[i]? = some t) : xs[i]? = some t := by
      rw [getElem?_shrink] at hi
      split at hi
      · exact hi
      · cases hi
    intro i j v t hi ht hj
    exact hb.own i j v t (hkeep hi) (hkeep ht) (hkeep hj)

end Boxes

/-! ## Computations that agree -/

/-- Both end well, with results in `R`, or both with the same fault; the states are related. -/
inductive EndBoxed {α β : Type} (R : (Ref → Ref) → Machine → Machine → α → β → Prop) :
    EStateM.Result Fault Machine α → EStateM.Result Fault Machine β → Prop
  | ok {f m n a b} (boxes : Boxes f m n) (result : R f m n a b) : EndBoxed R (.ok a m) (.ok b n)
  | error {f m n e} (boxes : Boxes f m n) : EndBoxed R (.error e m) (.error e n)

/-- **From related states, the computations end alike.** -/
def Agrees {α β : Type} (R : (Ref → Ref) → Machine → Machine → α → β → Prop) (x : Exec α) (y : Exec β) : Prop :=
  ∀ ⦃f : Ref → Ref⦄ ⦃m n : Machine⦄, Boxes f m n → EndBoxed R (x m) (y n)

/-- The same result on both sides. -/
def Same {α : Type} : (Ref → Ref) → Machine → Machine → α → α → Prop := fun _ _ _ a b => a = b

/-- A cell and its name on the other side. -/
def SameCell : (Ref → Ref) → Machine → Machine → Ref → Ref → Prop := fun f m _ r s =>
  s = f r ∧ r < m.heap.cells.size

section

variable {α β α' β' : Type} {R : (Ref → Ref) → Machine → Machine → α → β → Prop}
  {S : (Ref → Ref) → Machine → Machine → α' → β' → Prop}

theorem EndBoxed.bind {g : α → Exec α'} {g' : β → Exec β'} (hxy : EndBoxed R (x m) (y n))
    (hg : ∀ ⦃f m n a b⦄, Boxes f m n → R f m n a b → EndBoxed S (g a m) (g' b n)) :
    EndBoxed S ((x >>= g) m) ((y >>= g') n) := by
  show EndBoxed S (EStateM.bind x g m) (EStateM.bind y g' n)
  unfold EStateM.bind
  generalize x m = p at hxy ⊢
  generalize y n = q at hxy ⊢
  cases hxy with
  | ok hb hr => exact hg hb hr
  | error hb => exact .error hb

namespace Agrees

theorem bind (hx : Agrees R x y) (hg : ∀ ⦃f m n a b⦄, Boxes f m n → R f m n a b → EndBoxed S (g a m) (g' b n)) :
    Agrees S (x >>= g) (y >>= g') := fun _ _ _ hb => (hx hb).bind hg

theorem andThen (hx : Agrees Same x y) (hg : ∀ a, Agrees S (g a) (g' a)) : Agrees S (x >>= g) (y >>= g') :=
  hx.bind fun _ _ _ a _ hb hr => hr ▸ hg a hb

theorem ite [Decidable c] (hx : Agrees R x y) (hx' : Agrees R x' y') :
    Agrees R (if c then x else x') (if c then y else y') := by
  by_cases hc : c
  · rw [if_pos hc, if_pos hc]
    exact hx
  · rw [if_neg hc, if_neg hc]
    exact hx'

theorem discard (hx : Agrees R x y) : Agrees Same (Functor.discard x) (Functor.discard y) := by
  show Agrees Same (x >>= fun _ => Pure.pure ()) (y >>= fun _ => Pure.pure ())
  exact hx.bind fun _ _ _ _ _ hb _ => .ok hb rfl

theorem pure (a : α) : Agrees Same (pure a : Exec α) (pure a : Exec α) := fun _ _ _ hb => .ok hb rfl

end Agrees

end

/-- **A computation that does not look at variables** does the same on both sides, and no cell gets a
name. -/
theorem EndBoxed.ofCommutes (hx : ∀ v, v.counts = none → Spares v x) (hb : Boxes f m n) :
    EndBoxed (fun f' m' _ a b => a = b ∧ f' = f ∧ m'.heap.cells.size = m.heap.cells.size) (x m) (x n) := by
  have hm : x m = onState (withVariables m.vars) (x m) := hx m.vars rfl m
  have hn : x n = onState (withVariables n.vars) (x m) := by
    conv => lhs; rw [hb.eq_withVariables]
    exact hx n.vars rfl m
  rw [hn]
  cases h : x m with
  | ok a q =>
    rw [h] at hm
    have hq : q = q.withVariables m.vars := (EStateM.Result.ok.inj hm).2
    have hbq := hb.elsewhere q
    rw [← hq] at hbq
    refine .ok hbq ⟨rfl, rfl, ?_⟩
    rw [hq]
    rfl
  | error e q =>
    rw [h] at hm
    have hq : q = q.withVariables m.vars := (EStateM.Result.error.inj hm).2
    have hbq := hb.elsewhere q
    rw [← hq] at hbq
    exact .error hbq

theorem Agrees.ofCommutes (hx : ∀ v, v.counts = none → Spares v x) : Agrees Same x x := by
  intro f m n hb
  have h := EndBoxed.ofCommutes hx hb
  generalize x m = p at h ⊢
  generalize x n = q at h ⊢
  cases h with
  | ok hb hr => exact .ok hb hr.1
  | error hb => exact .error hb

/-- An operation on values to which the names of cells do not matter. -/
theorem Agrees.act (hx : x.IgnoresNames) : Agrees Same (act x) (act x) := by
  intro f m n hb
  have h := hx hb.heap
  unfold Machine.act Machine.onHeap
  dsimp only
  generalize x m.heap = p at h ⊢
  generalize x n.heap = q at h ⊢
  cases h with
  | ok he => exact .ok (hb.evolve he) rfl
  | error he => exact .error (hb.evolve he)

/-! ## Local variables -/

section

open Machine Agrees

variable {i : Nat} {v : Value}

/-- The slots of the local variable `i` of the running frame. -/
def AtSlot (i : Nat) : (Ref → Ref) → Machine → Machine → Slot → Slot → Prop := fun f m n s t =>
  m.locals[m.frame.localsBase + i]? = some s ∧ n.locals[m.frame.localsBase + i]? = some t ∧
    Slot.Boxed f m.heap n.heap s t

theorem localSlot_agrees : Agrees (AtSlot i) (localSlot i) (localSlot i) := by
  intro f m n hb
  unfold localSlot
  rw [hb.frame]
  cases hi : m.locals[m.frame.localsBase + i]? with
  | none =>
    have hn : n.locals[m.frame.localsBase + i]? = none := by
      rw [getElem?_eq_none_iff] at hi ⊢
      rw [hb.size]
      exact hi
    rw [hn]
    exact .error hb
  | some s =>
    obtain ⟨t, ht, hst⟩ := hb.slots _ s hi
    rw [ht]
    exact .ok hb ⟨hi, ht, hst⟩

theorem getLocal_agrees (i : Nat) : Agrees Same (getLocal i) (getLocal i) :=
  localSlot_agrees.bind fun _ _ _ _ _ hb hs => .ok hb (hs.2.2.value hb.heap).symm

theorem setIfInBounds_same {xs : Array α} (hi : xs[i]? = some a) : xs.setIfInBounds i a = xs := by
  apply ext_getElem?
  intro j
  by_cases hij : i = j
  · subst hij
    obtain ⟨hlt, -⟩ := Array.getElem?_eq_some_iff.mp hi
    rw [getElem?_setIfInBounds_self, if_pos hlt, hi]
  · rw [getElem?_setIfInBounds_ne hij]

/-- Writing into a cell that stands for no cell of the other heap. -/
theorem Heap.Renames.setSpare (hr : Heap.Renames f h k) (hd : Heap.Spare f h k d) :
    Heap.Renames f h (k.setCell d v) where
  rest := by
    conv => lhs; rw [hr.rest]
    rfl
  live := hr.live
  lt r hlt := by simpa [Heap.setCell] using hr.lt r hlt
  inj := hr.inj
  cells r hlt := by
    simp only [Heap.setCell, Heap.cellAt, getD_setIfInBounds]
    rw [if_neg fun he => hd.ne r hlt he.1.symm]
    exact hr.cells r hlt

/-- **Assigning** to a plain variable writes its value, or the cell that the boxed machine has for
it. -/
theorem setLocal_agrees (i : Nat) (v : Value) : Agrees Same (setLocal i v) (setLocal i v) := by
  refine localSlot_agrees.bind fun f m n s t hb hs => ?_
  obtain ⟨hm, hn, hst⟩ := hs
  cases hst with
  | shared hlt => exact .ok (hb.evolve (Heap.Evolves.setCell hb.heap hlt v)) rfl
  | @plain d hd =>
    have hcell : (n.heap.setCell d v).cellAt d = v := by
      simp [Heap.setCell, Heap.cellAt, hd.lt]
    have hspare : Heap.Spare f m.heap (n.heap.setCell d v) d := ⟨by simpa [Heap.setCell] using hd.lt, hd.ne⟩
    have hslot := Slot.Boxed.plain hspare
    rw [hcell] at hslot
    have hupdate := hb.update (hb.heap.setSpare hd) (Nat.le_refl _) (fun _ _ => rfl) ?_ hslot
      fun j hj => hb.own _ j _ _ hm hn hj
    · rw [setIfInBounds_same hn] at hupdate
      exact .ok hupdate rfl
    · intro e hne he
      refine ⟨⟨by simpa [Heap.setCell] using he.lt, he.ne⟩, ?_⟩
      simp only [Heap.setCell, Heap.cellAt, getD_setIfInBounds]
      rw [if_neg]
      rintro ⟨rfl, -⟩
      exact hne hn

/-- **Defining** a variable gives the slot a plain value, or a new cell. -/
theorem defineLocal_agrees (i : Nat) (v : Value) : Agrees Same (defineLocal i v) (Boxed.defineLocal i v) := by
  refine localSlot_agrees.discard.andThen fun _ => ?_
  intro f m n hb
  have hnew : Heap.Spare f m.heap (n.heap.addCells #[v]) n.heap.cells.size :=
    Heap.Spare.added hb.heap #[v] Nat.zero_lt_one
  have hcell : (n.heap.addCells #[v]).cellAt n.heap.cells.size = v := Heap.cellAt_addCells_new n.heap #[v] 0
  have hslot := Slot.Boxed.plain hnew
  rw [hcell] at hslot
  have hupdate := hb.update (i := m.frame.localsBase + i) (hb.heap.grow #[v]) (Nat.le_refl _) (fun _ _ => rfl)
    (fun d _ hd => ⟨hd.grow #[v], Heap.cellAt_addCells _ _ hd.lt⟩) hslot
    fun j hj => absurd (hb.slot_lt hj) (Nat.lt_irrefl _)
  show EndBoxed Same _ (.ok () { n with
    heap := (n.heap.newCell v).2
    locals := n.locals.setIfInBounds (n.frame.localsBase + i) (.shared n.heap.cells.size) })
  have hbase : n.frame.localsBase = m.frame.localsBase := by rw [hb.frame]
  rw [hbase]
  exact .ok hupdate rfl

/-- **Sharing** a plain variable makes a cell, which the boxed machine has already. -/
theorem shareLocal_agrees : Agrees SameCell (shareLocal i) (shareLocal i) := by
  refine localSlot_agrees.bind fun f m n s t hb hs => ?_
  obtain ⟨hm, hn, hst⟩ := hs
  cases hst with
  | shared hlt => exact .ok hb ⟨rfl, hlt⟩
  | @plain d hd =>
    have hsize : (m.heap.newCell (n.heap.cellAt d)).2.cells.size = m.heap.cells.size + 1 := size_push _
    have hname : update f m.heap.cells.size d m.heap.cells.size = d := update_self ..
    have hlive : m.heap.cells.size < (m.heap.newCell (n.heap.cellAt d)).2.cells.size := by
      rw [hsize]
      exact Nat.lt_succ_self _
    have hslot := Slot.Boxed.shared (f := update f m.heap.cells.size d) (k := n.heap) hlive
    rw [hname] at hslot
    have hupdate := hb.update (hb.heap.name hd) (Nat.le_of_lt hlive)
      (fun r hlt => update_of_ne (Nat.ne_of_lt hlt) ..) ?_ hslot
      fun j hj => hb.own _ j _ _ hm hn hj
    · rw [setIfInBounds_same hn] at hupdate
      exact .ok hupdate ⟨hname.symm, hlive⟩
    · intro e hne he
      refine ⟨he.name ?_ _, rfl⟩
      rintro rfl
      exact hne hn

/-! ## Captured variables -/

theorem freeCell_agrees : Agrees SameCell (freeCell i) (freeCell i) := by
  intro f m n hb
  unfold freeCell
  rw [hb.frame]
  cases m.frame.closure? with
  | none => exact .error hb
  | some c =>
    simp only [Option.bind_some]
    rw [hb.heap.closureAt c]
    simp only [Closure.rename, getElem?_map]
    cases hi : (m.heap.closureAt c).cells[i]? with
    | none => exact .error hb
    | some r => exact .ok hb ⟨rfl, hb.heap.closureAt_live (mem_of_getElem? hi)⟩

theorem getFree_agrees (i : Nat) : Agrees Same (getFree i) (getFree i) := by
  refine freeCell_agrees.bind fun f m n r s hb hs => ?_
  obtain ⟨rfl, hlt⟩ := hs
  exact .ok hb (hb.heap.cells r hlt).symm

theorem setFree_agrees (i : Nat) (v : Value) : Agrees Same (setFree i v) (setFree i v) := by
  refine freeCell_agrees.bind fun f m n r s hb hs => ?_
  obtain ⟨rfl, hlt⟩ := hs
  exact .ok (hb.evolve (Heap.Evolves.setCell hb.heap hlt v)) rfl

theorem Boxes.recapture (hb : Boxes f m n) (hlive : ∀ r ∈ cells, r < m.heap.cells.size) :
    Boxes f { m with captures := cells } { n with captures := cells.map f } where
  heap := hb.heap
  rest := congrArg (fun q : Machine => { q with captures := cells.map f }) hb.rest
  captured := hlive
  size := hb.size
  slots := hb.slots
  own := hb.own

theorem Boxes.captures (hb : Boxes f m n) : n.captures = m.captures.map f := by rw [hb.rest]

theorem capture_boxed (hb : Boxes f m n) (hs : SameCell f m n r s) : EndBoxed Same (capture r m) (capture s n) := by
  obtain ⟨rfl, hlt⟩ := hs
  have hlive : ∀ s ∈ m.captures.push r, s < m.heap.cells.size := by
    intro s hs
    rcases mem_push.mp hs with hs | rfl
    · exact hb.captured s hs
    · exact hlt
  unfold capture
  rw [hb.captures, ← map_push]
  exact .ok (hb.recapture hlive) rfl

theorem getLocalPtr_agrees (i : Nat) : Agrees Same (do capture (← shareLocal i)) (do capture (← shareLocal i)) :=
  shareLocal_agrees.bind fun _ _ _ _ _ hb hs => capture_boxed hb hs

theorem getFreePtr_agrees (i : Nat) : Agrees Same (do capture (← freeCell i)) (do capture (← freeCell i)) :=
  freeCell_agrees.bind fun _ _ _ _ _ hb hs => capture_boxed hb hs

theorem newCell_agrees (v : Value) : Agrees SameCell (make (·.newCell v)) (make (·.newCell v)) := by
  intro f m n hb
  refine .ok (hb.evolve (Heap.Evolves.newCell hb.heap v)) ⟨?_, ?_⟩
  · exact (update_self m.heap.cells.size n.heap.cells.size f).symm
  · rw [size_push]
    exact Nat.lt_succ_self _

theorem mem_of_mem_extract {xs : Array α} (h : a ∈ xs.extract i j) : a ∈ xs := by
  obtain ⟨k, hk, rfl⟩ := mem_iff_getElem.mp h
  rw [getElem_extract]
  exact getElem_mem _

theorem takeCells_agrees : Agrees (fun f m _ a b => b = a.map f ∧ ∀ r ∈ a, r < m.heap.cells.size)
      (fun m => if m.captures.size < k then .error .stackUnderflow m else
        .ok (m.captures.extract (m.captures.size - k))
          { m with captures := m.captures.shrink (m.captures.size - k) } : Exec (Array Ref))
      (fun m => if m.captures.size < k then .error .stackUnderflow m else
        .ok (m.captures.extract (m.captures.size - k))
          { m with captures := m.captures.shrink (m.captures.size - k) }) := by
  intro f m n hb
  dsimp only
  rw [hb.captures, size_map]
  split
  · exact .error hb
  · rw [shrink_eq_take, shrink_eq_take, take_eq_extract, take_eq_extract,
      ← map_extract, ← map_extract]
    refine .ok (hb.recapture fun r hr => ?_) ⟨rfl, fun r hr => ?_⟩
    · exact hb.captured r (mem_of_mem_extract hr)
    · exact hb.captured r (mem_of_mem_extract hr)

/-- **A closure is made** over the same variables. -/
theorem makeClosure_agrees (env : Env) (i k : Nat) : Agrees Same (makeClosure env i k) (makeClosure env i k) := by
  refine (ofCommutes fun _ _ => constant_commutes env i).andThen fun v => ?_
  cases v with
  | function routine =>
    refine takeCells_agrees.bind fun f m n cells cells' hb hcells => ?_
    obtain ⟨rfl, hlive⟩ := hcells
    refine (EndBoxed.ofCommutes (fun _ h => countAllocation_commutes h) hb).bind fun f' m' n' _ _ hb' h => ?_
    obtain ⟨-, rfl, hsize⟩ := h
    have hlive' : ∀ r ∈ cells, r < m'.heap.cells.size := by
      rw [hsize]
      exact hlive
    have hevolves := Heap.Evolves.newClosure hb'.heap routine hlive'
    have hclosures : n'.heap.closures.size = m'.heap.closures.size := by
      rw [hb'.heap.closures, size_map]
    have hmade : EndBoxed Same (make (·.newClosure { routine, cells }) m')
        (make (·.newClosure { routine, cells := cells.map f' }) n') :=
      .ok (hb'.evolve hevolves) (congrArg Value.closure hclosures.symm)
    exact hmade.bind fun _ _ _ a _ hb hab => hab ▸ ofCommutes (fun _ _ => push_commutes a) hb
  | _ => exact fun _ _ _ hb => .error hb

/-! ## Frames -/

theorem Boxes.onward (hb : Boxes f m n) (stack : Array Value) (frame : Frame) (callers : Array Frame) :
    Boxes f { m with stack, frame, callers } { n with stack, frame, callers } where
  heap := hb.heap
  rest := congrArg (fun q : Machine => { q with stack, frame, callers }) hb.rest
  captured := hb.captured
  size := hb.size
  slots := hb.slots
  own := hb.own

theorem Boxes.stack (hb : Boxes f m n) : n.stack = m.stack := by rw [hb.rest]

/-- **A frame is opened**: its variables are plain, or in new cells. -/
theorem openFrame_agrees (routine : Ref) (closure? : Option Ref) (locals args : Nat) :
    Agrees Same (openFrame routine closure? locals args) (Boxed.openFrame routine closure? locals args) := by
  intro f m n hb
  unfold openFrame Boxed.openFrame
  dsimp only
  rw [hb.stack, hb.callers, hb.frame, hb.size]
  have hplain (xs : Array Value) (k : Nat) : m.locals ++ xs.map Slot.plain ++ replicate k (.plain .undefined) =
        m.locals ++ (xs ++ replicate k Value.undefined).map Slot.plain := by
    rw [append_assoc, map_append, map_replicate]
  rw [hplain]
  exact .ok ((hb.append _).onward ..) rfl

theorem finish_agrees (v : Value) : Agrees Same (finish v) (finish v) := by
  intro f m n hb
  unfold finish
  rw [hb.callers, hb.stack, hb.frame]
  cases m.callers.back? with
  | none => exact .ok hb rfl
  | some caller => exact .ok ((hb.shrink m.frame.localsBase).onward _ caller _) rfl

/-! ## Calls -/

theorem Agrees.check {x y : Exec α} (c : Machine → Prop) [DecidablePred c] (e : Fault)
    (hc : ∀ f m n, Boxes f m n → (c n ↔ c m)) (hx : Agrees Same x y) :
    Agrees Same (do
        if c (← get) then throw e
        x)
      (do
        if c (← get) then throw e
        y) := by
  intro f m n hb
  show EndBoxed Same ((if c m then _ else _ : Exec α) m) ((if c n then _ else _ : Exec α) n)
  by_cases hm : c m
  · rw [if_pos hm, if_pos ((hc f m n hb).mpr hm)]
    exact .error hb
  · rw [if_neg hm, if_neg fun hn => hm ((hc f m n hb).mp hn)]
    exact hx hb

theorem callRoutine_agrees : Agrees Same (callRoutine limits routine closure? args)
      (Boxed.callRoutine limits routine closure? args) := by
  refine (ofCommutes fun _ _ => readHeap_commutes fun _ => rfl).andThen fun r => ?_
  refine (ofCommutes fun _ h => bindArguments_commutes h r args).andThen fun args => ?_
  refine check (fun m => limits.callDepth ≤ m.callers.size + 1) _ (fun f m n hb => ?_)
    (openFrame_agrees routine closure? r.locals args)
  rw [hb.callers]

theorem Action.ignoresNames_of_commutes {x : Action α}
    (hx : ∀ cells closures, Commutes (Heap.withCells cells closures) x) : x.IgnoresNames := by
  intro f h k hr
  have hh : x h = onState (Heap.withCells h.cells h.closures) (x h) := hx h.cells h.closures h
  have hk : x k = onState (Heap.withCells k.cells k.closures) (x h) := by
    have hrest := hr.rest
    rw [← hr.closures] at hrest
    conv => lhs; rw [hrest]
    exact hx k.cells k.closures h
  rw [hk]
  cases hxh : x h with
  | ok a h' =>
    rw [hxh] at hh
    have he := Heap.Evolves.withCells hr h'
    rw [← (EStateM.Result.ok.inj hh).2] at he
    exact .ok he
  | error e h' =>
    rw [hxh] at hh
    have he := Heap.Evolves.withCells hr h'
    rw [← (EStateM.Result.error.inj hh).2] at he
    exact .error he

/-- A native function that fails gives an error value. -/
theorem native_ignoresNames {x : Action Value} (hx : x.IgnoresNames) : Action.IgnoresNames fun h =>
      match x h with
      | .ok v h => .ok v h
      | .error e h => Action.newError (.str e.message) h := by
  intro f h k hr
  have hxk := hx hr
  dsimp only
  generalize x h = p at hxk ⊢
  generalize x k = q at hxk ⊢
  cases hxk with
  | ok he => exact .ok he
  | @error e f' h' k' he =>
    have hnew : (Action.newError (.str e.message)).IgnoresNames :=
      Action.ignoresNames_of_commutes fun _ _ => Commutes.newError _
    have hend := hnew he.renames
    dsimp only
    generalize Action.newError (.str e.message) h' = p at hend ⊢
    generalize Action.newError (.str e.message) k' = q at hend ⊢
    cases hend with
    | ok he' => exact .ok (he.trans he')
    | error he' => exact .error (he.trans he')

theorem callNative_agrees {g : List Value → Action Value} (hg : ∀ vs, (g vs).IgnoresNames) :
    Agrees Same (callNative g args) (callNative g args) := by
  refine (ofCommutes fun _ _ => popMany_commutes args).andThen fun vs => ?_
  refine (ofCommutes fun _ _ => pop_commutes.discard).andThen fun _ => ?_
  refine (act (native_ignoresNames (hg vs))).andThen fun v => ?_
  exact ofCommutes fun _ h => pushNew_commutes h v

/-- **Calling a function.** -/
theorem call_agrees (hhost : ∀ name args, (env.host name args).IgnoresNames) (args : Nat) (spread : Bool) :
    Agrees Same (call env args spread) (Boxed.call env args spread) := by
  refine check (fun m => m.stack.size < args + 1) _ (fun f m n hb => by rw [hb.stack]) ?_
  -- what is left to do is the same with and without a list of arguments
  refine ite ((ofCommutes fun _ _ => spreadLast_commutes args).andThen ?callee)
    ((pure args).andThen ?callee)
  intro args
  refine (ofCommutes fun _ _ => calleeBelow_commutes args).andThen fun v => ?_
  cases v with
  | function routine => exact callRoutine_agrees
  | closure c =>
    intro f m n hb
    show EndBoxed Same (callRoutine env.limits (m.heap.closureAt c).routine (some c) args m)
      (Boxed.callRoutine env.limits (n.heap.closureAt c).routine (some c) args n)
    rw [hb.heap.closureAt]
    exact callRoutine_agrees hb
  | builtin b =>
    exact callNative_agrees (fun vs => Action.ignoresNames_of_commutes fun _ _ => b.call_commutes vs)
  | host r =>
    refine (ofCommutes fun _ _ => readHeap_commutes fun _ => rfl).andThen fun name => ?_
    exact callNative_agrees (hhost name)
  | _ => exact ofCommutes fun _ _ => refuse_commutes _ _

/-! ## Assigning to a part of a variable -/

theorem assignSelected_agrees {read : Exec Value} (hread : Agrees Same read read) (selectors : Nat) :
    Agrees Same (assignSelected read selectors) (assignSelected read selectors) := by
  refine (ofCommutes fun _ _ => popMany_commutes selectors).andThen fun keys => ?_
  refine (ofCommutes fun _ _ => pop_commutes).andThen fun value => ?_
  refine hread.andThen fun target => ?_
  exact ofCommutes fun _ _ => assignPart_commutes target value keys

end

end Scripting
