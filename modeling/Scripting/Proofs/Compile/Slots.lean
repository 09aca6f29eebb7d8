import Scripting.Proofs.Compile.Building
import Scripting.Proofs.Compile.Lexical
import Scripting.Proofs.Compile.Stream
/-!
# `Proofs.Compile.Slots` — which global slots compiled code uses

Compiled code refers to global variables by slots. The slots that a piece of code can name are those of the
variables in sight when it is compiled, and those that are given to the variables it defines. That is
`InSight` for tables and `Uses` for code, and `Builds.uses` proves it for all compiled code, by induction on
the rules that put code together: its own instructions and every function that becomes a constant on the way
stay within those slots. The functions of modules name no global slot at all (`Silent`).

`Widens` collects what definitions, look-ups and blocks do to the bookkeeping of the root scope.
-/

namespace Scripting

open Code List

variable {t t' : SymbolTable} {name : String} {ss : List Scope} {sym : Symbol} {n slot : Nat} {block : Bool}
  {i : Instruction}

/-! ## Tables -/

namespace SymbolTable

/-- A symbol is bound to a name in an open scope. -/
def Sees (t : SymbolTable) (sym : Symbol) : Prop :=
  ∃ s ∈ t.inner ++ [t.root], ∃ name, s.names.get? name = some sym

/-- A table in which definitions and look-ups have happened, with the same scopes open. -/
structure Widens (t t' : SymbolTable) : Prop where
  blocks : t'.inner.map (·.block) = t.inner.map (·.block)
  peak : t.root.peak ≤ t'.root.peak
  defined : t.root.defined ≤ t'.root.defined
  /-- Inside a function no global slot is taken. -/
  outside : t.inGlobal = false → t'.root.peak = t.root.peak
  /-- Inside a block the root gets no variable of its own. -/
  nested : t.inner ≠ [] → t'.root.names = t.root.names ∧ t'.root.defined = t.root.defined
  /-- In the root, the slots of ended blocks count as taken. -/
  level : t.inner = [] → t.root.peak = t.root.defined → t'.root.peak = t'.root.defined

theorem inGlobal_eq (t : SymbolTable) : t.inGlobal = (t.inner.map (·.block)).all id := by
  rw [all_map]
  rfl

theorem Widens.inGlobal (h : t.Widens t') : t'.inGlobal = t.inGlobal := by
  rw [inGlobal_eq, inGlobal_eq, h.blocks]

theorem Widens.inner_eq_nil (h : t.Widens t') : t'.inner = [] ↔ t.inner = [] := by
  rw [← map_eq_nil_iff, h.blocks, map_eq_nil_iff]

theorem Widens.refl (t : SymbolTable) : t.Widens t where
  blocks := rfl
  peak := Nat.le_refl _
  defined := Nat.le_refl _
  outside _ := rfl
  nested _ := ⟨rfl, rfl⟩
  level _ h := h

theorem Widens.trans (h : t.Widens t') (h' : t'.Widens t'') : t.Widens t'' where
  blocks := h'.blocks.trans h.blocks
  peak := Nat.le_trans h.peak h'.peak
  defined := Nat.le_trans h.defined h'.defined
  outside hg := (h'.outside (h.inGlobal.trans hg)).trans (h.outside hg)
  nested hi :=
    have h1 := h.nested hi
    have h2 := h'.nested fun hnil => hi (h.inner_eq_nil.mp hnil)
    ⟨h2.1.trans h1.1, h2.2.trans h1.2⟩
  level hi hp := h'.level (h.inner_eq_nil.mpr hi) (h.level hi hp)

/-! ### Look-ups -/

theorem Resolves.sees {root : Scope} (h : Resolves name root ss sym ss') :
    ss'.map (·.block) = ss.map (·.block) ∧
      (sym.kind = .captured ∨ ∃ s ∈ ss ++ [root], ∃ name, s.names.get? name = some sym) ∧
      ∀ s' ∈ ss', ∀ name' sym', s'.names.get? name' = some sym' →
        sym'.kind = .captured ∨ ∃ s ∈ ss, ∃ name, s.names.get? name = some sym' := by
  have hcons {s : Scope} {rest rest' : List Scope} (hrest : ∀ s' ∈ rest', ∀ name' sym',
      s'.names.get? name' = some sym' →
      sym'.kind = .captured ∨ ∃ s ∈ rest, ∃ name, s.names.get? name = some sym') (s' : Scope) (hs' : s' ∈ rest')
      (name' : String) (sym' : Symbol) (hg : s'.names.get? name' = some sym') :
      sym'.kind = .captured ∨ ∃ s1 ∈ s :: rest, ∃ name, s1.names.get? name = some sym' := by
    rcases hrest s' hs' name' sym' hg with hc | ⟨s1, hs1, hname⟩
    · exact .inl hc
    · exact .inr ⟨s1, mem_cons_of_mem _ hs1, hname⟩
  induction h with
  | root hget => exact ⟨rfl, .inr ⟨root, by simp, name, hget⟩, fun s' hs' => by cases hs'⟩
  | @here s _ _ hget =>
    exact ⟨rfl, .inr ⟨s, by simp, name, hget⟩, fun s' hs' name' sym' hg => .inr ⟨s', hs', name', hg⟩⟩
  | pass hget _ hcross ih =>
    obtain ⟨hblocks, hsym, hrest⟩ := ih
    refine ⟨by simp [hblocks], hsym.imp_right ?_, ?_⟩
    · rintro ⟨s1, hs1, hname⟩
      exact ⟨s1, mem_cons_of_mem _ hs1, hname⟩
    · intro s' hs' name' sym' hg
      rcases mem_cons.mp hs' with rfl | hs'
      · exact .inr ⟨s', mem_cons_self .., name', hg⟩
      · exact hcons hrest s' hs' name' sym' hg
  | @capture s _ _ _ hget _ hb he ih =>
    obtain ⟨hblocks, -, hrest⟩ := ih
    refine ⟨by simp [hblocks, Scope.capture], .inl rfl, ?_⟩
    intro s' hs' name' sym'' hg
    rcases mem_cons.mp hs' with rfl | hs'
    · simp only [Scope.capture, Dict.get?_insert] at hg
      split at hg
      · cases hg
        exact .inl rfl
      · exact .inr ⟨s, mem_cons_self .., name', hg⟩
    · exact hcons hrest s' hs' name' sym'' hg

theorem resolve_widens (h : t.resolve name = some (sym, n, t')) : t.Widens t' := by
  simp only [resolve, Option.map_eq_some_iff] at h
  obtain ⟨⟨sym', crossed, inner⟩, hin, heq⟩ := h
  cases heq
  exact ⟨(resolves hin).sees.1, Nat.le_refl _, Nat.le_refl _, fun _ => rfl, fun _ => ⟨rfl, rfl⟩, fun _ hp => hp⟩

theorem resolve_sees (h : t.resolve name = some (sym, n, t')) : sym.kind = .captured ∨ t.Sees sym := by
  simp only [resolve, Option.map_eq_some_iff] at h
  obtain ⟨⟨sym', crossed, inner⟩, hin, heq⟩ := h
  cases heq
  exact (resolves hin).sees.2.1

theorem sees_of_resolve (h : t.resolve name = some (sym, n, t')) {sym' : Symbol} (hs : t'.Sees sym') :
    sym'.kind = .captured ∨ t.Sees sym' := by
  simp only [resolve, Option.map_eq_some_iff] at h
  obtain ⟨⟨sym1, crossed, inner⟩, hin, heq⟩ := h
  cases heq
  obtain ⟨s, hmem, name', hg⟩ := hs
  rcases mem_append.mp hmem with hmem | hmem
  · refine ((resolves hin).sees.2.2 s hmem name' sym' hg).imp_right ?_
    rintro ⟨s1, hs1, hname⟩
    exact ⟨s1, mem_append_left _ hs1, hname⟩
  · exact .inr ⟨s, mem_append_right _ hmem, name', hg⟩

/-! ### Definitions -/

theorem blocks_of_alike (h : Forall₂ Alike ss ss') : ss'.map (·.block) = ss.map (·.block) := by
  induction h with
  | nil => rfl
  | cons hs _ ih => rw [map_cons, map_cons, hs.block, ih]

/-- The bound of the root is raised outside every function, and only there. -/
theorem peak_raiseIn (n : Nat) (root : Scope) (ss : List Scope) :
    (raiseIn n root ss).2.peak = if ss.all (·.block) then max root.peak n else root.peak := by
  induction ss with
  | nil => rfl
  | cons s rest ih =>
    unfold raiseIn
    cases hb : s.block with
    | true => simpa [hb] using ih
    | false => simp [hb]

theorem raise_widens (h : t.inner ≠ []) : t.Widens (t.raise n) := by
  obtain ⟨hinner, hroot⟩ := raiseIn_alike n t.root t.inner
  have hpeak : (t.raise n).root.peak = if t.inGlobal then max t.root.peak n else t.root.peak :=
    peak_raiseIn n t.root t.inner
  refine ⟨blocks_of_alike hinner, ?_, Nat.le_of_eq hroot.defined.symm, fun hg => ?_,
    fun _ => ⟨hroot.names, hroot.defined⟩, fun hi => absurd hi h⟩
  · rw [hpeak]
    split
    · exact Nat.le_max_left ..
    · exact Nat.le_refl _
  · rw [hpeak, hg, if_neg Bool.false_ne_true]

theorem bindTop_widens (h : slots = 0 ∨ t.inner ≠ []) (sym : Symbol) : t.Widens (t.bindTop sym slots) := by
  obtain ⟨inner, root, builtins⟩ := t
  cases inner with
  | nil =>
    rcases h with rfl | h
    · exact ⟨rfl, Nat.le_refl _, Nat.le_refl _, fun _ => rfl, fun hi => absurd rfl hi, fun _ hp => hp⟩
    · exact absurd rfl h
  | cons s rest =>
    exact ⟨rfl, Nat.le_refl _, Nat.le_refl _, fun _ => rfl, fun _ => ⟨rfl, rfl⟩, fun hi => by cases hi⟩

theorem define_widens (t : SymbolTable) (name : String) : t.Widens (t.define name).2 := by
  by_cases hi : t.inner = []
  · obtain ⟨inner, root, builtins⟩ := t
    cases hi
    refine ⟨rfl, Nat.le_max_left .., Nat.le_add_right _ _, fun hg => Bool.noConfusion hg,
      fun hi => absurd rfl hi, fun _ hp => ?_⟩
    have hp' : root.peak = root.defined := hp
    show max root.peak (root.defined + 1) = root.defined + 1
    rw [hp', Nat.max_eq_right (Nat.le_add_right ..)]
  · have hbind : t.Widens (t.bindTop (t.define name).1 1) := bindTop_widens (.inr hi) _
    exact hbind.trans (raise_widens (fun hnil => hi (hbind.inner_eq_nil.mp hnil)))

theorem sees_of_raise (h : (t.raise n).Sees sym) : t.Sees sym := by
  obtain ⟨hinner, hroot⟩ := raiseIn_alike n t.root t.inner
  obtain ⟨s, hmem, name, hg⟩ := h
  rcases mem_append.mp hmem with hmem | hmem
  · obtain ⟨i, hi, rfl⟩ := getElem_of_mem hmem
    have hi' : i < t.inner.length := hinner.length_eq ▸ hi
    have halike := hinner.get hi' hi
    refine ⟨t.inner[i], mem_append_left _ (getElem_mem hi'), name, ?_⟩
    rw [← hg]
    exact congrArg (Dict.get? · name) halike.names.symm
  · rw [mem_singleton] at hmem
    subst hmem
    refine ⟨t.root, by simp, name, ?_⟩
    rw [← hg]
    exact congrArg (Dict.get? · name) hroot.names.symm

theorem sees_of_bindTop (h : (t.bindTop sym slots).Sees sym') : sym' = sym ∨ t.Sees sym' := by
  -- only the innermost scope has changed
  have hscope {s : Scope} {name : String}
      (hg : ({ s.bind sym with defined := s.defined + slots } : Scope).names.get? name = some sym') :
      sym' = sym ∨ s.names.get? name = some sym' := by
    have hg' : (s.names.insert sym.name sym).get? name = some sym' := hg
    rw [Dict.get?_insert] at hg'
    split at hg'
    · cases hg'
      exact .inl rfl
    · exact .inr hg'
  obtain ⟨inner, root, builtins⟩ := t
  obtain ⟨s, hmem, name, hg⟩ := h
  cases inner with
  | nil =>
    rcases mem_singleton.mp hmem with rfl
    exact (hscope hg).imp_right fun hg => ⟨root, by simp, name, hg⟩
  | cons s1 rest =>
    rcases mem_cons.mp hmem with rfl | hmem
    · exact (hscope hg).imp_right fun hg => ⟨s1, by simp, name, hg⟩
    · exact .inr ⟨s, mem_cons_of_mem _ hmem, name, hg⟩

theorem sees_of_define (h : (t.define name).2.Sees sym) : sym = (t.define name).1 ∨ t.Sees sym := by
  have hbind : (t.bindTop (t.define name).1 1).Sees sym := sees_of_raise h
  exact sees_of_bindTop hbind

theorem le_nextSlotIn (root : Scope) (h : ss.all (·.block) = true) : root.defined ≤ nextSlotIn root ss := by
  induction ss with
  | nil => exact Nat.le_refl _
  | cons s rest ih =>
    rw [all_cons, Bool.and_eq_true] at h
    rw [nextSlotIn, if_pos h.1]
    exact Nat.le_trans (ih h.2) (Nat.le_add_right ..)

/-- A new global variable takes a slot that the root has not given away, and the root knows of it. -/
theorem define_global (h : (t.define name).1.kind = .globalVar) :
    t.root.defined ≤ (t.define name).1.index ∧ (t.define name).1.index < (t.define name).2.root.peak := by
  have hg : t.inGlobal = true := by
    cases hg : t.inGlobal with
    | true => rfl
    | false => simp [define, hg] at h
  have hbind : (t.bindTop (t.define name).1 1).inGlobal = true := by
    obtain ⟨inner, root, builtins⟩ := t
    cases inner with
    | nil => rfl
    | cons s rest => exact hg
  have hpeak : (t.define name).2.root.peak =
      if (t.bindTop (t.define name).1 1).inGlobal then
        max (t.bindTop (t.define name).1 1).root.peak ((t.define name).1.index + 1)
      else (t.bindTop (t.define name).1 1).root.peak := peak_raiseIn ..
  rw [hbind] at hpeak
  refine ⟨le_nextSlotIn t.root hg, ?_⟩
  rw [hpeak]
  exact Nat.lt_of_lt_of_le (Nat.lt_succ_self _) (Nat.le_max_right ..)

/-! ### Scopes -/

theorem sees_of_enter (h : (t.enter block).Sees sym) : t.Sees sym := by
  obtain ⟨s, hmem, name, hg⟩ := h
  rcases mem_cons.mp hmem with rfl | hmem
  · cases hg
  · exact ⟨s, hmem, name, hg⟩

theorem root_leave (t : SymbolTable) : t.leave.2.root.names = t.root.names ∧
    t.leave.2.root.peak = t.root.peak ∧ t.root.defined ≤ t.leave.2.root.defined := by
  obtain ⟨inner, root, builtins⟩ := t
  cases inner with
  | nil => exact ⟨rfl, rfl, Nat.le_refl _⟩
  | cons s rest =>
    simp only [leave]
    split
    · exact ⟨rfl, rfl, Nat.le_max_left ..⟩
    · exact ⟨rfl, rfl, Nat.le_refl _⟩

theorem inner_leave (t : SymbolTable) : t.leave.2.inner = t.inner.tail := by
  obtain ⟨inner, root, builtins⟩ := t
  cases inner <;> rfl

theorem sees_of_leave (h : t.leave.2.Sees sym) : t.Sees sym := by
  obtain ⟨s, hmem, name, hg⟩ := h
  rcases mem_append.mp hmem with hmem | hmem
  · rw [inner_leave] at hmem
    exact ⟨s, mem_append_left _ (mem_of_mem_tail hmem), name, hg⟩
  · rw [mem_singleton] at hmem
    subst hmem
    refine ⟨t.root, by simp, name, ?_⟩
    rw [← (root_leave t).1]
    exact hg

theorem defined_leave (h : t.inner = s :: rest) :
    t.leave.2.root.defined =
      if s.block && rest.isEmpty then max t.root.defined t.root.peak else t.root.defined := by
  obtain ⟨inner, root, builtins⟩ := t
  cases h
  simp only [leave]
  split
  · rfl
  · rfl

/-- The scope that was opened is still the innermost one. -/
theorem Widens.inner_enter (h : (t.enter block).Widens t') :
    ∃ s rest, t'.inner = s :: rest ∧ s.block = block ∧ (rest = [] ↔ t.inner = []) := by
  have hblocks : t'.inner.map (·.block) = block :: t.inner.map (·.block) := h.blocks
  obtain ⟨s, rest, hinner, hs, hrest⟩ := map_eq_cons_iff.mp hblocks
  refine ⟨s, rest, hinner, hs, ?_⟩
  rw [← map_eq_nil_iff, hrest, map_eq_nil_iff]

theorem Widens.leave (h : (t.enter block).Widens t') : t.Widens t'.leave.2 where
  blocks := by
    rw [inner_leave, map_tail, h.blocks]
    rfl
  peak := by
    rw [(root_leave t').2.1]
    exact h.peak
  defined := Nat.le_trans h.defined (root_leave t').2.2
  outside hg := by
    rw [(root_leave t').2.1]
    refine h.outside ?_
    show (_ && t.inGlobal) = false
    rw [hg, Bool.and_false]
  nested hi := by
    obtain ⟨hnames, hdefined⟩ := h.nested (cons_ne_nil _ _)
    obtain ⟨s, rest, hinner, -, hrest⟩ := h.inner_enter
    refine ⟨(root_leave t').1.trans hnames, ?_⟩
    rw [defined_leave hinner, if_neg, hdefined]
    · rfl
    · rw [Bool.and_eq_true, List.isEmpty_iff, hrest]
      exact fun ⟨_, hnil⟩ => hi hnil
  level hi hp := by
    obtain ⟨-, hdefined⟩ := h.nested (cons_ne_nil _ _)
    obtain ⟨s, rest, hinner, hblock, hrest⟩ := h.inner_enter
    have hdefined' : t'.root.defined = t.root.peak := hdefined.trans hp.symm
    rw [(root_leave t').2.1, defined_leave hinner, isEmpty_iff.mpr (hrest.mpr hi), Bool.and_true, hblock,
      hdefined']
    cases block with
    | true =>
      exact (Nat.max_eq_right h.peak).symm
    | false => exact h.outside rfl

/-! ## What is in sight -/

/-- The slots that code may use: those in `S`, and those from `low` on that have been given away. -/
def MayUse (S : Nat → Prop) (low : Nat) (t : SymbolTable) (slot : Nat) : Prop :=
  S slot ∨ low ≤ slot ∧ slot < t.root.peak

/-- **Every global variable in sight has a slot that code may use**, and so will those that are defined. -/
structure InSight (S : Nat → Prop) (low : Nat) (t : SymbolTable) : Prop where
  seen : ∀ sym, t.Sees sym → sym.kind = .globalVar → MayUse S low t sym.index
  room : t.inGlobal = true → low ≤ t.root.defined

variable {S : Nat → Prop} {low : Nat}

theorem MayUse.widens (hw : t.Widens t') (h : MayUse S low t slot) : MayUse S low t' slot :=
  h.imp_right fun ⟨hlow, hlt⟩ => ⟨hlow, Nat.lt_of_lt_of_le hlt hw.peak⟩

theorem InSight.define (h : InSight S low t) (name : String) :
    InSight S low (t.define name).2 ∧
      ((t.define name).1.kind = .globalVar → MayUse S low (t.define name).2 (t.define name).1.index) := by
  have hw := t.define_widens name
  have hnew (hk : (t.define name).1.kind = .globalVar) :
      MayUse S low (t.define name).2 (t.define name).1.index := by
    obtain ⟨hge, hlt⟩ := define_global hk
    refine .inr ⟨Nat.le_trans (h.room ?_) hge, hlt⟩
    cases hg : t.inGlobal with
    | true => rfl
    | false => simp [SymbolTable.define, hg] at hk
  refine ⟨⟨fun sym hs hk => ?_, fun hg => ?_⟩, hnew⟩
  · rcases sees_of_define hs with rfl | hs
    · exact hnew hk
    · exact (h.seen sym hs hk).widens hw
  · exact Nat.le_trans (h.room (hw.inGlobal ▸ hg)) hw.defined

theorem InSight.resolve (h : InSight S low t) (hr : t.resolve name = some (sym, n, t')) :
    InSight S low t' ∧ (sym.kind = .globalVar → MayUse S low t' sym.index) := by
  have hw := resolve_widens hr
  refine ⟨⟨fun sym' hs hk => ?_, fun hg => ?_⟩, fun hk => ?_⟩
  · rcases sees_of_resolve hr hs with hc | hs
    · rw [hk] at hc
      cases hc
    · exact (h.seen sym' hs hk).widens hw
  · exact Nat.le_trans (h.room (hw.inGlobal ▸ hg)) hw.defined
  · rcases resolve_sees hr with hc | hs
    · rw [hk] at hc
      cases hc
    · exact (h.seen sym hs hk).widens hw

theorem InSight.enter (h : InSight S low t) (block : Bool) : InSight S low (t.enter block) where
  seen sym hs hk := h.seen sym (sees_of_enter hs) hk
  room hg := h.room (Bool.and_eq_true_iff.mp hg).2

theorem InSight.leave (h : InSight S low t) (hw : (t.enter block).Widens t') (h' : InSight S low t') :
    InSight S low t'.leave.2 where
  seen sym hs hk := by
    have huse := h'.seen sym (sees_of_leave hs) hk
    unfold MayUse at huse ⊢
    rw [(root_leave t').2.1]
    exact huse
  room hg := Nat.le_trans (h.room (hw.leave.inGlobal ▸ hg)) hw.leave.defined

theorem InSight.defineFunction (h : InSight S low t) (name : String) :
    InSight S low (t.defineFunction name).2 ∧ t.Widens (t.defineFunction name).2 := by
  have hw : t.Widens (t.bindTop (t.defineFunction name).1 0) := bindTop_widens (.inl rfl) _
  refine ⟨⟨fun sym hs hk => ?_, fun hg => ?_⟩, hw⟩
  · have hs' : (t.bindTop (t.defineFunction name).1 0).Sees sym := hs
    rcases sees_of_bindTop hs' with rfl | hs'
    · cases hk
    · exact (h.seen sym hs' hk).widens hw
  · exact Nat.le_trans (h.room (hw.inGlobal ▸ hg)) hw.defined

theorem InSight.withParams (h : InSight S low t) (params : List Name) :
    InSight S low (Generator.withParams t params) ∧ t.Widens (Generator.withParams t params) := by
  induction params generalizing t with
  | nil => exact ⟨h, .refl t⟩
  | cons p ps ih =>
    obtain ⟨hsight, hw⟩ := ih (h.define p.text).1
    exact ⟨hsight, (t.define_widens p.text).trans hw⟩

theorem InSight.withSelf (h : InSight S low t) (self : Option String) :
    InSight S low (Generator.withSelf t self) ∧ t.Widens (Generator.withSelf t self) := by
  cases self with
  | none => exact ⟨h, .refl t⟩
  | some name =>
    unfold Generator.withSelf
    by_cases hnew : (t.resolveTop? name).isNone
    · simp only [hnew]
      exact h.defineFunction name
    · simp only [hnew]
      exact ⟨h, .refl t⟩

theorem ofBuiltins_bare (builtins : Array Symbol) : (ofBuiltins builtins).inner = [] ∧
    (ofBuiltins builtins).root.peak = 0 ∧ ∀ sym, (ofBuiltins builtins).Sees sym → sym.kind = .builtin := by
  refine Array.foldl_induction (fun _ (t : SymbolTable) => t.inner = [] ∧ t.root.peak = 0 ∧
    ∀ sym, t.Sees sym → sym.kind = .builtin) ⟨rfl, rfl, ?_⟩ ?_
  · rintro sym ⟨s, hmem, name, hg⟩
    rcases mem_singleton.mp hmem with rfl
    cases hg
  · rintro i t ⟨hinner, hpeak, hnames⟩
    refine ⟨hinner, hpeak, ?_⟩
    rintro sym ⟨s, hmem, name, hg⟩
    rw [show (t.defineBuiltin builtins[i].index builtins[i].name).2.inner = t.inner from rfl, hinner] at hmem
    rcases mem_singleton.mp hmem with rfl
    have hg' : (t.root.names.insert builtins[i].name ⟨builtins[i].name, .builtin, builtins[i].index⟩).get? name =
        some sym := hg
    rw [Dict.get?_insert] at hg'
    split at hg'
    · cases hg'
      rfl
    · exact hnames sym ⟨t.root, by simp, name, hg'⟩

theorem inSight_module (builtins : Array Symbol) :
    InSight (fun _ => False) 0 ((ofBuiltins builtins).enter false) where
  seen sym hs hk := by
    rw [(ofBuiltins_bare builtins).2.2 sym (sees_of_enter hs)] at hk
    cases hk
  room hg := by cases hg

end SymbolTable

/-! ## What code uses -/

/-- The global slot that an instruction reads or writes. -/
def Instruction.globalSlot? : Instruction → Option Nat
  | ⟨.getGlobal, slot :: _⟩ | ⟨.setGlobal, slot :: _⟩ | ⟨.setSelGlobal, slot :: _⟩ => some slot
  | _ => none

/-- Some instruction of the code reads or writes the global slot. -/
def Code.Touches (code : Bytes) (slot : Nat) : Prop :=
  ∃ p ∈ decode code, p.2.globalSlot? = some slot

namespace Generator

open Fragment SymbolTable

theorem globalSlot?_of_isJump (h : i.op.isJump = true) : i.globalSlot? = none := by
  obtain ⟨op, operands⟩ := i
  cases op <;> first | rfl | cases h

theorem globalSlot?_of_isPlain (h : i.op.isPlain = true) : i.globalSlot? = none := by
  obtain ⟨op, operands⟩ := i
  cases op <;> first | rfl | cases h

theorem globalSlot?_loadOp (h : sym.loadOp.globalSlot? = some slot) :
    sym.kind = .globalVar ∧ sym.index = slot := by
  unfold Symbol.loadOp at h
  cases hk : sym.kind with
  | globalVar =>
    rw [hk] at h
    exact ⟨rfl, Option.some.inj h⟩
  | localVar | captured | builtin | self =>
    rw [hk] at h
    cases h

theorem globalSlot?_storedBy (hs : sym.StoredBy i) (h : i.globalSlot? = some slot) :
    sym.kind = .globalVar ∧ sym.index = slot := by
  unfold Symbol.StoredBy at hs
  cases hk : sym.kind with
  | globalVar =>
    rw [hk] at hs
    rcases hs with rfl | ⟨n, rfl⟩
    · exact ⟨rfl, Option.some.inj h⟩
    · exact ⟨rfl, Option.some.inj h⟩
  | localVar =>
    rw [hk] at hs
    rcases hs with rfl | rfl | ⟨n, rfl⟩ <;> cases h
  | captured =>
    rw [hk] at hs
    rcases hs with rfl | ⟨n, rfl⟩ <;> cases h
  | builtin | self =>
    rw [hk] at hs
    cases hs

theorem Assembled.touches {code : Bytes} (h : Assembled f code) (ht : Code.Touches code slot) :
    ∃ i ∈ f.ops, i.globalSlot? = some slot := by
  obtain ⟨p, hp, hslot⟩ := ht
  rcases h.mem_ops hp with hj | hi
  · rw [globalSlot?_of_isJump hj] at hslot
    cases hslot
  · exact ⟨p.2, hi, hslot⟩

theorem ops_returning (h : i ∈ (returning exits f).ops) : i ∈ f.ops ∨ i = ⟨.ret, [0]⟩ := by
  unfold returning at h
  split at h
  · exact .inl h
  · rcases mem_append.mp h with h | h
    · exact .inl h
    · exact .inr (mem_singleton.mp h)

theorem ops_captureCode (h : i ∈ (captureCode syms).ops) : i.globalSlot? = none := by
  induction syms with
  | nil => cases h
  | cons sym rest ih =>
    rcases mem_append.mp h with h | h
    · rw [mem_singleton.mp h]
      unfold captureOp
      cases sym.kind <;> rfl
    · exact ih h

theorem ops_functionCode (h : i ∈ (functionCode k syms).ops) : i.globalSlot? = none := by
  unfold functionCode at h
  split at h
  · rw [mem_singleton.mp h]
    rfl
  · rcases mem_append.mp h with h | h
    · exact ops_captureCode h
    · rw [mem_singleton.mp h]
      rfl

theorem ops_moduleCall (h : i ∈ (moduleCall k).ops) : i.globalSlot? = none := by
  rcases mem_append.mp h with h | h
  · rw [mem_singleton.mp h]
    rfl
  · rw [mem_singleton.mp h]
    rfl

variable {M : ModuleMap} {held : List Symbol} {c c' : Context} {f : Fragment} {exits : Bool}

/-- No instruction of the code reads or writes a global slot. -/
def Silent (code : Bytes) : Prop := ∀ slot, ¬Touches code slot

/-- **What a piece of code may use.** From context `c` to `c'`, the instructions `is` and the functions that
have become constants touch only global slots that they may use. -/
structure Uses (S : Nat → Prop) (low : Nat) (c c' : Context) (is : List Instruction) : Prop where
  widens : c.table.Widens c'.table
  sight : InSight S low c'.table
  ops : ∀ i ∈ is, ∀ slot, i.globalSlot? = some slot → MayUse S low c'.table slot
  functions : c.Gives c' fun code => ∀ slot, Touches code slot → MayUse S low c'.table slot
  modules : c'.ModulesHave Silent

section

variable {M : ModuleMap} {held : List Symbol} {c c' c1 c2 : Context} {f : Fragment} {exits : Bool}
variable {S : Nat → Prop} {low : Nat} {is js : List Instruction}

theorem Uses.silent (hs : InSight S low c.table) (hq : c.ModulesHave Silent)
    (his : ∀ i ∈ is, i.globalSlot? = none) : Uses S low c c is where
  widens := .refl _
  sight := hs
  ops i hi slot h := by
    rw [his i hi] at h
    cases h
  functions := .nothing rfl
  modules := hq

theorem Uses.symbol (hs : InSight S low c.table) (hq : c.ModulesHave Silent)
    (hi : ∀ slot, i.globalSlot? = some slot → sym.kind = .globalVar ∧ sym.index = slot)
    (hsym : sym.kind = .globalVar → MayUse S low c.table sym.index) : Uses S low c c [i] where
  widens := .refl _
  sight := hs
  ops j hj slot h := by
    rw [mem_singleton.mp hj] at h
    obtain ⟨hk, rfl⟩ := hi slot h
    exact hsym hk
  functions := .nothing rfl
  modules := hq

theorem Uses.constants (hs : InSight S low c.table) (ht : c'.table = c.table) (hq : c'.ModulesHave Silent)
    (his : ∀ i ∈ is, i.globalSlot? = none)
    (hf : c.Gives c' fun code => ∀ slot, Touches code slot → MayUse S low c.table slot) :
    Uses S low c c' is where
  widens := ht ▸ .refl _
  sight := ht ▸ hs
  ops i hi slot h := by
    rw [his i hi] at h
    cases h
  functions := by
    rw [ht]
    exact hf
  modules := hq

theorem Uses.drop (h : Uses S low c c' is) : Uses S low c c' [] := { h with ops := fun _ hi => by cases hi }

theorem Uses.seq (h : Uses S low c c1 is) (h' : Uses S low c1 c2 js) (hle : c1.Le c2) :
    Uses S low c c2 (is ++ js) where
  widens := h.widens.trans h'.widens
  sight := h'.sight
  ops i hi slot hslot := by
    rcases mem_append.mp hi with hi | hi
    · exact (h.ops i hi slot hslot).widens h'.widens
    · exact h'.ops i hi slot hslot
  functions := by
    have hfirst := h.functions.imp fun code hcode slot ht => (hcode slot ht).widens h'.widens
    exact hfirst.trans h'.functions hle
  modules := h'.modules

theorem Uses.after (h : Uses S low c1 c2 is) (hw : c.table.Widens c1.table) (hk : c1.constants = c.constants) :
    Uses S low c c2 is where
  widens := hw.trans h.widens
  sight := h.sight
  ops := h.ops
  functions := h.functions.congr hk.symm rfl rfl
  modules := h.modules

theorem Uses.leave (h : Uses S low c1 c2 is) (hs : InSight S low c.table)
    (hw : (c.table.enter block).Widens c1.table) (hk : c1.constants = c.constants) :
    Uses S low c c2.leave is := by
  have hw' := hw.trans h.widens
  have hpeak {slot : Nat} (hu : MayUse S low c2.table slot) : MayUse S low c2.table.leave.2 slot := by
    unfold MayUse at hu ⊢
    rw [(root_leave c2.table).2.1]
    exact hu
  have hfunctions := h.functions.imp fun code hcode slot ht => hpeak (hcode slot ht)
  exact {
    widens := hw'.leave
    sight := hs.leave hw' h.sight
    ops := fun i hi slot hslot => hpeak (h.ops i hi slot hslot)
    functions := hfunctions.congr hk.symm rfl rfl
    modules := h.modules }

/-- **A module uses no global slot**: none is in sight at its start, and none is given away in it. -/
theorem Uses.inModule {builtins : Array Symbol} {code : Bytes} (h : Uses (fun _ => False) 0 c c' f.ops)
    (hc : c.table = (ofBuiltins builtins).enter false) (ha : Assembled (returning exits f) code) :
    Silent code ∧ c.Gives c' Silent := by
  have hpeak : c'.table.root.peak = 0 := by
    have hfunction : c.table.inGlobal = false := by rw [hc]; rfl
    rw [h.widens.outside hfunction, hc]
    exact (ofBuiltins_bare builtins).2.1
  have hnone {slot : Nat} : ¬MayUse (fun _ => False) 0 c'.table slot := by
    rintro (hf | ⟨-, hlt⟩)
    · exact hf
    · rw [hpeak] at hlt
      exact Nat.not_lt_zero _ hlt
  refine ⟨fun slot ht => ?_, h.functions.imp fun code hcode slot ht => hnone (hcode slot ht)⟩
  obtain ⟨i, hi, hslot⟩ := ha.touches ht
  rcases ops_returning hi with hi | rfl
  · exact hnone (h.ops i hi slot hslot)
  · cases hslot

/-- **Compiled code uses the global slots in sight and those that it is given.** -/
theorem Builds.uses (h : Builds M held σ c f exits τ c') (hs : InSight S low c.table)
    (hheld : ∀ sym ∈ held, sym.kind = .globalVar → MayUse S low c.table sym.index) (hq : c.ModulesHave Silent) :
    Uses S low c c' f.ops := by
  -- on the rules; what is in sight is general, for the body of a function sees other slots than the code around it
  induction h generalizing S low with
  | nil | exit => exact .silent hs hq fun i hi => by cases hi
  | plain h => exact .silent hs hq fun i hi => mem_singleton.mp hi ▸ globalSlot?_of_isPlain h
  | ret => exact .silent hs hq fun i hi => mem_singleton.mp hi ▸ rfl
  | literal h =>
    refine .constants hs rfl hq (fun i hi => mem_singleton.mp hi ▸ rfl) (.withConstant fun r hr => ?_)
    rw [hr] at h
    cases h
  | @attributes held σ c name d h =>
    have hq' : (c.withFrozenMap d).ModulesHave Silent := hq.le (c.le_withFrozenMap d) rfl
    have hmap : Uses S low (c.withFrozenMap d) ((c.withFrozenMap d).withConstant (c.heap.newMap .frozen d).1)
        [⟨.constant, [c.constants.size]⟩] :=
      .constants hs rfl hq' (fun i hi => mem_singleton.mp hi ▸ rfl) (.withConstant fun r hr => by cases hr)
    exact hmap.after (.refl _) rfl
  | load h => exact .symbol hs hq (fun slot hslot => globalSlot?_loadOp hslot) (hheld _ h)
  | store h hst => exact .symbol hs hq (fun slot hslot => globalSlot?_storedBy hst hslot) (hheld _ h)
  | resolve hr hf ih =>
    obtain ⟨n, t, hres, rfl⟩ := hr.resolve_eq
    have hw := resolve_widens hres
    obtain ⟨hs', hsym⟩ := hs.resolve hres
    refine (ih hs' (fun sym hmem hk => ?_) hq).after hw rfl
    rcases mem_cons.mp hmem with rfl | hmem
    · exact hsym hk
    · exact (hheld sym hmem hk).widens hw
  | @define held σ τ c c2 name f exits hf ih =>
    have hw := c.table.define_widens name
    obtain ⟨hs', hsym⟩ := hs.define name
    refine (ih hs' (fun sym hmem hk => ?_) hq).after hw rfl
    rcases mem_cons.mp hmem with rfl | hmem
    · exact hsym hk
    · exact (hheld sym hmem hk).widens hw
  | seq hf hg ihf ihg =>
    have huf := ihf hs hheld hq
    have hug := ihg huf.sight (fun sym hmem hk => (hheld sym hmem hk).widens huf.widens) huf.modules
    exact huf.seq hug hg.le
  | forget hf ih => exact ih hs hheld hq
  | block hf ih => exact (ih (hs.enter true) hheld hq).leave hs (.refl _) rfl
  | skip _ hf ih => exact ih hs hheld hq
  | fork _ hy hn ihy ihn =>
    have huy := ihy hs hheld hq
    have hun := ihn huy.sight (fun sym hmem hk => (hheld sym hmem hk).widens huy.widens) huy.modules
    exact huy.seq hun hn.le
  | @loop held c c1 c2 c3 tested exits test body post _ hb hp iht ihb ihp =>
    have htest : Uses S low c c1 (if tested then test.ops else []) := by
      cases tested with
      | true => exact iht hs hheld hq
      | false => exact (iht hs hheld hq).drop
    have hbody := ihb htest.sight (fun sym hmem hk => (hheld sym hmem hk).widens htest.widens) htest.modules
    have hround := htest.seq hbody hb.le
    have hpost := ihp hround.sight (fun sym hmem hk => (hheld sym hmem hk).widens hround.widens) hround.modules
    cases hback : !exits || body.leaves .next with
    | true => exact hround.seq hpost hp.le
    | false => exact hround.seq hpost.drop hp.le
  | @function held σ c c1 params variadic self f exits scope hf ha ih =>
    obtain ⟨hs1, hw1⟩ := (hs.enter false).withParams params
    obtain ⟨hs2, hw2⟩ := hs1.withSelf self
    have hbody : Uses S low (c.inLiteral params self) c1 f.ops :=
      ih (hs2.enter true) (fun _ hmem => by cases hmem) hq
    have hinner : Uses S low { c with table := withSelf (withParams (c.table.enter false) params) self }
        c1.leave f.ops := hbody.leave hs2 (.refl _) rfl
    have houter : Uses S low c c1.leave.leave f.ops := hinner.leave hs (hw1.trans hw2) rfl
    have hcode (slot : Nat) (ht : Touches scope.code slot) : MayUse S low c1.leave.leave.table slot := by
      obtain ⟨i, hi, hslot⟩ := ha.touches ht
      rcases ops_returning hi with hi | rfl
      · exact houter.ops i hi slot hslot
      · cases hslot
    have hmade : Uses S low c1.leave.leave (c1.afterLiteral params variadic scope)
        (functionCode c1.constants.size c1.leave.table.leave.1.captures).ops :=
      .constants houter.sight rfl (houter.modules.le (Context.le_withRoutine ..) rfl)
        (fun i hi => ops_functionCode hi) (.withRoutine hcode)
    exact houter.drop.seq hmade (Context.le_withRoutine ..)
  | @imported held σ c name r h =>
    refine .constants hs rfl hq (fun i hi => ops_moduleCall hi) (.withConstant fun r' hr => ?_)
    cases hr
    obtain ⟨hlt, hsilent⟩ := hq name r h
    exact ⟨hlt, fun slot ht => absurd ht (hsilent slot)⟩
  | @module held σ c c1 name f exits scope modules hf ha hm ih =>
    have hbody : Uses (fun _ => False) 0 c.enterModule c1 f.ops :=
      ih (inSight_module _) (fun _ hmem => by cases hmem) hq
    obtain ⟨hcode, hgiven⟩ := hbody.inModule rfl ha
    have hmodules : (c1.afterModule c.table scope modules).ModulesHave Silent := hbody.modules.afterModule hcode hm
    have hle : c1.Le (c1.withHeapRoutine (c1.moduleRoutine scope)) := c1.le_withHeapRoutine _
    have hnothing : c1.Gives (c1.withHeapRoutine (c1.moduleRoutine scope))
        fun code => ∀ slot, Touches code slot → MayUse S low c.table slot := .nothing rfl
    have hinside : Uses S low c (c1.afterModule c.table scope modules) [] := by
      refine .constants hs rfl hmodules (fun _ hi => by cases hi) ?_
      have hsilent : c.enterModule.Gives c1 fun code => ∀ slot, Touches code slot → MayUse S low c.table slot :=
        hgiven.imp fun code hcode slot ht => (hcode slot ht).elim
      exact (hsilent.trans hnothing hle).congr rfl rfl rfl
    refine hinside.seq (.constants hs rfl hmodules (fun i hi => ops_moduleCall hi) (.withConstant ?_))
      (Context.le_withConstant ..)
    intro r hr
    cases hr
    refine ⟨c1.lt_withHeapRoutine _, ?_⟩
    show ∀ slot, Touches ((c1.withHeapRoutine (c1.moduleRoutine scope)).heap.routineAt _).code slot → _
    rw [Context.routineAt_withHeapRoutine]
    intro slot ht
    exact absurd ht (hcode slot)

theorem Builds.widens (h : Builds M held σ c f exits τ c') (hq : c.ModulesHave Silent) : c.table.Widens c'.table := by
  have hall {t : SymbolTable} {slot : Nat} : MayUse (fun _ => True) 0 t slot := .inl trivial
  have huses : Uses (fun _ => True) 0 c c' f.ops :=
    h.uses ⟨fun _ _ _ => hall, fun _ => Nat.zero_le _⟩ (fun _ _ _ => hall) hq
  exact huses.widens

end

end Generator

end Scripting
