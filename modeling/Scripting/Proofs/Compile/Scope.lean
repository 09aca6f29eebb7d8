import Mathlib.Data.List.Forall2
import Scripting.SymbolTable
/-!
# `Proofs.Compile.Scope` — symbols that refer to something

Every symbol of a valid table can be used where the table is: local slots lie below the bound that the
function at hand reserves, captured variables are among its captures, built-ins exist. What a function
captures can be captured where the function is made. Defining and resolving names keep a table valid and
only raise the bounds (`SymbolTable.Le`), so code that was fine when it was written stays fine.
-/

namespace Scripting

open List

variable {b b' : Bounds} {sym : Symbol} {ss ss' : List Scope} {t t' t'' : SymbolTable} {root root' : Scope}
  {name : String} {n : Nat}

/-- What the function at hand has: a bound on its slots, and a number of captured variables. -/
structure Bounds where
  locals : Nat
  free : Nat

structure Bounds.Le (b b' : Bounds) : Prop where
  locals : b.locals ≤ b'.locals
  free : b.free ≤ b'.free

/-- Does a symbol refer to something in a function with these bounds? -/
def Symbol.Valid (b : Bounds) (sym : Symbol) : Prop :=
  match sym.kind with
  | .globalVar | .self => True
  | .localVar => sym.index < b.locals
  | .captured => sym.index < b.free
  | .builtin => (Builtin.ofIndex? sym.index).isSome

theorem Symbol.Valid.local_lt (h : sym.Valid b) (hk : sym.kind = .localVar) : sym.index < b.locals := by
  simpa only [Valid, hk] using h

theorem Symbol.Valid.captured_lt (h : sym.Valid b) (hk : sym.kind = .captured) : sym.index < b.free := by
  simpa only [Valid, hk] using h

theorem Symbol.Valid.builtin_isSome (h : sym.Valid b) (hk : sym.kind = .builtin) :
    (Builtin.ofIndex? sym.index).isSome := by
  simpa only [Valid, hk] using h

theorem Symbol.Valid.mono (hle : b.Le b') (h : sym.Valid b) : sym.Valid b' := by
  unfold Valid at h ⊢
  have hl := hle.locals
  have hf := hle.free
  split at h <;> first | exact h | omega

theorem Symbol.Valid.of_isEverywhere (he : sym.isEverywhere) (h : sym.Valid b) : sym.Valid b' := by
  unfold Valid at h ⊢
  cases hk : sym.kind <;> simp_all [isEverywhere]

structure Scope.Le (s s' : Scope) : Prop where
  block : s'.block = s.block
  peak : s.peak ≤ s'.peak
  captures : s.captures.size ≤ s'.captures.size

theorem Scope.Le.refl (s : Scope) : s.Le s := ⟨rfl, Nat.le_refl _, Nat.le_refl _⟩

theorem Scope.Le.trans {s s' s'' : Scope} (h : s.Le s') (h' : s'.Le s'') : s.Le s'' :=
  ⟨h'.block.trans h.block, Nat.le_trans h.peak h'.peak, Nat.le_trans h.captures h'.captures⟩

abbrev ScopesLe (ss ss' : List Scope) : Prop := Forall₂ Scope.Le ss ss'

theorem ScopesLe.refl (ss : List Scope) : ScopesLe ss ss := forall₂_same.mpr fun s _ => Scope.Le.refl s

theorem ScopesLe.trans {ss'' : List Scope} (h : ScopesLe ss ss') (h' : ScopesLe ss' ss'') : ScopesLe ss ss'' := by
  induction h generalizing ss'' with
  | nil => exact h'
  | cons hs _ ih =>
    cases h' with
    | cons hs' h' => exact .cons (hs.trans hs') (ih h')

namespace SymbolTable

/-- The bounds of the function that the innermost of some scopes belongs to. Outside every function
there are no local variables. -/
def boundsIn : List Scope → Bounds
  | [] => ⟨0, 0⟩
  | s :: rest => if s.block then boundsIn rest else ⟨s.peak, s.captures.size⟩

theorem boundsIn_mono (h : ScopesLe ss ss') : (boundsIn ss).Le (boundsIn ss') := by
  induction h with
  | nil => exact ⟨Nat.le_refl _, Nat.le_refl _⟩
  | cons hs _ ih =>
    simp only [boundsIn, hs.block]
    split
    · exact ih
    · exact ⟨hs.peak, hs.captures⟩

def NamesValid (b : Bounds) (names : Dict Symbol) : Prop := ∀ name sym, names.get? name = some sym → sym.Valid b

/-- A symbol that a scope inside others captures: it can be captured there, and if there are none, it is
one of the root. -/
structure Capturable (root : Scope) (ss : List Scope) (sym : Symbol) : Prop where
  valid : sym.Valid (boundsIn ss)
  notEverywhere : sym.isEverywhere = false
  ofRoot : ss = [] → ∃ name, root.names.get? name = some sym

def ScopesValid (root : Scope) : List Scope → Prop
  | [] => NamesValid ⟨0, 0⟩ root.names
  | s :: rest => NamesValid (boundsIn (s :: rest)) s.names ∧
    (∀ sym ∈ s.captures, Capturable root rest sym) ∧ ScopesValid root rest

/-- **All symbols of the table refer to something.** -/
structure Valid (t : SymbolTable) : Prop where
  scopes : ScopesValid t.root t.inner
  builtins : ∀ sym ∈ t.builtins, (Builtin.ofIndex? sym.index).isSome

/-- A table that has grown: the same scopes are open, and names are added to the root only while it is
the innermost one. -/
structure Le (t t' : SymbolTable) : Prop where
  inner : ScopesLe t.inner t'.inner
  builtins : t'.builtins = t.builtins
  root : t.inner ≠ [] → t'.root.names = t.root.names

theorem Le.refl (t : SymbolTable) : t.Le t := ⟨ScopesLe.refl _, rfl, fun _ => rfl⟩

theorem Le.trans (h : t.Le t') (h' : t'.Le t'') : t.Le t'' := by
  refine ⟨h.inner.trans h'.inner, h'.builtins.trans h.builtins, fun hne => ?_⟩
  have hne' : t'.inner ≠ [] := by
    intro hnil
    have hin := h.inner
    rw [hnil] at hin
    exact hne (forall₂_nil_right_iff.mp hin)
  exact (h'.root hne').trans (h.root hne)

def bounds (t : SymbolTable) : Bounds := boundsIn t.inner

theorem NamesValid.mono (hle : b.Le b') {names : Dict Symbol} (h : NamesValid b names) :
    NamesValid b' names := fun name sym hs => (h name sym hs).mono hle

theorem NamesValid.insert {names : Dict Symbol} (h : NamesValid b names) (hs : sym.Valid b) (name : String) :
    NamesValid b (names.insert name sym) := by
  intro k sym' hk
  rw [Dict.get?_insert] at hk
  split at hk
  · cases hk
    exact hs
  · exact h k sym' hk

theorem Capturable.mono (hle : ScopesLe ss ss') (h : Capturable root ss sym) : Capturable root ss' sym := by
  refine ⟨h.valid.mono (boundsIn_mono hle), h.notEverywhere, ?_⟩
  rintro rfl
  exact h.ofRoot (forall₂_nil_right_iff.mp hle)

/-! ## Resolving -/

/-- **How a name is resolved**: in the root, in the scope at hand, or outside of it. In the last case a function
captures what is found, unless that can be seen from everywhere. -/
inductive Resolves (name : String) (root : Scope) : List Scope → Symbol → List Scope → Prop
  | root {sym : Symbol} (get : root.names.get? name = some sym) : Resolves name root [] sym []
  | here {s rest} {sym : Symbol} (get : s.names.get? name = some sym) : Resolves name root (s :: rest) sym (s :: rest)
  | pass {s rest rest'} {sym : Symbol} (get : s.names.get? name = none)
    (outside : Resolves name root rest sym rest') (cross : (s.block || sym.isEverywhere) = true) :
    Resolves name root (s :: rest) sym (s :: rest')
  | capture {s rest rest'} {sym : Symbol} (get : s.names.get? name = none)
    (outside : Resolves name root rest sym rest') (block : s.block = false) (cross : sym.isEverywhere = false) :
    Resolves name root (s :: rest) (s.capture sym).1 ((s.capture sym).2 :: rest')

theorem resolves (h : resolveIn name root ss = some (sym, n, ss')) : Resolves name root ss sym ss' := by
  induction ss generalizing sym n ss' with
  | nil =>
    simp only [resolveIn, Option.map_eq_some_iff] at h
    obtain ⟨_, hget, heq⟩ := h
    cases heq
    exact .root hget
  | cons s rest ih =>
    unfold resolveIn at h
    cases hget : s.names.get? name with
    | some found =>
      simp only [hget] at h
      cases h
      exact .here hget
    | none =>
      simp only [hget, Option.map_eq_some_iff] at h
      obtain ⟨⟨found, crossed, rest'⟩, hin, heq⟩ := h
      cases hcross : s.block || found.isEverywhere with
      | true =>
        simp only [hcross] at heq
        cases heq
        exact .pass hget (ih hin) hcross
      | false =>
        simp only [hcross] at heq
        cases heq
        obtain ⟨hb, he⟩ := Bool.or_eq_false_iff.mp hcross
        exact .capture hget (ih hin) hb he

/-- **A name is resolved to a valid symbol**, after the captures that this takes. -/
theorem Resolves.valid (hv : ScopesValid root ss) (h : Resolves name root ss sym ss') :
    ScopesValid root ss' ∧ ScopesLe ss ss' ∧ sym.Valid (boundsIn ss') ∧
      (ss' = [] → ∃ name, root.names.get? name = some sym) := by
  induction h with
  | root hget => exact ⟨hv, .nil, hv _ _ hget, fun _ => ⟨name, hget⟩⟩
  | here hget => exact ⟨hv, ScopesLe.refl _, hv.1 _ _ hget, nofun⟩
  | @pass s rest rest' sym hget _ hcross ih =>
    obtain ⟨hnames, hcaptures, hrest⟩ := hv
    obtain ⟨hvalid, hle, hsym, -⟩ := ih hrest
    have hle' : ScopesLe (s :: rest) (s :: rest') := .cons (Scope.Le.refl s) hle
    refine ⟨⟨hnames.mono (boundsIn_mono hle'), fun sym hs => (hcaptures sym hs).mono hle, hvalid⟩, hle', ?_, nofun⟩
    cases hb : s.block with
    | true => simpa [boundsIn, hb] using hsym
    | false =>
      rw [hb] at hcross
      exact hsym.of_isEverywhere hcross
  | @capture s rest rest' sym hget _ hb hne ih =>
    obtain ⟨hnames, hcaptures, hrest⟩ := hv
    obtain ⟨hvalid, hle, hsym, hroot⟩ := ih hrest
    have hle' : ScopesLe (s :: rest) ((s.capture sym).2 :: rest') :=
      .cons ⟨rfl, Nat.le_refl _, by simp [Scope.capture]⟩ hle
    have hinside : (s.capture sym).1.Valid (boundsIn ((s.capture sym).2 :: rest')) := by
      simp [boundsIn, Scope.capture, hb, Symbol.Valid]
    refine ⟨⟨?_, ?_, hvalid⟩, hle', hinside, nofun⟩
    · exact (hnames.mono (boundsIn_mono hle')).insert hinside _
    · intro sym hs
      rcases Array.mem_push.mp hs with hs | rfl
      · exact (hcaptures sym hs).mono hle
      · exact ⟨hsym, hne, hroot⟩

theorem resolve_valid (hv : t.Valid) (h : t.resolve name = some (sym, n, t')) :
    t'.Valid ∧ t.Le t' ∧ sym.Valid t'.bounds := by
  simp only [resolve, Option.map_eq_some_iff] at h
  obtain ⟨⟨sym', crossed, inner⟩, hin, heq⟩ := h
  cases heq
  obtain ⟨hvalid, hle, hsym, -⟩ := (resolves hin).valid hv.scopes
  exact ⟨⟨hvalid, hv.builtins⟩, ⟨hle, rfl, fun _ => rfl⟩, hsym⟩

/-! ## Defining -/

theorem names_raiseIn : ∀ ss : List Scope, (raiseIn n root ss).2.names = root.names
  | [] => rfl
  | s :: rest => by
    unfold raiseIn
    split
    · exact names_raiseIn rest
    · rfl

theorem Capturable.congr_root (h : root'.names = root.names) (hs : Capturable root ss sym) :
    Capturable root' ss sym :=
  ⟨hs.valid, hs.notEverywhere, fun hnil => h ▸ hs.ofRoot hnil⟩

theorem ScopesValid.congr_root (h : root'.names = root.names) :
    ∀ {ss : List Scope}, ScopesValid root ss → ScopesValid root' ss
  | [], hv => fun name sym hget => hv name sym (h ▸ hget)
  | _ :: _, ⟨hnames, hcaptures, hrest⟩ =>
    ⟨hnames, fun sym hs => (hcaptures sym hs).congr_root h, hrest.congr_root h⟩

theorem raiseIn_valid : ∀ {ss : List Scope}, ScopesValid root ss →
    ScopesValid (raiseIn n root ss).2 (raiseIn n root ss).1 ∧ ScopesLe ss (raiseIn n root ss).1
  | [], hv => ⟨hv, .nil⟩
  | s :: rest, hv => by
    obtain ⟨hnames, hcaptures, hrest⟩ := hv
    have hs : s.Le (s.raise n) := ⟨rfl, Nat.le_max_left .., Nat.le_refl _⟩
    unfold raiseIn
    split
    · obtain ⟨hvalid, hle⟩ := raiseIn_valid hrest
      have hle' := Forall₂.cons hs hle
      refine ⟨⟨hnames.mono (boundsIn_mono hle'), fun sym hm => ?_, hvalid⟩, hle'⟩
      exact ((hcaptures sym hm).mono hle).congr_root (names_raiseIn rest)
    · have hle' : ScopesLe (s :: rest) (s.raise n :: rest) := .cons hs (ScopesLe.refl rest)
      exact ⟨⟨hnames.mono (boundsIn_mono hle'), hcaptures, hrest⟩, hle'⟩

theorem raise_valid (hv : t.Valid) : (t.raise n).Valid ∧ t.Le (t.raise n) :=
  ⟨⟨(raiseIn_valid hv.scopes).1, hv.builtins⟩, ⟨(raiseIn_valid hv.scopes).2, rfl, fun _ => names_raiseIn t.inner⟩⟩

/-- Inside a function, the bound that has been raised holds. -/
theorem le_boundsIn_raiseIn : ∀ {ss : List Scope}, ss.all (·.block) = false →
    n ≤ (boundsIn (raiseIn n root ss).1).locals
  | [], h => by cases h
  | s :: rest, h => by
    unfold raiseIn
    cases hb : s.block with
    | true =>
      rw [all_cons, hb] at h
      simpa [boundsIn, Scope.raise, hb] using le_boundsIn_raiseIn h
    | false =>
      simp only [Scope.raise, hb]
      exact Nat.le_max_right ..

/-- The innermost scope with a new name, which may take a slot. -/
def bindTop (t : SymbolTable) (sym : Symbol) (slots : Nat) : SymbolTable :=
  t.modifyTop fun s => { s.bind sym with defined := s.defined + slots }

theorem bindTop_valid (hv : t.Valid) (hs : sym.Valid t.bounds) (slots : Nat) :
    (t.bindTop sym slots).Valid ∧ t.Le (t.bindTop sym slots) := by
  obtain ⟨inner, root, builtins⟩ := t
  obtain ⟨hscopes, hbuiltins⟩ := hv
  cases inner with
  | nil => exact ⟨⟨NamesValid.insert hscopes hs _, hbuiltins⟩, .nil, rfl, fun hne => absurd rfl hne⟩
  | cons s rest =>
    obtain ⟨hnames, hcaptures, hrest⟩ := hscopes
    exact ⟨⟨⟨hnames.insert hs _, hcaptures, hrest⟩, hbuiltins⟩,
      .cons ⟨rfl, Nat.le_refl _, Nat.le_refl _⟩ (ScopesLe.refl rest), rfl, fun _ => rfl⟩

theorem bounds_bindTop {slots : Nat} : (t.bindTop sym slots).bounds = t.bounds := by
  obtain ⟨inner, root, builtins⟩ := t
  cases inner <;> rfl

/-- It does not matter whether a slot is reserved before or after it is taken. -/
theorem raise_bindTop (t : SymbolTable) (sym : Symbol) (slots n : Nat) :
    (t.bindTop sym slots).raise n = (t.raise n).bindTop sym slots := by
  obtain ⟨inner, root, builtins⟩ := t
  cases inner with
  | nil => rfl
  | cons s rest =>
    cases hb : s.block <;> simp [bindTop, modifyTop, raise, raiseIn, hb, Scope.bind, Scope.raise]

/-- **A new variable is valid.** -/
theorem define_valid (hv : t.Valid) (name : String) :
    (t.define name).2.Valid ∧ t.Le (t.define name).2 ∧ (t.define name).1.Valid (t.define name).2.bounds ∧
      ((t.define name).1.kind = .globalVar ∨ (t.define name).1.kind = .localVar) := by
  have heq : (t.define name).2 = (t.raise ((t.define name).1.index + 1)).bindTop (t.define name).1 1 := by
    rw [← raise_bindTop]
    rfl
  obtain ⟨hraised, hle⟩ := raise_valid hv
  have hsym : (t.define name).1.Valid (t.raise ((t.define name).1.index + 1)).bounds := by
    cases hg : t.inGlobal with
    | true => simp [define, Symbol.Valid, hg]
    | false =>
      have hlt : (t.define name).1.index + 1 ≤ (t.raise ((t.define name).1.index + 1)).bounds.locals :=
        le_boundsIn_raiseIn hg
      have hkind : (t.define name).1.kind = .localVar := by simp [define, hg]
      rw [Symbol.Valid, hkind]
      exact hlt
  obtain ⟨hvalid, hle'⟩ := bindTop_valid hraised hsym 1
  rw [heq]
  refine ⟨hvalid, hle.trans hle', by rw [bounds_bindTop]; exact hsym, ?_⟩
  cases hg : t.inGlobal <;> simp [define, hg]

theorem defineFunction_valid (hv : t.Valid) (name : String) :
    (t.defineFunction name).2.Valid ∧ t.Le (t.defineFunction name).2 := by
  have hself : (⟨name, .self, 0⟩ : Symbol).Valid t.bounds := trivial
  exact bindTop_valid hv hself 0

/-! ## Opening and closing scopes -/

theorem namesValid_empty : NamesValid b .empty := by
  intro name sym h
  cases h

theorem enter_valid (hv : t.Valid) (block : Bool) : (t.enter block).Valid :=
  ⟨⟨namesValid_empty, by simp, hv.scopes⟩, hv.builtins⟩

/-- **Closing a scope that was opened here.** What a function captured can be captured where the function
is made. -/
theorem leave_valid {block : Bool} (hv : t'.Valid) (hle : (t.enter block).Le t') :
    t'.leave.2.Valid ∧ t.Le t'.leave.2 ∧
      ∀ sym ∈ t'.leave.1.captures, Capturable t'.root t'.leave.2.inner sym := by
  obtain ⟨inner, root, builtins⟩ := t'
  obtain ⟨hinner, hbuiltins, hroot⟩ := hle
  obtain ⟨hscopes, hb⟩ := hv
  cases hinner with
  | @cons _ s _ rest hs hrest =>
    obtain ⟨hnames, hcaptures, hvalid⟩ := hscopes
    have hnames : (leave ⟨s :: rest, root, builtins⟩).2.root.names = root.names := by
      simp only [leave]
      split <;> rfl
    refine ⟨⟨hvalid.congr_root hnames, hb⟩, ⟨hrest, hbuiltins, fun _ => ?_⟩, ?_⟩
    · exact hnames.trans (hroot (cons_ne_nil _ _))
    · intro sym hsym
      exact hcaptures sym (by simpa [leave] using hsym)

/-- A block has the bounds of its function. -/
theorem bounds_leave (hle : (t.enter true).Le t') : t'.leave.2.bounds = t'.bounds := by
  obtain ⟨inner, root, builtins⟩ := t'
  obtain ⟨hinner, -⟩ := hle
  cases hinner with
  | @cons _ s _ rest hs _ => simp [leave, bounds, boundsIn, hs.block]

theorem leave_function (hle : (t.enter false).Le t') :
    t'.bounds = ⟨t'.leave.1.locals, t'.leave.1.captures.length⟩ := by
  obtain ⟨inner, root, builtins⟩ := t'
  obtain ⟨hinner, -⟩ := hle
  cases hinner with
  | @cons _ s _ rest hs _ => simp [leave, bounds, boundsIn, hs.block]

/-- Nothing is captured from a root in which every name is visible everywhere. -/
theorem captures_eq_nil (hv : t'.Valid) (hle : (t.enter false).Le t') (hinner : t.inner = [])
    (hroot : ∀ name sym, t.root.names.get? name = some sym → sym.isEverywhere = true) :
    t'.leave.1.captures = [] := by
  obtain ⟨hvalid, hle', hcaptures⟩ := leave_valid hv hle
  have hnil : t'.leave.2.inner = [] := by
    have hin := hle'.inner
    rw [hinner] at hin
    exact forall₂_nil_left_iff.mp hin
  refine eq_nil_iff_forall_not_mem.mpr fun sym hs => ?_
  have hcap := hcaptures sym hs
  obtain ⟨name, hget⟩ := hcap.ofRoot hnil
  rw [hle.root (cons_ne_nil _ _)] at hget
  have := hroot name sym hget
  rw [hcap.notEverywhere] at this
  cases this

/-! ## Tables to start with -/

/-- **A table with only its root open and with built-ins that exist.** Every name of the root stands for
a global variable, a built-in, or the function at hand. -/
structure Standard (t : SymbolTable) : Prop where
  inner : t.inner = []
  names : ∀ name sym, t.root.names.get? name = some sym →
    sym.kind = .globalVar ∨ sym.kind = .self ∨ sym.kind = .builtin ∧ (Builtin.ofIndex? sym.index).isSome
  builtins : ∀ sym ∈ t.builtins, (Builtin.ofIndex? sym.index).isSome

theorem Standard.valid (h : t.Standard) : t.Valid := by
  refine ⟨?_, h.builtins⟩
  rw [h.inner]
  intro name sym hget
  rcases h.names name sym hget with hk | hk | ⟨hk, hi⟩
  · simp [Symbol.Valid, hk]
  · simp [Symbol.Valid, hk]
  · simp [Symbol.Valid, hk, hi]

theorem Standard.empty : ({} : SymbolTable).Standard := by
  refine ⟨rfl, fun name sym h => ?_, by simp⟩
  cases h

theorem Standard.defineBuiltin {index : Nat} (h : t.Standard) (name : String)
    (hi : (Builtin.ofIndex? index).isSome) :
    (t.defineBuiltin index name).2.Standard where
  inner := h.inner
  names := by
    intro k sym hk
    simp only [SymbolTable.defineBuiltin, Scope.bind, Dict.get?_insert] at hk
    split at hk
    · cases hk
      exact .inr (.inr ⟨rfl, hi⟩)
    · exact h.names k sym hk
  builtins := by
    intro sym hs
    rcases Array.mem_push.mp hs with hs | rfl
    · exact h.builtins sym hs
    · exact hi

theorem withBuiltins_standard : withBuiltins.Standard := by
  have hall : ∀ (bs : List Builtin) (t : SymbolTable), t.Standard →
      (bs.foldl (fun t b => (t.defineBuiltin b.index b.name).2) t).Standard := by
    intro bs
    induction bs with
    | nil => exact fun t h => h
    | cons b bs ih => exact fun t h => ih _ (h.defineBuiltin b.name (by simp))
  exact hall _ _ Standard.empty

theorem ofBuiltins_standard {builtins : Array Symbol}
    (h : ∀ sym ∈ builtins, (Builtin.ofIndex? sym.index).isSome) : (ofBuiltins builtins).Standard := by
  have hall : ∀ (syms : List Symbol) (t : SymbolTable), t.Standard →
      (∀ sym ∈ syms, (Builtin.ofIndex? sym.index).isSome) →
      (syms.foldl (fun t sym => (t.defineBuiltin sym.index sym.name).2) t).Standard := by
    intro syms
    induction syms with
    | nil => exact fun t h _ => h
    | cons sym syms ih =>
      intro t ht hs
      exact ih _ (ht.defineBuiltin sym.name (hs sym (by simp))) fun s hm => hs s (by simp [hm])
  unfold ofBuiltins
  rw [← Array.foldl_toList]
  exact hall _ _ Standard.empty fun sym hs => h sym (by simpa using hs)

theorem ofBuiltins_everywhere (builtins : Array Symbol) (name : String) (sym : Symbol)
    (h : (ofBuiltins builtins).root.names.get? name = some sym) : sym.isEverywhere = true := by
  have hall : ∀ (syms : List Symbol) (t : SymbolTable),
      (∀ name sym, t.root.names.get? name = some sym → sym.isEverywhere = true) →
      ∀ name sym, (syms.foldl (fun t sym => (t.defineBuiltin sym.index sym.name).2) t).root.names.get? name =
        some sym → sym.isEverywhere = true := by
    intro syms
    induction syms with
    | nil => exact fun t h => h
    | cons s syms ih =>
      intro t ht
      refine ih _ fun name sym hget => ?_
      simp only [SymbolTable.defineBuiltin, Scope.bind, Dict.get?_insert] at hget
      split at hget
      · cases hget
        rfl
      · exact ht name sym hget
  unfold ofBuiltins at h
  rw [← Array.foldl_toList] at h
  exact hall _ _ (fun _ _ h => by cases h) name sym h

end SymbolTable

end Scripting
