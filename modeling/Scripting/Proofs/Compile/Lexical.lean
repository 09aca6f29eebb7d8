import Scripting.Proofs.Compile.Scope
/-!
# `Proofs.Compile.Lexical` — names mean their innermost definition

A table answers a look-up with a symbol *as seen from the innermost scope*: a variable of an enclosing
function shows up as a captured variable, and each function on the way remembers what it captured. One
look-up may change several scopes at once, and later look-ups find the names that it left behind.

The meaning of a name does not depend on any of this. A *lexicon* records only what each open scope
defines itself; looking a name up in it gives the place of the innermost definition: a global slot, a slot
of a function, a built-in, or the mark of a function for itself (`Lexicon.meaning?`). On the other side, a
symbol of the table is *followed* through the captures, one function outwards at a time
(`SymbolTable.follow`).

One invariant, `Mirrors`, ties each scope to what it defines. Looking a name up keeps it and ends at the
meaning of the name (`Resolves.looksUp`); defining a name keeps it too (`Depicts.bind`). That all
sequences of table operations keep it is the subject of `Proofs.Compile.Session`.
-/

namespace Scripting

open List Option

variable {sym : Symbol} {f i function g : Nat} {p : Place} {name : String} {root s s' : Scope}
  {ls outer : List Layer} {l : Layer} {ss ss' rest rest' : List Scope}

/-! ## Places -/

/-- Where a value is kept, said without captures. A function is named by the number of functions that
are open when it is, itself included. -/
inductive Place
  | global (slot : Nat)
  | builtin (index : Nat)
  | slot (function slot : Nat)
  /-- The function itself. -/
  | self (function : Nat)
  deriving DecidableEq, Repr

/-- Does the place belong to one call of a function, so that an inner function has to capture it? -/
def Place.inFunction : Place → Bool
  | global _ | builtin _ => false
  | slot _ _ | self _ => true

/-- The place of a symbol of a function, unless the function captured it. -/
def Symbol.place? (function : Nat) (sym : Symbol) : Option Place :=
  match sym.kind with
  | .globalVar => some (.global sym.index)
  | .builtin => some (.builtin sym.index)
  | .localVar => some (.slot function sym.index)
  | .self => some (.self function)
  | .captured => none

theorem Symbol.place?_isSome (h : sym.kind ≠ .captured) : (sym.place? function).isSome := by
  unfold place?
  cases hk : sym.kind <;> first | rfl | exact absurd hk h

theorem Symbol.place?_of_isEverywhere (h : sym.isEverywhere) (f f' : Nat) : sym.place? f = sym.place? f' := by
  unfold place?
  cases hk : sym.kind <;> simp_all [isEverywhere]

theorem Symbol.inFunction_of_place? (h : sym.isEverywhere = false) (hp : sym.place? f = some p) :
    p.inFunction = true := by
  unfold Symbol.place? at hp
  cases hk : sym.kind <;> simp_all [isEverywhere] <;> subst hp <;> rfl

theorem Symbol.of_place?_eq_slot (h : sym.place? f = some (.slot g i)) :
    sym.kind = .localVar ∧ g = f ∧ i = sym.index := by
  unfold place? at h
  cases hk : sym.kind <;> simp_all

/-! ## The lexicon -/

/-- What an open scope defines itself. -/
structure Layer where
  block : Bool
  own : Dict Symbol := .empty

def Layer.write (l : Layer) (sym : Symbol) : Layer := { l with own := l.own.insert sym.name sym }

theorem Layer.get?_write : (l.write sym).own.get? name = if name = sym.name then some sym else l.own.get? name :=
  Dict.get?_insert ..

/-- What the open scopes define, innermost first, and what the root defines. -/
structure Lexicon where
  inner : List Layer := []
  root : Dict Symbol := .empty

namespace Lexicon

/-- The number of functions among some scopes. -/
def functionsIn (ls : List Layer) : Nat := ls.countP (!·.block)

/-- The place of the innermost definition of a name. -/
def meaningIn (name : String) (root : Dict Symbol) : List Layer → Option Place
  | [] => (root.get? name).bind (·.place? 0)
  | l :: outer =>
    match l.own.get? name with
    | some sym => sym.place? (functionsIn (l :: outer))
    | none => meaningIn name root outer

theorem meaningIn_eq_none {root : Dict Symbol} (h : ∀ l ∈ ls, l.own.get? name = none)
    (hroot : root.get? name = none) : meaningIn name root ls = none := by
  induction ls with
  | nil => rw [meaningIn, hroot]; rfl
  | cons l outer ih =>
    rw [meaningIn, h l (by simp)]
    exact ih fun l' hl' => h l' (by simp [hl'])

/-- **What a name means.** -/
def meaning? (x : Lexicon) (name : String) : Option Place := meaningIn name x.root x.inner

/-- Does an open scope define the name? -/
def Defines (x : Lexicon) (name : String) : Prop := (∃ l ∈ x.inner, l.own.contains name) ∨ x.root.contains name

/-- How many scopes lie inside the innermost one that defines the name. -/
def crossedIn (name : String) (ls : List Layer) : Nat := ls.findIdx (·.own.contains name)

theorem crossedIn_cons (outer : List Layer) (h : l.own.get? name = none) :
    crossedIn name (l :: outer) = crossedIn name outer + 1 := by
  simp [crossedIn, findIdx_cons, Dict.contains, h]

/-- How deep the innermost definition of a name lies. The root has depth 0. -/
def depthOf (x : Lexicon) (name : String) : Nat := x.inner.length - crossedIn name x.inner

def write (x : Lexicon) (sym : Symbol) : Lexicon :=
  match x with
  | { inner := [], root } => { inner := [], root := root.insert sym.name sym }
  | { inner := l :: outer, root } => { inner := l.write sym :: outer, root }

end Lexicon

/-! ## Following captures -/

namespace SymbolTable

def functionsIn (ss : List Scope) : Nat := ss.countP (!·.block)

/-- The place that a symbol, as seen from the innermost of some scopes, leads to: a captured variable
stands for the symbol that its function captured, as seen from the scope around the function. -/
def followIn : List Scope → Symbol → Option Place
  | [], sym => sym.place? 0
  | s :: rest, sym =>
    if sym.kind = .captured then
      if s.block then followIn rest sym else s.captures[sym.index]?.bind (followIn rest)
    else sym.place? (functionsIn (s :: rest))

/-- The place that a symbol leads to. -/
def follow (t : SymbolTable) (sym : Symbol) : Option Place := followIn t.inner sym

theorem followIn_of_ne_captured (h : sym.kind ≠ .captured) (ss : List Scope) :
    followIn ss sym = sym.place? (functionsIn ss) := by
  cases ss with
  | nil => rfl
  | cons s rest => rw [followIn, if_neg h]

theorem followIn_block (hb : s.block = true) (rest : List Scope) (sym : Symbol) :
    followIn (s :: rest) sym = followIn rest sym := by
  by_cases hk : sym.kind = .captured
  · rw [followIn, if_pos hk, if_pos hb]
  · rw [followIn_of_ne_captured hk, followIn_of_ne_captured hk]
    simp [functionsIn, hb]

theorem followIn_captured (hb : s.block = false) (rest : List Scope) (hk : sym.kind = .captured) :
    followIn (s :: rest) sym = s.captures[sym.index]?.bind (followIn rest) := by
  rw [followIn, if_pos hk, if_neg (by simp [hb])]

/-- The captures that a scope has recorded are still the first ones. -/
structure Keeps (s s' : Scope) : Prop where
  block : s'.block = s.block
  captures : s.captures.toList <+: s'.captures.toList

theorem Keeps.getElem? {out : Symbol}
    (h : Keeps s s') (hi : s.captures[i]? = some out) : s'.captures[i]? = some out := by
  rw [← Array.getElem?_toList] at hi ⊢
  obtain ⟨more, hmore⟩ := h.captures
  have hlt : i < s.captures.toList.length := (List.getElem?_eq_some_iff.mp hi).1
  rw [← hmore, getElem?_append_left hlt]
  exact hi

theorem functionsIn_eq_of_keeps (h : Forall₂ Keeps ss ss') : functionsIn ss' = functionsIn ss := by
  induction h with
  | nil => rfl
  | cons hs _ ih =>
    unfold functionsIn at ih ⊢
    rw [countP_cons, countP_cons, hs.block, ih]

/-- **Captures that are added later do not change where a symbol leads.** -/
theorem followIn_of_keeps (h : Forall₂ Keeps ss ss') (hp : followIn ss sym = some p) :
    followIn ss' sym = some p := by
  induction h generalizing sym with
  | nil => exact hp
  | @cons s s' rest rest' hs hrest ih =>
    by_cases hk : sym.kind = .captured
    · cases hb : s.block with
      | true =>
        rw [followIn_block hb] at hp
        rw [followIn_block (hs.block.trans hb)]
        exact ih hp
      | false =>
        rw [followIn_captured hb _ hk, bind_eq_some_iff] at hp
        obtain ⟨out, hout, hp⟩ := hp
        rw [followIn_captured (hs.block.trans hb) _ hk, hs.getElem? hout]
        exact ih hp
    · rw [followIn_of_ne_captured hk] at hp ⊢
      rwa [functionsIn_eq_of_keeps (.cons hs hrest)]

/-! ## The invariant -/

open Lexicon

/-- **A scope and what it defines.** The names of a scope are its definitions and, in a function, what
look-ups have left there; each capture leads to the meaning of its name outside. -/
structure Depicts (root : Scope) (s : Scope) (rest : List Scope) (l : Layer) (outer : List Layer) : Prop where
  block : s.block = l.block
  named : ∀ name sym, s.names.get? name = some sym → sym.name = name
  own : ∀ name sym, l.own.get? name = some sym → s.names.get? name = some sym ∧ sym.kind ≠ .captured
  cached : ∀ name sym, s.names.get? name = some sym → l.own.get? name = none →
    s.block = false ∧ sym.kind = .captured ∧ ∃ out, s.captures[sym.index]? = some out ∧ out.name = name
  blockless : s.block = true → s.captures = #[]
  captures : ∀ out ∈ s.captures, (s.names.get? out.name).isSome ∧
    ∃ p, followIn rest out = some p ∧ meaningIn out.name root.names outer = some p ∧ p.inFunction = true
  once : (s.captures.toList.map (·.name)).Nodup
  /-- The slots of a block come after those of the scope around it. -/
  range : ∀ name sym, l.own.get? name = some sym → sym.kind = .localVar →
    (if s.block then nextSlotIn root rest else 0) ≤ sym.index ∧ sym.index < nextSlotIn root (s :: rest)
  distinct : ∀ name name' sym sym', l.own.get? name = some sym → l.own.get? name' = some sym' →
    sym.kind = .localVar → sym'.kind = .localVar → sym.index = sym'.index → name = name'

theorem Depicts.own_eq_none (h : Depicts root s rest l outer) (hnone : s.names.get? name = none) :
    l.own.get? name = none := by
  cases hget : l.own.get? name with
  | none => rfl
  | some sym =>
    rw [(h.own name sym hget).1] at hnone
    cases hnone

/-- All open scopes inside the root and what they define. -/
inductive Mirrors (root : Scope) : List Scope → List Layer → Prop
  | nil : Mirrors root [] []
  | cons {s : Scope} {rest : List Scope} {l : Layer} {outer : List Layer} :
    Depicts root s rest l outer → Mirrors root rest outer → Mirrors root (s :: rest) (l :: outer)

/-- The names of a root: global variables, built-ins, and the function at hand. -/
def RootNames (names : Dict Symbol) : Prop := ∀ name sym, names.get? name = some sym →
    sym.name = name ∧ sym.kind ≠ .captured ∧ sym.kind ≠ .localVar

theorem RootNames.insert {names : Dict Symbol} (h : RootNames names) (hc : sym.kind ≠ .captured)
    (hl : sym.kind ≠ .localVar) : RootNames (names.insert sym.name sym) := by
  intro name sym' hget
  rw [Dict.get?_insert] at hget
  by_cases heq : name = sym.name
  · rw [if_pos heq] at hget
    cases hget
    exact ⟨heq.symm, hc, hl⟩
  · rw [if_neg heq] at hget
    exact h name sym' hget

theorem Mirrors.functionsIn_eq (h : Mirrors root ss ls) : SymbolTable.functionsIn ss = Lexicon.functionsIn ls := by
  induction h with
  | nil => rfl
  | cons hs _ ih =>
    unfold SymbolTable.functionsIn Lexicon.functionsIn at ih ⊢
    rw [countP_cons, countP_cons, hs.block, ih]

/-- Any scope in the middle reflects what it defines, and so do those around it. -/
theorem Mirrors.split (h : Mirrors root (pre ++ s :: rest) ls) :
    ∃ l outer, Depicts root s rest l outer ∧ Mirrors root rest outer := by
  induction pre generalizing ls with
  | nil =>
    cases h with
    | cons hs hrest => exact ⟨_, _, hs, hrest⟩
  | cons _ pre ih =>
    cases h with
    | cons _ hrest => exact ih hrest

theorem Mirrors.length_eq (h : Mirrors root ss ls) : ss.length = ls.length := by
  induction h with
  | nil => rfl
  | cons _ _ ih => rw [length_cons, length_cons, ih]

/-- A captured variable leads into a function. -/
theorem Mirrors.inFunction_of_captured (h : Mirrors root ss ls) (hk : sym.kind = .captured)
    (hp : followIn ss sym = some p) : p.inFunction = true := by
  induction h with
  | nil => simp [followIn, Symbol.place?, hk] at hp
  | @cons s rest l outer hs hrest ih =>
    cases hb : s.block with
    | true =>
      rw [followIn_block hb] at hp
      exact ih hp
    | false =>
      rw [followIn_captured hb _ hk, bind_eq_some_iff] at hp
      obtain ⟨out, hout, hp⟩ := hp
      obtain ⟨-, q, hq, -, hfun⟩ := hs.captures out (Array.mem_of_getElem? hout)
      rw [hp] at hq
      cases hq
      exact hfun

theorem inFunction_of_isEverywhere (he : sym.isEverywhere) (hp : followIn ss sym = some p) :
    p.inFunction = false := by
  have hk : sym.kind ≠ .captured := by
    intro hk
    simp [Symbol.isEverywhere, hk] at he
  rw [followIn_of_ne_captured hk] at hp
  unfold Symbol.place? at hp
  cases hkind : sym.kind <;> simp_all [Symbol.isEverywhere] <;> subst hp <;> rfl

theorem Mirrors.inFunction (h : Mirrors root ss ls) (he : sym.isEverywhere = false)
    (hp : followIn ss sym = some p) : p.inFunction = true := by
  by_cases hk : sym.kind = .captured
  · exact h.inFunction_of_captured hk hp
  · rw [followIn_of_ne_captured hk] at hp
    exact Symbol.inFunction_of_place? he hp

/-! ## Looking a name up -/

/-- The scopes after a look-up. Apart from captures of functions on the way they are as before. -/
structure Gains (name : String) (s s' : Scope) : Prop where
  block : s'.block = s.block
  defined : s'.defined = s.defined
  captures : s'.captures = s.captures ∨
    s.block = false ∧ ∃ out : Symbol, out.name = name ∧ s'.captures = s.captures.push out

theorem Gains.refl (name : String) (s : Scope) : Gains name s s := ⟨rfl, rfl, .inl rfl⟩

theorem Gains.keeps (h : Gains name s s') : Keeps s s' := by
  refine ⟨h.block, ?_⟩
  rcases h.captures with heq | ⟨-, out, -, heq⟩
  · exact ⟨[], by rw [append_nil, heq]⟩
  · rw [heq, Array.toList_push]
    exact prefix_append ..

theorem nextSlotIn_of_gains (h : Forall₂ (Gains name) ss ss') : nextSlotIn root ss' = nextSlotIn root ss := by
  induction h with
  | nil => rfl
  | cons hs _ ih => simp only [nextSlotIn, hs.block, hs.defined, ih]

/-- A scope whose captures lead on through scopes that have grown. -/
theorem Depicts.outward (h : Depicts root s rest l outer) (hgains : Forall₂ (Gains name) rest rest') :
    Depicts root s rest' l outer := by
  have hnext : nextSlotIn root (s :: rest') = nextSlotIn root (s :: rest) :=
    nextSlotIn_of_gains (.cons (Gains.refl name s) hgains)
  refine { h with captures := ?_, range := ?_ }
  · intro out hout
    obtain ⟨hsome, p, hp, hm, hf⟩ := h.captures out hout
    exact ⟨hsome, p, followIn_of_keeps (hgains.imp fun _ _ => Gains.keeps) hp, hm, hf⟩
  · rw [hnext, nextSlotIn_of_gains hgains]
    exact h.range

/-- A function that captures a symbol under a name it does not have yet. -/
theorem Depicts.capture (h : Depicts root s rest l outer) (hb : s.block = false)
    (hnone : s.names.get? sym.name = none) (hp : followIn rest sym = some p)
    (hm : meaningIn sym.name root.names outer = some p) (hf : p.inFunction = true) :
    Depicts root (s.capture sym).2 rest l outer := by
  have hown : l.own.get? sym.name = none := h.own_eq_none hnone
  have hnames (name : String) : (s.capture sym).2.names.get? name =
      if name = sym.name then some (s.capture sym).1 else s.names.get? name := Dict.get?_insert ..
  have hkeep : Keeps s (s.capture sym).2 := ⟨rfl, by simp [Scope.capture]⟩
  constructor
  case block => exact h.block
  case named =>
    intro name sym' hget
    rw [hnames] at hget
    by_cases heq : name = sym.name
    · rw [if_pos heq] at hget
      cases hget
      exact heq.symm
    · rw [if_neg heq] at hget
      exact h.named name sym' hget
  case own =>
    intro name sym' hget
    have hne : name ≠ sym.name := by
      rintro rfl
      rw [hown] at hget
      cases hget
    rw [hnames, if_neg hne]
    exact h.own name sym' hget
  case cached =>
    intro name sym' hget hown'
    rw [hnames] at hget
    by_cases heq : name = sym.name
    · rw [if_pos heq] at hget
      cases hget
      exact ⟨hb, rfl, sym, by simp [Scope.capture], heq.symm⟩
    · rw [if_neg heq] at hget
      obtain ⟨_, hk, out, hout, hname⟩ := h.cached name sym' hget hown'
      exact ⟨hb, hk, out, hkeep.getElem? hout, hname⟩
  case blockless =>
    intro hblock
    have hblock' : s.block = true := hblock
    rw [hb] at hblock'
    cases hblock'
  case captures =>
    intro out hout
    rw [hnames]
    by_cases heq : out.name = sym.name
    · rcases Array.mem_push.mp hout with hout | rfl
      · -- an earlier capture of the name would have left the name in the scope
        have hsome := (h.captures out hout).1
        rw [heq, hnone] at hsome
        cases hsome
      · exact ⟨by simp, p, hp, hm, hf⟩
    · rw [if_neg heq]
      rcases Array.mem_push.mp hout with hout | rfl
      · exact h.captures out hout
      · exact absurd rfl heq
  case once =>
    have hpush : (s.capture sym).2.captures.toList.map (·.name) =
        s.captures.toList.map (·.name) ++ [sym.name] := by simp [Scope.capture]
    rw [hpush]
    refine nodup_append.mpr ⟨h.once, by simp, ?_⟩
    intro name hname name' hname' heq
    rw [mem_singleton] at hname'
    obtain ⟨out, hout, rfl⟩ := mem_map.mp hname
    have hsome := (h.captures out (by simpa using hout)).1
    rw [heq, hname', hnone] at hsome
    cases hsome
  case range => exact h.range
  case distinct => exact h.distinct

/-- What a look-up gives and leaves behind: a symbol that leads to a place, and scopes that still reflect
what they define. Those from the definition outwards are untouched. -/
structure LooksUp (name : String) (root : Scope) (ls : List Layer) (ss : List Scope) (sym : Symbol)
    (ss' : List Scope) (p : Place) : Prop where
  named : sym.name = name
  leads : followIn ss' sym = some p
  meaning : meaningIn name root.names ls = some p
  mirrors : Mirrors root ss' ls
  gains : Forall₂ (Gains name) ss ss'
  untouched : ss'.drop (crossedIn name ls) = ss.drop (crossedIn name ls)
  everywhere : p.inFunction = false → ss' = ss

/-- The innermost scope has the name: it defines it, or an earlier look-up has left it there. -/
theorem LooksUp.here (hs : Depicts root s rest l outer) (hrest : Mirrors root rest outer)
    (hget : s.names.get? name = some sym) :
    ∃ p, LooksUp name root (l :: outer) (s :: rest) sym (s :: rest) p := by
  have hmirrors : Mirrors root (s :: rest) (l :: outer) := .cons hs hrest
  have hgains : Forall₂ (Gains name) (s :: rest) (s :: rest) :=
    forall₂_same.mpr fun s _ => Gains.refl name s
  have hname := hs.named name sym hget
  cases hown : l.own.get? name with
  | some sym' =>
    obtain ⟨hget', hk⟩ := hs.own name sym' hown
    rw [hget] at hget'
    cases hget'
    obtain ⟨p, hp⟩ := isSome_iff_exists.mp (Symbol.place?_isSome hk)
    refine ⟨p, hname, ?_, ?_, hmirrors, hgains, rfl, fun _ => rfl⟩
    · rw [followIn_of_ne_captured hk, hmirrors.functionsIn_eq, hp]
    · rw [meaningIn, hown]
      exact hp
  | none =>
    obtain ⟨hb, hk, out, hout, hout'⟩ := hs.cached name sym hget hown
    obtain ⟨-, p, hp, hm, -⟩ := hs.captures out (Array.mem_of_getElem? hout)
    rw [hout'] at hm
    refine ⟨p, hname, ?_, ?_, hmirrors, hgains, rfl, fun _ => rfl⟩
    · rw [followIn_captured hb _ hk, hout]
      exact hp
    · rw [meaningIn, hown]
      exact hm

/-- The name is found further out, and the scope passes the symbol on as it is. -/
theorem LooksUp.pass (hs : Depicts root s rest l outer) (hget : s.names.get? name = none)
    (h : LooksUp name root outer rest sym rest' p) (hcross : s.block || sym.isEverywhere) :
    LooksUp name root (l :: outer) (s :: rest) sym (s :: rest') p := by
  have hown := hs.own_eq_none hget
  have hcrossed := crossedIn_cons outer hown
  refine ⟨h.named, ?_, ?_, .cons (hs.outward h.gains) h.mirrors, .cons (Gains.refl name s) h.gains, ?_, ?_⟩
  · cases hb : s.block with
    | true => rw [followIn_block hb, h.leads]
    | false =>
      rw [hb] at hcross
      have hk : sym.kind ≠ .captured := by
        intro hk
        simp [Symbol.isEverywhere, hk] at hcross
      rw [followIn_of_ne_captured hk, ← h.leads, followIn_of_ne_captured hk]
      exact Symbol.place?_of_isEverywhere hcross ..
  · rw [meaningIn, hown]
    exact h.meaning
  · rw [hcrossed]
    exact h.untouched
  · intro hp
    rw [h.everywhere hp]

/-- The name is found further out, and the function captures the symbol. -/
theorem LooksUp.capture (hs : Depicts root s rest l outer) (hget : s.names.get? name = none)
    (h : LooksUp name root outer rest sym rest' p) (hb : s.block = false) (he : sym.isEverywhere = false) :
    LooksUp name root (l :: outer) (s :: rest) (s.capture sym).1 ((s.capture sym).2 :: rest') p := by
  have hown := hs.own_eq_none hget
  have hcrossed := crossedIn_cons outer hown
  have hf : p.inFunction = true := h.mirrors.inFunction he h.leads
  have hs' : Depicts root (s.capture sym).2 rest' l outer := by
    apply (hs.outward h.gains).capture hb
    · rw [h.named]
      exact hget
    · exact h.leads
    · rw [h.named]
      exact h.meaning
    · exact hf
  refine ⟨h.named, ?_, ?_, .cons hs' h.mirrors, ?_, ?_, ?_⟩
  · rw [followIn_captured (by exact hb) _ rfl]
    simpa [Scope.capture] using h.leads
  · rw [meaningIn, hown]
    exact h.meaning
  · exact .cons ⟨rfl, rfl, .inr ⟨hb, sym, h.named, rfl⟩⟩ h.gains
  · rw [hcrossed]
    exact h.untouched
  · intro hp
    rw [hf] at hp
    cases hp

/-- **A look-up gives a symbol that leads to the meaning of the name.** -/
theorem Resolves.looksUp (hroot : RootNames root.names) (hm : Mirrors root ss ls)
    (h : Resolves name root ss sym ss') : ∃ p, LooksUp name root ls ss sym ss' p := by
  induction h generalizing ls with
  | @root sym hget =>
    cases hm
    obtain ⟨hname, hk, -⟩ := hroot name sym hget
    obtain ⟨p, hp⟩ := isSome_iff_exists.mp (Symbol.place?_isSome hk)
    refine ⟨p, hname, hp, ?_, .nil, .nil, rfl, fun _ => rfl⟩
    rw [meaningIn, hget]
    exact hp
  | here hget =>
    cases hm with
    | cons hs hrest => exact LooksUp.here hs hrest hget
  | pass hget _ hcross ih =>
    cases hm with
    | cons hs hrest =>
      obtain ⟨p, hp⟩ := ih hrest
      exact ⟨p, hp.pass hs hget hcross⟩
  | capture hget _ hb he ih =>
    cases hm with
    | cons hs hrest =>
      obtain ⟨p, hp⟩ := ih hrest
      exact ⟨p, hp.capture hs hget hb he⟩

/-- **A look-up finds nothing exactly when no open scope defines the name.** -/
theorem resolveIn_eq_none (h : Mirrors root ss ls) : resolveIn name root ss = none ↔
      (∀ l ∈ ls, l.own.get? name = none) ∧ root.names.get? name = none := by
  induction h with
  | nil => simp [resolveIn]
  | @cons s rest l outer hs hrest ih =>
    unfold resolveIn
    cases hget : s.names.get? name with
    | some sym =>
      refine iff_of_false (some_ne_none _) ?_
      rintro ⟨hnone, hroot⟩
      -- the scope does not define the name, so a look-up left it, and the name means something outside
      obtain ⟨-, -, out, hout, rfl⟩ := hs.cached name sym hget (hnone l (by simp))
      obtain ⟨-, p, -, hm, -⟩ := hs.captures out (Array.mem_of_getElem? hout)
      rw [meaningIn_eq_none (fun l' hl' => hnone l' (by simp [hl'])) hroot] at hm
      cases hm
    | none =>
      have hown : l.own.get? name = none := hs.own_eq_none hget
      simp [ih, hown]

/-! ## Defining a name -/

/-- Scopes that differ in the bound on their slots at most. -/
structure Alike (s s' : Scope) : Prop where
  block : s'.block = s.block
  names : s'.names = s.names
  defined : s'.defined = s.defined
  captures : s'.captures = s.captures

theorem Alike.refl (s : Scope) : Alike s s := ⟨rfl, rfl, rfl, rfl⟩

theorem Alike.raise (s : Scope) (n : Nat) : Alike s (s.raise n) := ⟨rfl, rfl, rfl, rfl⟩

theorem Alike.keeps (h : Alike s s') : Keeps s s' := ⟨h.block, [], by rw [append_nil, h.captures]⟩

theorem raiseIn_alike (n : Nat) (root : Scope) (ss : List Scope) :
    Forall₂ Alike ss (raiseIn n root ss).1 ∧ Alike root (raiseIn n root ss).2 := by
  induction ss with
  | nil => exact ⟨.nil, Alike.raise root n⟩
  | cons s rest ih =>
    unfold raiseIn
    split
    · exact ⟨.cons (Alike.raise s n) ih.1, ih.2⟩
    · exact ⟨.cons (Alike.raise s n) (forall₂_same.mpr fun s _ => Alike.refl s), Alike.refl root⟩

variable {root' : Scope} {name' : String} {slots : Nat}

theorem nextSlotIn_of_alike (hroot : Alike root root') (h : Forall₂ Alike ss ss') :
    nextSlotIn root' ss' = nextSlotIn root ss := by
  induction h with
  | nil => exact hroot.defined
  | cons hs _ ih => simp only [nextSlotIn, hs.block, hs.defined, ih]

theorem Mirrors.alike (hroot : Alike root root') (h : Forall₂ Alike ss ss') (hm : Mirrors root ss ls) :
    Mirrors root' ss' ls := by
  induction hm generalizing ss' with
  | nil =>
    rw [forall₂_nil_left_iff.mp h]
    exact .nil
  | @cons s rest l outer hs hrest ih =>
    cases h with
    | @cons _ s' _ rest' halike htail =>
      have hnext := nextSlotIn_of_alike hroot (.cons halike htail)
      refine .cons ?_ (ih htail)
      constructor
      case block => rw [halike.block, hs.block]
      case named => rw [halike.names]; exact hs.named
      case own => rw [halike.names]; exact hs.own
      case cached => rw [halike.names, halike.block, halike.captures]; exact hs.cached
      case blockless => rw [halike.block, halike.captures]; exact hs.blockless
      case captures =>
        rw [halike.captures, halike.names, hroot.names]
        intro out hout
        obtain ⟨hsome, p, hp, hrest'⟩ := hs.captures out hout
        exact ⟨hsome, p, followIn_of_keeps (htail.imp fun _ _ => Alike.keeps) hp, hrest'⟩
      case once => rw [halike.captures]; exact hs.once
      case range =>
        rw [hnext, halike.block, nextSlotIn_of_alike hroot htail]
        exact hs.range
      case distinct => exact hs.distinct

theorem Depicts.bind (h : Depicts root s rest l outer) (hk : sym.kind ≠ .captured)
    (hslot : sym.kind = .localVar → sym.index = nextSlotIn root (s :: rest) ∧ slots = 1) :
    Depicts root { s.bind sym with defined := s.defined + slots } rest (l.write sym) outer := by
  have hnames (name : String) : ({ s.bind sym with defined := s.defined + slots } : Scope).names.get? name =
      if name = sym.name then some sym else s.names.get? name := Dict.get?_insert ..
  have hnext : nextSlotIn root ({ s.bind sym with defined := s.defined + slots } :: rest) =
      nextSlotIn root (s :: rest) + slots := by
    cases hb : s.block <;> simp [nextSlotIn, Scope.bind, hb, Nat.add_assoc]
  constructor
  case block => exact h.block
  case named =>
    intro name sym' hget
    rw [hnames] at hget
    by_cases heq : name = sym.name
    · rw [if_pos heq] at hget
      cases hget
      exact heq.symm
    · rw [if_neg heq] at hget
      exact h.named name sym' hget
  case own =>
    intro name sym' hget
    rw [Layer.get?_write] at hget
    rw [hnames]
    by_cases heq : name = sym.name
    · rw [if_pos heq] at hget ⊢
      cases hget
      exact ⟨rfl, hk⟩
    · rw [if_neg heq] at hget ⊢
      exact h.own name sym' hget
  case cached =>
    intro name sym' hget hown
    rw [hnames] at hget
    rw [Layer.get?_write] at hown
    by_cases heq : name = sym.name
    · rw [if_pos heq] at hown
      cases hown
    · rw [if_neg heq] at hget hown
      exact h.cached name sym' hget hown
  case blockless => exact h.blockless
  case captures =>
    intro out hout
    obtain ⟨hsome, hleads⟩ := h.captures out hout
    refine ⟨?_, hleads⟩
    rw [hnames]
    by_cases heq : out.name = sym.name
    · rw [if_pos heq]
      rfl
    · rw [if_neg heq]
      exact hsome
  case once => exact h.once
  case range =>
    intro name sym' hget hlocal
    rw [Layer.get?_write] at hget
    rw [hnext]
    by_cases heq : name = sym.name
    · rw [if_pos heq] at hget
      cases hget
      obtain ⟨hindex, hone⟩ := hslot hlocal
      rw [hindex, hone]
      refine ⟨?_, Nat.lt_succ_self _⟩
      cases hb : s.block <;> simp [nextSlotIn, Scope.bind, hb]
    · rw [if_neg heq] at hget
      obtain ⟨hlow, hhigh⟩ := h.range name sym' hget hlocal
      exact ⟨hlow, Nat.lt_add_right slots hhigh⟩
  case distinct =>
    intro name name' x y hx hy hxk hyk hindex
    rw [Layer.get?_write] at hx hy
    by_cases heq : name = sym.name
    · rw [if_pos heq] at hx
      cases hx
      by_cases heq' : name' = sym.name
      · rw [heq, heq']
      · -- the new slot is none of the old ones
        rw [if_neg heq'] at hy
        have hlt := (h.range name' y hy hyk).2
        rw [← hindex, (hslot hxk).1] at hlt
        exact absurd hlt (Nat.lt_irrefl _)
    · rw [if_neg heq] at hx
      by_cases heq' : name' = sym.name
      · rw [if_pos heq'] at hy
        cases hy
        have hlt := (h.range name x hx hxk).2
        rw [hindex, (hslot hyk).1] at hlt
        exact absurd hlt (Nat.lt_irrefl _)
      · rw [if_neg heq'] at hy
        exact h.distinct name name' x y hx hy hxk hyk hindex

/-! ## Slots -/

theorem functionsIn_le_of_meaningIn {root : Dict Symbol} (h : meaningIn name root ls = some (.slot f i)) :
    f ≤ Lexicon.functionsIn ls := by
  induction ls with
  | nil =>
    rw [meaningIn, bind_eq_some_iff] at h
    obtain ⟨sym, -, hp⟩ := h
    exact Nat.le_of_eq (Symbol.of_place?_eq_slot hp).2.1
  | cons l outer ih =>
    rw [meaningIn] at h
    split at h
    · exact Nat.le_of_eq (Symbol.of_place?_eq_slot h).2.1
    · refine Nat.le_trans (ih h) ?_
      unfold Lexicon.functionsIn
      rw [countP_cons]
      exact Nat.le_add_right ..

/-- A slot of the function at hand that is defined outside a scope: the scope is a block. -/
theorem block_of_meaningIn {root : Dict Symbol}
    (h : meaningIn name root outer = some (.slot (Lexicon.functionsIn (l :: outer)) i)) :
    l.block = true ∧ Lexicon.functionsIn (l :: outer) = Lexicon.functionsIn outer := by
  have hle := functionsIn_le_of_meaningIn h
  cases hb : l.block with
  | true => simp [Lexicon.functionsIn, hb]
  | false =>
    -- there are fewer functions outside a function
    have hcount : Lexicon.functionsIn (l :: outer) = Lexicon.functionsIn outer + 1 := by
      simp [Lexicon.functionsIn, hb]
    omega

theorem Mirrors.lt_nextSlotIn (hroot : RootNames root.names) (h : Mirrors root ss ls)
    (hm : meaningIn name root.names ls = some (.slot (Lexicon.functionsIn ls) i)) :
    i < nextSlotIn root ss := by
  induction h with
  | nil =>
    rw [meaningIn, bind_eq_some_iff] at hm
    obtain ⟨sym, hget, hp⟩ := hm
    exact absurd (Symbol.of_place?_eq_slot hp).1 (hroot name sym hget).2.2
  | @cons s rest l outer hs hrest ih =>
    rw [meaningIn] at hm
    cases hown : l.own.get? name with
    | some sym =>
      rw [hown] at hm
      obtain ⟨hk, -, rfl⟩ := Symbol.of_place?_eq_slot hm
      exact (hs.range name sym hown hk).2
    | none =>
      rw [hown] at hm
      obtain ⟨hb, hcount⟩ := block_of_meaningIn hm
      rw [hcount] at hm
      have hlt := ih hm
      rw [nextSlotIn, hs.block, if_pos hb]
      exact Nat.lt_add_right _ hlt

/-- **Names with different definitions have different slots.** -/
theorem Mirrors.meaningIn_injective (hroot : RootNames root.names) (h : Mirrors root ss ls)
    (hm : meaningIn name root.names ls = some (.slot f i))
    (hm' : meaningIn name' root.names ls = some (.slot f i)) : name = name' := by
  induction h with
  | nil =>
    rw [meaningIn, bind_eq_some_iff] at hm
    obtain ⟨sym, hget, hp⟩ := hm
    exact absurd (Symbol.of_place?_eq_slot hp).1 (hroot name sym hget).2.2
  | @cons s rest l outer hs hrest ih =>
    -- a slot that this scope defines is not one of the scopes outside
    have hfresh : ∀ n n' : String, ∀ sym, l.own.get? n = some sym →
        sym.place? (Lexicon.functionsIn (l :: outer)) = some (.slot f i) →
        meaningIn n' root.names outer ≠ some (.slot f i) := by
      intro n n' sym hown hp hout
      obtain ⟨hk, rfl, rfl⟩ := Symbol.of_place?_eq_slot hp
      obtain ⟨hb, hcount⟩ := block_of_meaningIn hout
      rw [hcount] at hout
      have hlt := hrest.lt_nextSlotIn hroot hout
      have hge := (hs.range n sym hown hk).1
      rw [hs.block, if_pos hb] at hge
      exact absurd hlt (Nat.not_lt.mpr hge)
    rw [meaningIn] at hm hm'
    cases hown : l.own.get? name with
    | some sym =>
      rw [hown] at hm
      cases hown' : l.own.get? name' with
      | some sym' =>
        rw [hown'] at hm'
        obtain ⟨hk, -, hi⟩ := Symbol.of_place?_eq_slot hm
        obtain ⟨hk', -, hi'⟩ := Symbol.of_place?_eq_slot hm'
        exact hs.distinct name name' sym sym' hown hown' hk hk' (hi.symm.trans hi')
      | none =>
        rw [hown'] at hm'
        exact absurd hm' (hfresh name name' sym hown hm)
    | none =>
      rw [hown] at hm
      cases hown' : l.own.get? name' with
      | some sym' =>
        rw [hown'] at hm'
        exact absurd hm (hfresh name' name sym' hown' hm')
      | none =>
        rw [hown'] at hm'
        exact ih hm hm'

end SymbolTable

end Scripting
