import Scripting.Proofs.Compile.Lexical
/-!
# `Proofs.Compile.Session` — lexical scoping in every sequence of table operations

A session opens and ends scopes, defines names and looks names up, in any order, on a table that starts
fresh or with built-ins. Beside the table runs the lexicon, which records what the open scopes define and
nothing about look-ups. Each step keeps the two together (`Session.Faithful`), so in every session the
table resolves names as the lexicon says.

What captures look like follows from the same invariant: only a look-up adds one, and only to functions
between definition and use (`Session.step_captures`); those that are there stay (`Session.captures_prefix`).
-/

namespace Scripting

open List

variable {t : SymbolTable} {σ : Session} {depth : Nat} {s : Scope}

/-! ## Sessions -/

/-- What can be asked of a table. -/
inductive TableStep
  | enter (block : Bool)
  | define (name : String)
  | defineFunction (name : String)
  | resolve (name : String)
  | leave
  deriving DecidableEq, Repr

/-- A table and what its open scopes define. -/
structure Session where
  table : SymbolTable
  lexicon : Lexicon

namespace Session

/-- Take one step. The lexicon records the symbols of definitions, and a look-up leaves it as it is. -/
def step (σ : Session) : TableStep → Session
  | .enter block =>
    ⟨σ.table.enter block, { σ.lexicon with inner := { block } :: σ.lexicon.inner }⟩
  | .define name => ⟨(σ.table.define name).2, σ.lexicon.write (σ.table.define name).1⟩
  | .defineFunction name =>
    ⟨(σ.table.defineFunction name).2, σ.lexicon.write (σ.table.defineFunction name).1⟩
  | .resolve name => ⟨((σ.table.resolve name).map (·.2.2)).getD σ.table, σ.lexicon⟩
  | .leave => ⟨σ.table.leave.2, { σ.lexicon with inner := σ.lexicon.inner.tail }⟩

def run (σ : Session) (steps : List TableStep) : Session := steps.foldl step σ

def register (σ : Session) (index : Nat) (name : String) : Session :=
  ⟨(σ.table.defineBuiltin index name).2,
    { σ.lexicon with root := σ.lexicon.root.insert name (σ.table.defineBuiltin index name).1 }⟩

def start (builtins : List (Nat × String)) : Session :=
  builtins.foldl (fun σ b => σ.register b.1 b.2) ⟨{}, {}⟩

/-- Is the scope at a depth open all through some steps? -/
def OpenThrough (depth : Nat) : Session → List TableStep → Prop
  | σ, [] => depth < σ.table.depth
  | σ, a :: steps => depth < σ.table.depth ∧ OpenThrough depth (σ.step a) steps

end Session

namespace SymbolTable

/-- The open scope at a depth. The root has depth 0. -/
def scopeAt? (t : SymbolTable) : Nat → Option Scope
  | 0 => some t.root
  | d + 1 => t.inner.reverse[d]?

end SymbolTable

/-! ## Table and lexicon agree -/

namespace Session

open SymbolTable Lexicon

/-- **The table of a session says what its lexicon says.** -/
structure Faithful (σ : Session) : Prop where
  root : σ.table.root.names = σ.lexicon.root
  names : RootNames σ.table.root.names
  captureless : σ.table.root.captures = #[]
  inner : Mirrors σ.table.root σ.table.inner σ.lexicon.inner

theorem Faithful.raise (h : Faithful ⟨t, x⟩) (n : Nat) : Faithful ⟨t.raise n, x⟩ := by
  obtain ⟨halike, hroot⟩ := raiseIn_alike n t.root t.inner
  refine ⟨?_, ?_, hroot.captures.trans h.captureless, h.inner.alike hroot halike⟩
  · exact hroot.names.trans h.root
  · rw [show (t.raise n).root.names = t.root.names from hroot.names]
    exact h.names

theorem Faithful.bindTop (h : Faithful ⟨t, x⟩) (hk : sym.kind ≠ .captured)
    (hslot : sym.kind = .localVar → t.inner ≠ [] ∧ sym.index = t.nextSlot ∧ slots = 1) :
    Faithful ⟨t.bindTop sym slots, x.write sym⟩ := by
  obtain ⟨inner, root, builtins⟩ := t
  obtain ⟨layers, own⟩ := x
  obtain ⟨hroot, hnames, hcaptures, hinner⟩ := h
  cases hinner with
  | nil =>
    have hroot' : root.names = own := hroot
    refine ⟨?_, hnames.insert hk fun hlocal => (hslot hlocal).1 rfl, hcaptures, .nil⟩
    show root.names.insert sym.name sym = own.insert sym.name sym
    rw [hroot']
  | cons hs hrest =>
    exact ⟨hroot, hnames, hcaptures, .cons (hs.bind hk fun hlocal => (hslot hlocal).2) hrest⟩

theorem Faithful.define (h : σ.Faithful) (name : String) : (σ.step (.define name)).Faithful := by
  have hbind : Faithful ⟨σ.table.bindTop (σ.table.define name).1 1, σ.lexicon.write (σ.table.define name).1⟩ := by
    apply h.bindTop
    · unfold SymbolTable.define
      split <;> nofun
    · intro hlocal
      refine ⟨?_, rfl, rfl⟩
      intro hnil
      -- in the root a variable is global
      have hglobal : σ.table.inGlobal = true := by simp [inGlobal, hnil]
      simp [SymbolTable.define, hglobal] at hlocal
  exact hbind.raise _

theorem Faithful.defineFunction (h : σ.Faithful) (name : String) :
    (σ.step (.defineFunction name)).Faithful := by
  have hbind : Faithful ⟨σ.table.bindTop (σ.table.defineFunction name).1 0,
      σ.lexicon.write (σ.table.defineFunction name).1⟩ := h.bindTop nofun nofun
  exact hbind

theorem Faithful.enter (h : σ.Faithful) (block : Bool) : (σ.step (.enter block)).Faithful := by
  refine ⟨h.root, h.names, h.captureless, .cons ?_ h.inner⟩
  constructor
  case block => rfl
  case once => exact nodup_nil
  case blockless => exact fun _ => rfl
  case captures => exact fun out hout => by simp at hout
  all_goals
    intros
    contradiction

theorem Faithful.leave (h : σ.Faithful) : (σ.step .leave).Faithful := by
  obtain ⟨⟨inner, root, builtins⟩, ⟨layers, own⟩⟩ := σ
  obtain ⟨hroot, hnames, hcaptures, hinner⟩ := h
  cases hinner with
  | nil => exact ⟨hroot, hnames, hcaptures, .nil⟩
  | @cons s rest l outer hs hrest =>
    have hkeep : (leave ⟨s :: rest, root, builtins⟩).2.root.names = root.names := by
      simp only [leave]
      split <;> rfl
    refine ⟨hkeep.trans hroot, ?_, ?_, ?_⟩
    · show RootNames (leave ⟨s :: rest, root, builtins⟩).2.root.names
      rw [hkeep]
      exact hnames
    · show (if s.block && rest.isEmpty then { root with defined := _ } else root).captures = #[]
      split <;> exact hcaptures
    · show Mirrors (if s.block && rest.isEmpty then _ else root) rest outer
      -- the root gives up slots only when no other scope is open
      cases hrest with
      | nil => exact .nil
      | cons hs' hrest' =>
        rw [isEmpty_cons, Bool.and_false]
        exact .cons hs' hrest'

theorem Faithful.resolve (h : σ.Faithful) (name : String) : (σ.step (.resolve name)).Faithful := by
  show Faithful ⟨((σ.table.resolve name).map (·.2.2)).getD σ.table, σ.lexicon⟩
  unfold SymbolTable.resolve
  cases hr : resolveIn name σ.table.root σ.table.inner with
  | none => exact h
  | some found =>
    obtain ⟨p, hp⟩ := (resolves hr).looksUp h.names h.inner
    exact ⟨h.root, h.names, h.captureless, hp.mirrors⟩

/-- **Every step keeps table and lexicon together.** -/
theorem Faithful.step (h : σ.Faithful) (a : TableStep) : (σ.step a).Faithful := by
  cases a with
  | enter block => exact h.enter block
  | define name => exact h.define name
  | defineFunction name => exact h.defineFunction name
  | resolve name => exact h.resolve name
  | leave => exact h.leave

theorem Faithful.run (h : σ.Faithful) (steps : List TableStep) : (σ.run steps).Faithful := by
  induction steps generalizing σ with
  | nil => exact h
  | cons a steps ih => exact ih (h.step a)

theorem faithful_start (builtins : List (Nat × String)) :
    (start builtins).Faithful ∧ (start builtins).table.inner = [] := by
  have hall : ∀ (bs : List (Nat × String)) (σ : Session), σ.Faithful → σ.table.inner = [] →
      (bs.foldl (fun σ b => σ.register b.1 b.2) σ).Faithful ∧
        (bs.foldl (fun σ b => σ.register b.1 b.2) σ).table.inner = [] := by
    intro bs
    induction bs with
    | nil => exact fun σ h hnil => ⟨h, hnil⟩
    | cons b bs ih =>
      intro σ h hnil
      refine ih _ ⟨?_, ?_, h.captureless, ?_⟩ hnil
      · exact congrArg (Dict.insert · b.2 ⟨b.2, .builtin, b.1⟩) h.root
      · have hk : (⟨b.2, .builtin, b.1⟩ : Symbol).kind ≠ .captured := nofun
        exact h.names.insert hk nofun
      · have hinner := h.inner
        rw [hnil] at hinner
        cases hl : σ.lexicon.inner with
        | nil =>
          show Mirrors _ σ.table.inner σ.lexicon.inner
          rw [hnil, hl]
          exact .nil
        | cons l outer =>
          rw [hl] at hinner
          cases hinner
  exact hall builtins ⟨{}, {}⟩ ⟨rfl, (fun _ _ h => by cases h), rfl, .nil⟩ rfl

/-! ## Which scopes capture -/

/-- A look-up of a name has made the function at a depth capture a variable: the function lies inside the
scope that defines the name, and the name means something of a function. -/
structure Captured (σ : Session) (name : String) (depth : Nat) (s s' : Scope) : Prop where
  function : s.block = false
  inside : σ.lexicon.depthOf name < depth
  meaning : ∃ p, σ.lexicon.meaning? name = some p ∧ p.inFunction = true
  captures : ∃ out : Symbol, out.name = name ∧ s'.captures = s.captures.push out

theorem scopeAt?_of_forall₂ (R : Scope → Scope → Prop) (t t' : SymbolTable) (hroot : R t.root t'.root)
    (h : Forall₂ R t.inner t'.inner) (hs : t.scopeAt? depth = some s) :
    ∃ s', t'.scopeAt? depth = some s' ∧ R s s' := by
  cases depth with
  | zero =>
    cases hs
    exact ⟨t'.root, rfl, hroot⟩
  | succ d =>
    obtain ⟨hlt, rfl⟩ := List.getElem?_eq_some_iff.mp hs
    have hrev := forall₂_reverse_iff.mpr h
    have hlt' : d < t'.inner.reverse.length := hrev.length_eq ▸ hlt
    exact ⟨t'.inner.reverse[d], getElem?_eq_getElem hlt', hrev.get hlt hlt'⟩

theorem scopeAt?_enter (h : t.scopeAt? depth = some s) (block : Bool) :
    (t.enter block).scopeAt? depth = some s := by
  cases depth with
  | zero => exact h
  | succ d =>
    have hlt : d < t.inner.reverse.length := (List.getElem?_eq_some_iff.mp h).1
    show (_ :: t.inner).reverse[d]? = some s
    rw [reverse_cons, getElem?_append_left hlt]
    exact h

/-- A scope that is open after another one has ended was open before, with the same captures. -/
theorem scopeAt?_leave (h : t.leave.2.scopeAt? depth = some s) :
    ∃ s0, t.scopeAt? depth = some s0 ∧ s.captures = s0.captures := by
  obtain ⟨inner, root, builtins⟩ := t
  cases inner with
  | nil => exact ⟨s, h, rfl⟩
  | cons s1 rest =>
    cases depth with
    | zero =>
      refine ⟨root, rfl, ?_⟩
      cases h
      show (if s1.block && rest.isEmpty then { root with defined := _ } else root).captures = root.captures
      split <;> rfl
    | succ d =>
      have hlt : d < rest.reverse.length := (List.getElem?_eq_some_iff.mp h).1
      refine ⟨s, ?_, rfl⟩
      show (s1 :: rest).reverse[d]? = some s
      rw [reverse_cons, getElem?_append_left hlt]
      exact h

theorem scopeAt?_bindTop (hs : t.scopeAt? depth = some s) (sym : Symbol) (slots : Nat) :
    ∃ s', (t.bindTop sym slots).scopeAt? depth = some s' ∧ s'.captures = s.captures := by
  obtain ⟨inner, root, builtins⟩ := t
  apply scopeAt?_of_forall₂ (fun s s' => s'.captures = s.captures) ⟨inner, root, builtins⟩
  · cases inner <;> rfl
  · cases inner with
    | nil => exact .nil
    | cons s1 rest => exact .cons rfl (forall₂_same.mpr fun _ _ => rfl)
  · exact hs

theorem scopeAt?_raise (hs : t.scopeAt? depth = some s) (n : Nat) :
    ∃ s', (t.raise n).scopeAt? depth = some s' ∧ s'.captures = s.captures := by
  obtain ⟨hinner, hroot⟩ := raiseIn_alike n t.root t.inner
  obtain ⟨s', hs', halike⟩ := scopeAt?_of_forall₂ Alike t (t.raise n) hroot hinner hs
  exact ⟨s', hs', halike.captures⟩

/-- Scopes from the definition outwards stay as they are. -/
theorem scopeAt?_of_drop {inner : List Scope} (hlen : inner.length = t.inner.length)
    (h : inner.drop c = t.inner.drop c) (hd : depth ≤ t.inner.length - c) :
    { t with inner }.scopeAt? depth = t.scopeAt? depth := by
  cases depth with
  | zero => rfl
  | succ d =>
    show inner.reverse[d]? = t.inner.reverse[d]?
    rw [getElem?_reverse (by omega), getElem?_reverse (by omega), hlen]
    have hat := congrArg (·[t.inner.length - 1 - d - c]?) h
    simp only [getElem?_drop] at hat
    rwa [show c + (t.inner.length - 1 - d - c) = t.inner.length - 1 - d by omega] at hat

theorem captured_of_looksUp (h : σ.Faithful) {inner : List Scope}
    (hp : LooksUp name σ.table.root σ.lexicon.inner σ.table.inner sym inner p)
    (hs : σ.table.scopeAt? depth = some s) (hs' : { σ.table with inner }.scopeAt? depth = some s') :
    s'.captures = s.captures ∨ σ.Captured name depth s s' := by
  have hgains : Gains name s s' := by
    obtain ⟨s1, hs1, hgains⟩ :=
      scopeAt?_of_forall₂ (Gains name) σ.table { σ.table with inner } (Gains.refl name _) hp.gains hs
    rw [hs'] at hs1
    cases hs1
    exact hgains
  rcases hgains.captures with hsame | ⟨hfun, out, hout, hpush⟩
  · exact .inl hsame
  -- something was captured, so this scope is not the one that was there before
  have hne : s' ≠ s := by
    rintro rfl
    have hsize := congrArg Array.size hpush
    simp at hsize
  refine .inr ⟨hfun, ?_, ⟨p, ?_, ?_⟩, out, hout, hpush⟩
  · refine Nat.lt_of_not_le fun hle => hne ?_
    have hlen : inner.length = σ.table.inner.length := hp.gains.length_eq.symm
    rw [Lexicon.depthOf, ← h.inner.length_eq] at hle
    rw [scopeAt?_of_drop hlen hp.untouched hle, hs] at hs'
    cases hs'
    rfl
  · rw [Lexicon.meaning?, ← h.root]
    exact hp.meaning
  · cases hf : p.inFunction with
    | true => rfl
    | false =>
      have hsame := hp.everywhere hf
      subst hsame
      rw [hs] at hs'
      cases hs'
      exact absurd rfl hne

/-- **Only look-ups add captures**, and only to functions between the definition and the use. -/
theorem step_captures (h : σ.Faithful) (a : TableStep) (hs : σ.table.scopeAt? depth = some s)
    (hs' : (σ.step a).table.scopeAt? depth = some s') :
    s'.captures = s.captures ∨ ∃ name, a = .resolve name ∧ σ.Captured name depth s s' := by
  cases a with
  | enter block =>
    left
    have henter := scopeAt?_enter hs block
    rw [show (σ.step (.enter block)).table = σ.table.enter block from rfl, henter] at hs'
    cases hs'
    rfl
  | define name =>
    left
    obtain ⟨s1, hs1, hbind⟩ := scopeAt?_bindTop hs (σ.table.define name).1 1
    obtain ⟨s2, hs2, hraise⟩ := scopeAt?_raise hs1 ((σ.table.define name).1.index + 1)
    rw [show s' = s2 from Option.some.inj (hs'.symm.trans hs2), hraise, hbind]
  | defineFunction name =>
    left
    obtain ⟨s1, hs1, hbind⟩ := scopeAt?_bindTop hs (σ.table.defineFunction name).1 0
    rw [show s' = s1 from Option.some.inj (hs'.symm.trans hs1), hbind]
  | leave =>
    left
    obtain ⟨s0, hs0, heq⟩ := scopeAt?_leave hs'
    rw [hs] at hs0
    cases hs0
    exact heq
  | resolve name =>
    have hs' : (((σ.table.resolve name).map (·.2.2)).getD σ.table).scopeAt? depth = some s' := hs'
    unfold resolve at hs'
    cases hr : resolveIn name σ.table.root σ.table.inner with
    | none =>
      rw [hr] at hs'
      have hs' : σ.table.scopeAt? depth = some s' := hs'
      rw [hs] at hs'
      cases hs'
      exact .inl rfl
    | some found =>
      rw [hr] at hs'
      obtain ⟨p, hp⟩ := (resolves hr).looksUp h.names h.inner
      rcases captured_of_looksUp h hp hs hs' with hsame | hcap
      · exact .inl hsame
      · exact .inr ⟨name, rfl, hcap⟩

theorem exists_scopeAt? (h : depth < t.depth) : ∃ s, t.scopeAt? depth = some s := by
  cases depth with
  | zero => exact ⟨t.root, rfl⟩
  | succ d =>
    have hlt : d < t.inner.reverse.length := by
      rw [length_reverse]
      exact Nat.lt_of_succ_lt_succ h
    exact ⟨t.inner.reverse[d], getElem?_eq_getElem hlt⟩

/-- **Captures never change while their scope is open**: later ones come after them. -/
theorem captures_prefix (h : σ.Faithful) (hopen : σ.OpenThrough depth steps) :
    ∃ s s', σ.table.scopeAt? depth = some s ∧ (σ.run steps).table.scopeAt? depth = some s' ∧
      s.captures.toList <+: s'.captures.toList := by
  induction steps generalizing σ with
  | nil =>
    obtain ⟨s, hs⟩ := exists_scopeAt? hopen
    exact ⟨s, s, hs, hs, prefix_rfl⟩
  | cons a steps ih =>
    obtain ⟨hlt, hopen⟩ := hopen
    obtain ⟨s, hs⟩ := exists_scopeAt? hlt
    obtain ⟨s1, s', hs1, hs', hprefix⟩ := ih (h.step a) hopen
    refine ⟨s, s', hs, hs', IsPrefix.trans ?_ hprefix⟩
    rcases step_captures h a hs hs1 with hsame | ⟨name, -, hcap⟩
    · exact ⟨[], by rw [append_nil, hsame]⟩
    · obtain ⟨out, -, hpush⟩ := hcap.captures
      rw [hpush, Array.toList_push]
      exact prefix_append ..

/-! ## What captures stand for -/

theorem Faithful.captures_inFunction (h : σ.Faithful) (hinner : σ.table.inner = pre ++ s :: rest)
    (hout : out ∈ s.captures) :
    out.isEverywhere = false ∧ ∃ p, followIn rest out = some p ∧ p.inFunction = true := by
  have hmirrors := h.inner
  rw [hinner] at hmirrors
  obtain ⟨l, outer, hs, -⟩ := hmirrors.split
  obtain ⟨-, p, hp, -, hf⟩ := hs.captures out hout
  refine ⟨?_, p, hp, hf⟩
  cases he : out.isEverywhere with
  | false => rfl
  | true =>
    rw [inFunction_of_isEverywhere he hp] at hf
    cases hf

theorem Faithful.captures_once (h : σ.Faithful) (hinner : σ.table.inner = pre ++ s :: rest) {i j : Nat}
    (hij : i ≠ j) (ha : s.captures[i]? = some a) (hb : s.captures[j]? = some b) :
    a.name ≠ b.name ∧ ∀ f slot, followIn rest a = some (.slot f slot) → followIn rest b ≠ some (.slot f slot) := by
  have hmirrors := h.inner
  rw [hinner] at hmirrors
  obtain ⟨l, outer, hs, hrest⟩ := hmirrors.split
  have hne : a.name ≠ b.name := by
    intro heq
    apply hij
    have hlt : i < (s.captures.toList.map (·.name)).length := by
      simpa using (Array.getElem?_eq_some_iff.mp ha).1
    refine (getElem?_inj hlt hs.once).mp ?_
    simp [ha, hb, heq]
  refine ⟨hne, fun f slot hfa hfb => hne ?_⟩
  obtain ⟨-, p, hp, hm, -⟩ := hs.captures a (Array.mem_of_getElem? ha)
  obtain ⟨-, q, hq, hm', -⟩ := hs.captures b (Array.mem_of_getElem? hb)
  rw [hfa] at hp
  rw [hfb] at hq
  cases hp
  cases hq
  exact hrest.meaningIn_injective h.names hm hm'

theorem Faithful.resolve_eq_none (h : σ.Faithful) (name : String) :
    σ.table.resolve name = none ↔ ¬ σ.lexicon.Defines name := by
  rw [SymbolTable.resolve, Option.map_eq_none_iff, resolveIn_eq_none h.inner, h.root]
  simp [Lexicon.Defines, Dict.contains]

/-- **Lexical scoping.** -/
structure LexicallyScoped (σ : Session) : Prop where
  /-- Nothing is found exactly when no open scope defines the name. -/
  absent : ∀ name, σ.table.resolve name = none ↔ ¬ σ.lexicon.Defines name
  /-- What is found leads, through the captures, to the place of the innermost definition. -/
  found : ∀ name sym crossed t, σ.table.resolve name = some (sym, crossed, t) →
    ∃ p, t.follow sym = some p ∧ σ.lexicon.meaning? name = some p
  /-- Only a look-up adds a capture, and only to functions between definition and use. -/
  gains : ∀ a depth s s', σ.table.scopeAt? depth = some s → (σ.step a).table.scopeAt? depth = some s' →
    s'.captures = s.captures ∨ ∃ name, a = .resolve name ∧ σ.Captured name depth s s'
  /-- Global variables and built-ins are never captured, and the root captures nothing. -/
  captures : σ.table.root.captures = #[] ∧
    ∀ pre s rest, σ.table.inner = pre ++ s :: rest → ∀ out ∈ s.captures,
      out.isEverywhere = false ∧ ∃ p, followIn rest out = some p ∧ p.inFunction = true
  /-- No two captures of a function are of the same variable. -/
  once : ∀ pre s rest, σ.table.inner = pre ++ s :: rest → ∀ (i j : Nat) a b, i ≠ j →
    s.captures[i]? = some a → s.captures[j]? = some b →
      a.name ≠ b.name ∧
        ∀ f slot, followIn rest a = some (.slot f slot) → followIn rest b ≠ some (.slot f slot)
  /-- The captures of a scope that stays open are the first of its later ones. -/
  stable : ∀ depth steps, σ.OpenThrough depth steps →
    ∃ s s', σ.table.scopeAt? depth = some s ∧ (σ.run steps).table.scopeAt? depth = some s' ∧
      s.captures.toList <+: s'.captures.toList

/-- **Names mean their innermost definition**, in every session. -/
theorem run_lexicallyScoped (builtins : List (Nat × String)) (steps : List TableStep) :
    ((start builtins).run steps).LexicallyScoped := by
  have h : ((start builtins).run steps).Faithful := (faithful_start builtins).1.run steps
  constructor
  case absent => exact h.resolve_eq_none
  case found =>
    intro name sym crossed t hr
    rw [resolve, Option.map_eq_some_iff] at hr
    obtain ⟨⟨sym', n, inner⟩, hin, heq⟩ := hr
    cases heq
    obtain ⟨p, hp⟩ := (resolves hin).looksUp h.names h.inner
    refine ⟨p, hp.leads, ?_⟩
    rw [Lexicon.meaning?, ← h.root]
    exact hp.meaning
  case gains => exact fun a depth s s' => step_captures h a
  case captures => exact ⟨h.captureless, fun pre s rest hinner out => h.captures_inFunction hinner⟩
  case once => exact fun pre s rest hinner i j a b hij => h.captures_once hinner hij
  case stable => exact fun depth steps => captures_prefix h

/-- Sessions start on the tables that built-ins are registered in, one after the other. -/
theorem table_start (builtins : List (Nat × String)) :
    (start builtins).table = builtins.foldl (fun t b => (t.defineBuiltin b.1 b.2).2) {} := by
  have hall (σ : Session) : (builtins.foldl (fun σ b => σ.register b.1 b.2) σ).table =
      builtins.foldl (fun t b => (t.defineBuiltin b.1 b.2).2) σ.table := by
    induction builtins generalizing σ with
    | nil => rfl
    | cons b bs ih => exact ih (σ.register b.1 b.2)
  exact hall ⟨{}, {}⟩

example : (start (Builtin.all.map fun b => (b.index, b.name))).table = withBuiltins := by
  rw [table_start, foldl_map, withBuiltins]

end Session
end Scripting
