import Scripting.Proofs.Compile.Recovery
import Scripting.Proofs.Compile.Session
import Scripting.Proofs.Compile.Validity
/-!
# `Proofs.Compile.Roles` — what the symbol table says about names

The rules of the language ask two things about a name: what it stands for, and whether the innermost scope has
defined it. Both can be read off the open scopes (`SymbolTable.roleIn`, `SymbolTable.takenIn`), and captured
variables make no difference to them: a look-up changes neither answer, in any scope (`Binds.resolve`).

`Binds names t t'` says that from one table to the other the innermost scope has defined some names and the
scopes around it give the same answers as before. `Shows c t` says that a table gives the answers of a setting.
-/

namespace Scripting

open Session List Option

/-- What a name with a symbol of this kind stands for. -/
def SymbolKind.role : SymbolKind → Role
  | globalVar | localVar | captured => .var
  | builtin => .builtin
  | self => .own

/-- Is the symbol a variable of the scope that has it? -/
def SymbolKind.isDefined : SymbolKind → Bool
  | globalVar | localVar => true
  | builtin | captured | self => false

namespace SymbolTable

/-! ## Two questions about a name -/

/-- What a name stands for in the innermost of some scopes. -/
def roleIn (name : String) (root : Scope) : List Scope → Option Role
  | [] => (root.names.get? name).map (·.kind.role)
  | s :: rest =>
    match s.names.get? name with
    | some sym => some sym.kind.role
    | none => if s.block then roleIn name root rest else (roleIn name root rest).map .inward

/-- Has the innermost of some scopes defined a variable of this name? -/
def takenIn (name : String) (root : Scope) (ss : List Scope) : Bool :=
  ((ss.headD root).names.get? name).any (·.kind.isDefined)

variable {name : String} {root root' : Scope} {ss ss' : List Scope} {sym : Symbol} {n : Nat}

theorem roleIn_congr (hroot : root'.names = root.names)
    (h : Forall₂ (fun s s' => s'.block = s.block ∧ s'.names = s.names) ss ss') (name : String) :
    roleIn name root' ss' = roleIn name root ss := by
  induction h with
  | nil => simp only [roleIn, hroot]
  | cons hs _ ih => simp only [roleIn, hs.1, hs.2, ih]

/-- **A look-up gives a symbol with the role of the name.** -/
theorem Resolves.roleIn_eq (h : Resolves name root ss sym ss') : roleIn name root ss = some sym.kind.role := by
  induction h with
  | root hget => simp only [roleIn, hget, map_some]
  | here hget => simp only [roleIn, hget]
  | @pass s _ _ sym hget _ hcross ih =>
    simp only [roleIn, hget, ih]
    cases hb : s.block with
    | true => rfl
    | false =>
      -- seen from inside a function, the symbol is one of the root
      cases hk : sym.kind <;> simp_all [Symbol.isEverywhere, SymbolKind.role, Role.inward]
  | @capture s _ _ sym hget _ hb he ih =>
    simp only [roleIn, ih, hb]
    cases hk : sym.kind <;> simp_all [Symbol.isEverywhere, SymbolKind.role, Role.inward, Scope.capture]

theorem roleIn_eq_none_of_resolveIn (h : resolveIn name root ss = none) : roleIn name root ss = none := by
  induction ss with
  | nil =>
    simp only [resolveIn, map_eq_none_iff] at h
    simp only [roleIn, h, map_none]
  | cons s rest ih =>
    unfold resolveIn at h
    unfold roleIn
    cases hget : s.names.get? name with
    | some sym' => simp only [hget, reduceCtorEq] at h
    | none =>
      simp only [hget, map_eq_none_iff] at h
      simp only [ih h, map_none, ite_self]

/-- Scopes that give the same answers, one by one from the innermost outwards. -/
inductive Agree (root root' : Scope) : List Scope → List Scope → Prop
  | nil : root'.names = root.names → Agree root root' [] []
  | cons {s s' rest rest'} : s'.block = s.block → (∀ m, roleIn m root' (s' :: rest') = roleIn m root (s :: rest)) →
    (∀ m, (s'.names.get? m).any (·.kind.isDefined) = (s.names.get? m).any (·.kind.isDefined)) →
    Agree root root' rest rest' → Agree root root' (s :: rest) (s' :: rest')

namespace Agree

theorem refl (root : Scope) : ∀ ss : List Scope, Agree root root ss ss
  | [] => .nil rfl
  | _ :: rest => .cons rfl (fun _ => rfl) (fun _ => rfl) (refl root rest)

theorem blocks (h : Agree root root' ss ss') : ss'.map (·.block) = ss.map (·.block) := by
  induction h with
  | nil => rfl
  | cons hb _ _ _ ih => rw [map_cons, map_cons, hb, ih]

theorem role (h : Agree root root' ss ss') (m : String) : roleIn m root' ss' = roleIn m root ss := by
  cases h with
  | nil hroot => simp only [roleIn, hroot]
  | cons _ hrole _ _ => exact hrole m

theorem taken (h : Agree root root' ss ss') (m : String) : takenIn m root' ss' = takenIn m root ss := by
  cases h with
  | nil hroot => simp only [takenIn, headD_nil, hroot]
  | cons _ _ htaken _ => exact htaken m

theorem trans (h : Agree root root' ss ss') (h' : Agree root' root'' ss' ss'') : Agree root root'' ss ss'' := by
  induction h generalizing ss'' with
  | nil hroot =>
    cases h' with
    | nil hroot' => exact .nil (hroot'.trans hroot)
  | cons hb hrole htaken _ ih =>
    cases h' with
    | cons hb' hrole' htaken' hrest =>
      exact .cons (hb'.trans hb) (fun m => (hrole' m).trans (hrole m))
        (fun m => (htaken' m).trans (htaken m)) (ih hrest)

theorem of_names (hroot : root'.names = root.names)
    (h : Forall₂ (fun s s' => s'.block = s.block ∧ s'.names = s.names) ss ss') : Agree root root' ss ss' := by
  induction h with
  | nil => exact .nil hroot
  | cons hs hrest ih => exact .cons hs.1 (roleIn_congr hroot (.cons hs hrest)) (fun m => by rw [hs.2]) ih

theorem of_root (hroot : root'.names = root.names) : Agree root root' ss ss :=
  of_names hroot (forall₂_same.mpr fun _ _ => ⟨rfl, rfl⟩)

theorem of_raise (t : SymbolTable) (n : Nat) : Agree t.root (t.raise n).root t.inner (t.raise n).inner := by
  obtain ⟨hinner, hroot⟩ := raiseIn_alike n t.root t.inner
  exact of_names hroot.names (hinner.imp fun _ _ h => ⟨h.block, h.names⟩)

theorem tail (h : Agree root root' ss ss') (hne : ss ≠ []) : Agree root root' ss.tail ss'.tail := by
  cases h with
  | nil => exact absurd rfl hne
  | cons _ _ _ hrest => exact hrest

/-- **A look-up changes no answer, in any scope.** -/
theorem of_resolves (hroot : RootNames root.names) (hm : Mirrors root ss ls)
    (h : Resolves name root ss sym ss') : Agree root root ss ss' := by
  induction h generalizing ls with
  | root hget => exact .nil rfl
  | here hget => exact refl root _
  | pass hget _ hcross ih =>
    cases hm with
    | cons _ hrest =>
      have hrest' := ih hrest
      exact .cons rfl (fun m => by simp only [roleIn, hrest'.role]) (fun _ => rfl) hrest'
  | @capture s rest rest' sym hget hin hb he ih =>
    cases hm with
    | cons _ hrest =>
      have hrest' := ih hrest
      obtain ⟨p, hlooks⟩ := hin.looksUp hroot hrest
      -- the function has the name now, as that of a captured variable
      refine .cons rfl (fun m => ?_) (fun m => ?_) hrest'
      · simp only [roleIn, Scope.capture, Dict.get?_insert, hlooks.named]
        by_cases hname : m = name
        · subst hname
          simp only [if_true, hget, hb, hin.roleIn_eq]
          cases hk : sym.kind <;> simp_all [Symbol.isEverywhere, SymbolKind.role, Role.inward]
        · simp only [if_neg hname, hrest'.role]
      · simp only [Scope.capture, Dict.get?_insert, hlooks.named]
        by_cases hname : m = name
        · subst hname
          simp only [if_true, hget, any_some, any_none, SymbolKind.isDefined]
        · simp only [if_neg hname]

end Agree

/-! ## Tables from one step to the next -/

/-- **The scopes around the innermost one give the same answers as before.** -/
structure Around (t t' : SymbolTable) : Prop where
  blocks : t'.blocks = t.blocks
  builtins : t'.builtins = t.builtins
  scopes : t.inner ≠ [] → Agree t.root t'.root t.inner.tail t'.inner.tail

/-- **The innermost scope has defined some names**, and apart from that all scopes give the same answers as
before. -/
structure Binds (names : List String) (t t' : SymbolTable) : Prop extends Around t t' where
  role : ∀ m, roleIn m t'.root t'.inner = if m ∈ names then some .var else roleIn m t.root t.inner
  taken : ∀ m, takenIn m t'.root t'.inner = (decide (m ∈ names) || takenIn m t.root t.inner)

variable {t t' t'' : SymbolTable} {names names' : List String}

theorem inner_eq_nil_iff (h : t'.blocks = t.blocks) : t'.inner = [] ↔ t.inner = [] := by
  have hlen : t'.inner.length = t.inner.length := by
    rw [← length_blocks, ← length_blocks, h]
  rw [← length_eq_zero_iff, ← length_eq_zero_iff, hlen]

theorem Around.trans (h : t.Around t') (h' : t'.Around t'') : t.Around t'' where
  blocks := h'.blocks.trans h.blocks
  builtins := h'.builtins.trans h.builtins
  scopes hne := (h.scopes hne).trans (h'.scopes fun hnil => hne ((inner_eq_nil_iff h.blocks).mp hnil))

namespace Binds

theorem of_agree (h : Agree t.root t'.root t.inner t'.inner) (hb : t'.builtins = t.builtins) : Binds [] t t' where
  blocks := h.blocks
  builtins := hb
  scopes := h.tail
  role m := by rw [if_neg not_mem_nil]; exact h.role m
  taken m := by rw [decide_eq_false not_mem_nil, Bool.false_or]; exact h.taken m

theorem refl (t : SymbolTable) : Binds [] t t := of_agree (Agree.refl ..) rfl

theorem trans (h : Binds names t t') (h' : Binds names' t' t'') : Binds (names' ++ names) t t'' where
  toAround := h.toAround.trans h'.toAround
  role m := by
    rw [h'.role, h.role]
    by_cases hm : m ∈ names' <;> simp [hm]
  taken m := by
    rw [h'.taken, h.taken]
    by_cases hm : m ∈ names' <;> simp [hm]

/-- **A look-up changes no answer.** -/
theorem resolve {x : Lexicon} (hx : Faithful ⟨t, x⟩) {sym : Symbol} {n : Nat}
    (h : t.resolve name = some (sym, n, t')) : Binds [] t t' := by
  simp only [SymbolTable.resolve, map_eq_some_iff] at h
  obtain ⟨⟨sym', crossed, inner⟩, hin, heq⟩ := h
  cases heq
  exact of_agree (Agree.of_resolves hx.names hx.inner (resolves hin)) rfl

end Binds

theorem around_bindTop (t : SymbolTable) (sym : Symbol) (slots : Nat) : t.Around (t.bindTop sym slots) := by
  obtain ⟨inner, root, builtins⟩ := t
  cases inner with
  | nil => exact ⟨rfl, rfl, fun hne => absurd rfl hne⟩
  | cons s rest => exact ⟨rfl, rfl, fun _ => Agree.refl ..⟩

theorem roleIn_bindTop (t : SymbolTable) (sym : Symbol) (slots : Nat) (m : String) :
    roleIn m (t.bindTop sym slots).root (t.bindTop sym slots).inner =
      if m = sym.name then some sym.kind.role else roleIn m t.root t.inner := by
  obtain ⟨inner, root, builtins⟩ := t
  cases inner <;> simp only [bindTop, modifyTop, roleIn, Scope.bind, Dict.get?_insert] <;>
    by_cases hm : m = sym.name <;> simp only [hm, if_true, if_false, map_some]

theorem takenIn_bindTop : takenIn m (t.bindTop sym slots).root (t.bindTop sym slots).inner =
      if m = sym.name then sym.kind.isDefined else takenIn m t.root t.inner := by
  obtain ⟨inner, root, builtins⟩ := t
  cases inner <;>
    simp only [bindTop, modifyTop, takenIn, headD_nil, headD_cons, Scope.bind, Dict.get?_insert] <;>
    split <;> rfl

theorem define_eq : (t.define name).2 = (t.bindTop (t.define name).1 1).raise ((t.define name).1.index + 1) := rfl

theorem kind_define (t : SymbolTable) (name : String) :
    (t.define name).1.kind.role = .var ∧ (t.define name).1.kind.isDefined = true := by
  unfold define
  split <;> exact ⟨rfl, rfl⟩

/-- **A definition.** -/
theorem Binds.define (t : SymbolTable) (name : String) : Binds [name] t (t.define name).2 := by
  obtain ⟨hrole, hdefined⟩ := kind_define t name
  have hname : (t.define name).1.name = name := rfl
  have hbind : Binds [name] t (t.bindTop (t.define name).1 1) := by
    refine ⟨around_bindTop t _ 1, fun m => ?_, fun m => ?_⟩
    · rw [roleIn_bindTop, hname, hrole]
      simp only [mem_singleton]
    · rw [takenIn_bindTop, hname, hdefined]
      by_cases hm : m = name <;> simp [hm]
  have hraise := hbind.trans
    (of_agree (Agree.of_raise (t.bindTop (t.define name).1 1) ((t.define name).1.index + 1)) rfl)
  exact hraise

/-- **The end of a scope.** What has been defined in it is forgotten. -/
theorem Around.leave {block : Bool} (h : (t.enter block).Around t') : Binds [] t t'.leave.2 := by
  have hscopes : Agree t.root t'.root t.inner t'.inner.tail := h.scopes (cons_ne_nil _ _)
  have hbuiltins : t'.leave.2.builtins = t'.builtins := by
    obtain ⟨inner, root, builtins⟩ := t'
    cases inner <;> rfl
  refine Binds.of_agree ?_ (hbuiltins.trans h.builtins)
  rw [inner_leave]
  exact hscopes.trans (Agree.of_root (root_leave t').1)

/-! ## Tables and settings -/

/-- The table keeps to the scopes of the code, whatever has been looked up. -/
def Sane (t : SymbolTable) : Prop := ∃ x, Faithful ⟨t, x⟩

namespace Sane

theorem define (h : t.Sane) (name : String) : (t.define name).2.Sane := h.imp' _ fun _ hx => hx.define name

theorem resolve (h : t.Sane) {sym : Symbol} {n : Nat} (hr : t.resolve name = some (sym, n, t')) : t'.Sane := by
  obtain ⟨x, hx⟩ := h
  have hstep := hx.resolve name
  simp only [step, hr, map_some] at hstep
  exact ⟨x, hstep⟩

theorem defineFunction (h : t.Sane) (name : String) : (t.defineFunction name).2.Sane :=
  h.imp' _ fun _ hx => hx.defineFunction name

theorem enter (h : t.Sane) (block : Bool) : (t.enter block).Sane := h.imp' _ fun _ hx => hx.enter block

theorem leave (h : t.Sane) : t.leave.2.Sane := h.imp' _ fun _ hx => hx.leave

/-- What a function captures is a variable of a function around it. -/
theorem captures (h : t.Sane) : ∀ sym ∈ t.leave.1.captures, sym.isEverywhere = false := by
  obtain ⟨x, hx⟩ := h
  obtain ⟨inner, root, builtins⟩ := t
  intro sym hsym
  cases inner with
  | nil =>
    have hnone : root.captures = #[] := hx.captureless
    simp only [SymbolTable.leave, hnone] at hsym
    cases hsym
  | cons s rest =>
    exact (hx.captures_inFunction (nil_append _).symm (Array.mem_toList_iff.mp hsym)).1

/-- Where only built-ins are visible, nothing can be captured. -/
theorem inFunction_eq_false (hx : Faithful ⟨t, x⟩) (hin : t.inner = s :: rest)
    (hl : x.inner = l :: outer) (hbuiltin : ∀ r, roleIn name t.root rest = some r → r = .builtin)
    (hp : Lexicon.meaningIn name t.root.names outer = some p) : p.inFunction = false := by
  have hmirrors : Mirrors t.root (s :: rest) (l :: outer) := hin ▸ hl ▸ hx.inner
  cases hmirrors with
  | cons _ hrest =>
    cases hr : resolveIn name t.root rest with
    | none =>
      obtain ⟨hown, hroot⟩ := (resolveIn_eq_none hrest).mp hr
      rw [Lexicon.meaningIn_eq_none hown hroot] at hp
      cases hp
    | some found =>
      obtain ⟨sym, n, rest'⟩ := found
      obtain ⟨p', hlooks⟩ := (resolves hr).looksUp hx.names hrest
      have hkind : sym.isEverywhere = true := by
        have := hbuiltin _ (resolves hr).roleIn_eq
        cases hk : sym.kind <;> simp_all [SymbolKind.role, Symbol.isEverywhere]
      obtain rfl : p = p' := some.inj (hp.symm.trans hlooks.meaning)
      exact inFunction_of_isEverywhere hkind hlooks.leads

end Sane

/-- **A table that gives the answers of a setting.** The last condition says where definitions are made: in the
root, in a block, or in a function around which there are only built-ins. -/
structure Shows (c : Setting) (t : SymbolTable) : Prop where
  sane : t.Sane
  builtins : t.builtins = withBuiltins.builtins
  role : ∀ m, roleIn m t.root t.inner = c.role m
  taken : ∀ m, takenIn m t.root t.inner = decide (m ∈ c.here)
  inGlobal : t.inGlobal = !c.inFunction
  plain : t.inner = [] ∨ t.top.block = true ∨ ∀ m r, roleIn m t.root t.inner.tail = some r → r = .builtin

variable {c : Setting}

/-- No name of the innermost scope is that of a captured variable. -/
theorem Shows.kind_ne_captured (h : Shows c t) (hget : t.resolveTop? name = some sym) : sym.kind ≠ .captured := by
  obtain ⟨x, hx⟩ := h.sane
  cases hin : t.inner with
  | nil =>
    have hroot : t.root.names.get? name = some sym := by
      simpa only [resolveTop?, top, hin, headD_nil] using hget
    exact (hx.names name sym hroot).2.1
  | cons s rest =>
    have hs : s.names.get? name = some sym := by simpa only [resolveTop?, top, hin, headD_cons] using hget
    cases hl : x.inner with
    | nil =>
      have hmirrors : Mirrors t.root (s :: rest) [] := hin ▸ hl ▸ hx.inner
      cases hmirrors
    | cons l outer =>
      have hmirrors : Mirrors t.root (s :: rest) (l :: outer) := hin ▸ hl ▸ hx.inner
      cases hmirrors with
      | cons hreflects hrest =>
        cases hown : l.own.get? name with
        | some sym' =>
          obtain ⟨hget', hkind⟩ := hreflects.own name sym' hown
          obtain rfl : sym = sym' := some.inj (hs.symm.trans hget')
          exact hkind
        | none =>
          obtain ⟨hblock, -, out, hout, hname⟩ := hreflects.cached name sym hs hown
          obtain ⟨-, p, -, hmeaning, hfun⟩ := hreflects.captures out (Array.mem_of_getElem? hout)
          rcases h.plain with hnil | htop | hbuiltin
          · rw [hin] at hnil
            cases hnil
          · simp only [top, hin, headD_cons, hblock, Bool.false_eq_true] at htop
          · rw [hname] at hmeaning
            rw [hin] at hbuiltin
            rw [Sane.inFunction_eq_false hx hin hl (hbuiltin name) hmeaning] at hfun
            cases hfun

/-- **`:=` may define a name unless the innermost scope has defined it.** -/
theorem Shows.isShadowable (h : Shows c t) (name : String) :
    Generator.isShadowable (t.resolveTop? name) = !decide (name ∈ c.here) := by
  have htaken : (t.resolveTop? name).any (·.kind.isDefined) = decide (name ∈ c.here) := h.taken name
  rw [← htaken]
  cases hget : t.resolveTop? name with
  | none => rfl
  | some sym =>
    have hkind := h.kind_ne_captured hget
    cases hk : sym.kind <;> simp_all [Generator.isShadowable, SymbolKind.isDefined]

theorem Shows.binds (h : Shows c t) (hb : Binds names t t') (hsane : t'.Sane) : Shows (c.defining names) t' where
  sane := hsane
  builtins := hb.builtins.trans h.builtins
  role m := by rw [hb.role, h.role]; rfl
  taken m := by
    rw [hb.taken, h.taken]
    simp [Setting.defining]
  inGlobal := by
    have hblocks : t'.inner.map (·.block) = t.inner.map (·.block) := hb.blocks
    rw [inGlobal_eq, hblocks, ← inGlobal_eq, h.inGlobal]
    rfl
  plain := by
    rcases h.plain with hnil | htop | hbuiltin
    · exact .inl ((inner_eq_nil_iff hb.blocks).mpr hnil)
    · cases hin : t.inner with
      | nil => exact .inl ((inner_eq_nil_iff hb.blocks).mpr hin)
      | cons s rest =>
        right; left
        have hblocks := hb.blocks
        cases hin' : t'.inner with
        | nil => simp [blocks, hin, hin'] at hblocks
        | cons s' rest' =>
          simp only [blocks, hin, hin', map_cons, cons.injEq] at hblocks
          simp only [top, hin, headD_cons] at htop
          simp only [top, hin', headD_cons, hblocks.1, htop]
    · by_cases hnil : t.inner = []
      · exact .inl ((inner_eq_nil_iff hb.blocks).mpr hnil)
      · right; right
        intro m r hr
        rw [(hb.scopes hnil).role] at hr
        exact hbuiltin m r hr

theorem Shows.block (h : Shows c t) : Shows c.block (t.enter true) where
  sane := h.sane.enter true
  builtins := h.builtins
  role := h.role
  taken _ := rfl
  inGlobal := h.inGlobal
  plain := .inr (.inl rfl)

/-! ### Function literals -/

open Generator in
theorem Binds.withParams (t : SymbolTable) (params : List Name) :
    Binds (params.map (·.text)).reverse t (withParams t params) := by
  induction params generalizing t with
  | nil => exact Binds.refl t
  | cons p params ih =>
    have h := (Binds.define t p.text).trans (ih (t.define p.text).2)
    rwa [map_cons, reverse_cons]

/-- All names of the innermost scope are variables that it has defined. -/
def Plain (t : SymbolTable) : Prop := ∀ m sym, t.resolveTop? m = some sym → sym.kind.isDefined = true

theorem Plain.isSome_resolveTop? (h : t.Plain) (m : String) :
    (t.resolveTop? m).isSome = takenIn m t.root t.inner := by
  show _ = (t.resolveTop? m).any (·.kind.isDefined)
  cases hget : t.resolveTop? m with
  | none => rfl
  | some sym => exact (h m sym hget).symm

theorem plain_enter (t : SymbolTable) (block : Bool) : (t.enter block).Plain := by
  intro m sym h
  cases h

theorem resolveTop?_define (t : SymbolTable) (name m : String) :
    (t.define name).2.resolveTop? m = if m = name then some (t.define name).1 else t.resolveTop? m := by
  have hraise (t : SymbolTable) (n : Nat) : (t.raise n).top.names = t.top.names := by
    obtain ⟨inner, root, builtins⟩ := t
    cases inner with
    | nil => rfl
    | cons s rest =>
      cases hb : s.block <;> simp [raise, raiseIn, top, hb, Scope.raise]
  rw [define_eq, resolveTop?, hraise]
  obtain ⟨inner, root, builtins⟩ := t
  cases inner <;> exact Dict.get?_insert ..

theorem Plain.define (h : t.Plain) (name : String) : (t.define name).2.Plain := by
  intro m sym hget
  rw [resolveTop?_define] at hget
  split at hget
  · cases hget
    exact (kind_define t name).2
  · exact h m sym hget

open Generator in
theorem Plain.withParams (h : t.Plain) (params : List Name) : (withParams t params).Plain := by
  induction params generalizing t with
  | nil => exact h
  | cons p params ih => exact ih (h.define p.text)

open Generator in
theorem Sane.withParams (h : t.Sane) (params : List Name) : (withParams t params).Sane := by
  induction params generalizing t with
  | nil => exact h
  | cons p params ih => exact ih (h.define p.text)

open Generator in
theorem Sane.withSelf (h : t.Sane) (own : Option String) : (withSelf t own).Sane := by
  unfold Generator.withSelf
  cases own with
  | none => exact h
  | some name =>
    dsimp only
    split
    · exact h.defineFunction name
    · exact h

open Generator in
theorem around_withSelf (t : SymbolTable) (own : Option String) : t.Around (withSelf t own) := by
  unfold Generator.withSelf
  cases own with
  | none => exact (Binds.refl t).toAround
  | some name =>
    dsimp only
    split
    · exact around_bindTop t _ 0
    · exact (Binds.refl t).toAround

open Generator in
/-- **The table in which the body of a function literal is compiled.** -/
theorem Shows.literal (h : Shows c t) (params : List Name) (own : Option String) :
    Shows (c.literal (params.map (·.text)) own) ((withSelf (withParams (t.enter false) params) own).enter true) := by
  have hparams := Binds.withParams (t.enter false) params
  have haround := hparams.toAround.trans (around_withSelf _ own)
  have hplain := (plain_enter t false).withParams params
  have htaken (m : String) : ((withParams (t.enter false) params).resolveTop? m).isNone =
      !decide (m ∈ params.map (·.text)) := by
    have hfresh : takenIn m (t.enter false).root (t.enter false).inner = false := rfl
    rw [← not_isSome, hplain.isSome_resolveTop?, hparams.taken, hfresh]
    simp only [mem_reverse, Bool.or_false]
  have hrole (m : String) : roleIn m (withParams (t.enter false) params).root
      (withParams (t.enter false) params).inner =
        if m ∈ params.map (·.text) then some .var else (c.role m).map .inward := by
    rw [hparams.role, ← h.role]
    simp only [mem_reverse]
    rfl
  refine ⟨((h.sane.enter false).withParams params).withSelf own |>.enter true,
    haround.builtins.trans h.builtins, fun m => ?_, fun m => rfl, ?_, .inr (.inl rfl)⟩
  · show roleIn m (withSelf (withParams (t.enter false) params) own).root
      (withSelf (withParams (t.enter false) params) own).inner = _
    cases own with
    | none =>
      simp only [withSelf, hrole, Setting.literal, reduceCtorEq, if_false]
    | some name =>
      simp only [withSelf, htaken]
      by_cases hname : name ∈ params.map (·.text)
      · simp only [hname, decide_true, Bool.not_true, Bool.false_eq_true, if_false, hrole, Setting.literal]
        by_cases hm : m ∈ params.map (·.text)
        · simp only [hm, if_true]
        · have hne : some name ≠ some m := by
            rintro ⟨⟩
            exact hm hname
          simp only [hm, if_false, hne]
      · simp only [hname, decide_false, Bool.not_false, if_true]
        rw [show (defineFunction (withParams (t.enter false) params) name).2 =
          (withParams (t.enter false) params).bindTop ⟨name, .self, 0⟩ 0 from rfl, roleIn_bindTop, hrole]
        simp only [Setting.literal, some.injEq, eq_comm (a := name)]
        by_cases hm : m = name
        · subst hm
          simp only [if_true, hname, if_false, SymbolKind.role]
        · simp only [hm, if_false]
  · have hblocks : (withSelf (withParams (t.enter false) params) own).blocks = false :: t.blocks := haround.blocks
    have : ((withSelf (withParams (t.enter false) params) own).enter true).inner.map (·.block) =
        true :: false :: t.blocks := congrArg (true :: ·) hblocks
    rw [inGlobal_eq, this]
    rfl

/-- **The end of a function literal.** -/
theorem Binds.literal
    (h : Binds names ((Generator.withSelf (Generator.withParams (t.enter false) params) own).enter true) t') :
    Binds [] t t'.leave.2.leave.2 := by
  have haround := (Binds.withParams (t.enter false) params).toAround.trans (around_withSelf _ own)
  exact (haround.trans h.toAround.leave.toAround).leave

/-! ### Programs and modules -/

theorem foldl_defineBuiltin (bs : List (Nat × String)) (t : SymbolTable) :
    (bs.foldl (fun t b => (t.defineBuiltin b.1 b.2).2) t).builtins.toList =
        t.builtins.toList ++ bs.map (fun b => ⟨b.2, .builtin, b.1⟩) ∧
      ∀ m, ((bs.foldl (fun t b => (t.defineBuiltin b.1 b.2).2) t).root.names.get? m).map (·.kind) =
        if m ∈ bs.map (·.2) then some .builtin else (t.root.names.get? m).map (·.kind) := by
  induction bs generalizing t with
  | nil => simp
  | cons b bs ih =>
    obtain ⟨hbuiltins, hget⟩ := ih (t.defineBuiltin b.1 b.2).2
    refine ⟨?_, fun m => ?_⟩
    · rw [foldl_cons, hbuiltins]
      simp [defineBuiltin]
    · rw [foldl_cons, hget]
      by_cases hm : m ∈ bs.map (·.2)
      · rw [if_pos hm, if_pos (by simpa using Or.inr (by simpa using hm))]
      · by_cases hb : m = b.2
        · simp [defineBuiltin, Scope.bind, Dict.get?_insert, hb]
        · simp [defineBuiltin, Scope.bind, Dict.get?_insert, hb, hm]

theorem start_shows (bs : List (Nat × String)) (hbs : bs.map (·.2) = Builtin.all.map (·.name)) (m : String) :
    roleIn m (start bs).table.root [] = Setting.ofProgram.role m ∧
      takenIn m (start bs).table.root [] = false := by
  have hget := (foldl_defineBuiltin bs {}).2 m
  rw [← table_start, hbs] at hget
  constructor
  · have hrole : roleIn m (start bs).table.root [] =
        (((start bs).table.root.names.get? m).map (·.kind)).map (·.role) := by
      rw [Option.map_map]
      rfl
    rw [hrole, hget]
    simp only [Setting.ofProgram]
    split <;> rfl
  · show ((start bs).table.root.names.get? m).any (·.kind.isDefined) = false
    cases hsym : (start bs).table.root.names.get? m with
    | none => rfl
    | some sym =>
      rw [hsym, map_some] at hget
      split at hget
      · rw [any_some, some.inj hget]
        rfl
      · cases hget

theorem ofBuiltins_eq : ofBuiltins withBuiltins.builtins =
    (start (withBuiltins.builtins.toList.map fun sym => (sym.index, sym.name))).table := by
  rw [table_start, foldl_map, ofBuiltins, Array.foldl_toList]

theorem toList_withBuiltins :
    withBuiltins.builtins.toList = Builtin.all.map fun b => ⟨b.name, .builtin, b.index⟩ := by
  rfl

theorem builtins_ofBuiltins : (ofBuiltins withBuiltins.builtins).builtins = withBuiltins.builtins := by
  apply Array.toList_inj.mp
  rfl

/-- **The table of a fresh compiler.** -/
theorem Shows.program : Shows .ofProgram withBuiltins := by
  have hshows := start_shows (Builtin.all.map fun b => (b.index, b.name)) (by simp)
  obtain ⟨hfaithful, hnil⟩ := faithful_start (Builtin.all.map fun b => (b.index, b.name))
  have hsane : withBuiltins.Sane := by
    exact ⟨_, hfaithful⟩
  refine ⟨hsane, rfl, fun m => ?_, fun m => ?_, ?_, .inl hnil⟩
  · exact (hshows m).1
  · exact (hshows m).2
  · rfl

/-- **The table in which a module is compiled.** -/
theorem Shows.module : Shows .ofModule ((ofBuiltins withBuiltins.builtins).enter false) := by
  have hshows := start_shows (withBuiltins.builtins.toList.map fun sym => (sym.index, sym.name))
    (by rw [toList_withBuiltins]; simp)
  obtain ⟨hfaithful, hnil⟩ :=
    faithful_start (withBuiltins.builtins.toList.map fun sym => (sym.index, sym.name))
  have hsane : (ofBuiltins withBuiltins.builtins).Sane := by
    exact ⟨_, hfaithful⟩
  rw [← ofBuiltins_eq] at hshows hnil
  have hrole (m : String) : roleIn m (ofBuiltins withBuiltins.builtins).root [] = Setting.ofModule.role m :=
    (hshows m).1
  refine ⟨hsane.enter false, builtins_ofBuiltins, fun m => ?_, fun m => rfl, ?_, .inr (.inr ?_)⟩
  · show (roleIn m (ofBuiltins withBuiltins.builtins).root (ofBuiltins withBuiltins.builtins).inner).map Role.inward = _
    rw [hnil, hrole]
    simp only [Setting.ofModule, Setting.ofProgram]
    split <;> rfl
  · rfl
  · intro m r hr
    have hr : roleIn m (ofBuiltins withBuiltins.builtins).root (ofBuiltins withBuiltins.builtins).inner = some r := hr
    rw [hnil, hrole] at hr
    simp only [Setting.ofModule, Setting.ofProgram] at hr
    split at hr
    · exact (some.inj hr).symm
    · cases hr

end SymbolTable

end Scripting
