import Scripting.Proofs.Compile.Recipe
import Scripting.Proofs.Compile.Scope
/-!
# `Proofs.Compile.Typing` — what compiled code may refer to

Everything that a compilation makes is sound (`Context.Sound`): the constants are literals, functions of
this compilation or modules of the host, and the code of every function is a typed fragment. Code is typed
with the bounds, constants and functions there are at the moment; all of them only grow, and a typed
fragment stays typed.
-/

namespace Scripting

namespace Generator

open Code Fragment

/-- Where a compilation began: the objects there were, and the modules it can import. -/
structure Origin where
  routines : Nat
  maps : Nat
  modules : ModuleMap

variable {O : Origin} {c c' c1 c2 : Context}

/-! ## Sound contexts -/

/-- A function of this compilation that captures `n` variables. -/
structure Made (O : Origin) (h : Heap) (n : Nat) (r : Ref) : Prop where
  new : O.routines ≤ r
  lt : r < h.routines.size
  free : (h.routineAt r).free.length = n

/-- The constants that a compilation makes. -/
def Allowed (O : Origin) (h : Heap) : Value → Prop
  | .int _ | .float _ | .char _ | .str _ => True
  | .function r => ∃ n, Made O h n r
  | .map .frozen m => O.maps ≤ m ∧ m < h.maps.size ∧ ∃ name, O.modules.get? name = some (.builtin (h.mapAt m))
  | _ => False

namespace Context

/-- What code may refer to in a function with these bounds. -/
def sig (O : Origin) (c : Context) (b : Bounds) : Sig where
  locals := b.locals
  free := b.free
  constant k κ := ∃ v, c.constants[k]? = some v ∧ κ.Has v ∧ ∀ r, v = .function r → Made O c.heap 0 r
  closure k n := ∃ r, c.constants[k]? = some (.function r) ∧ Made O c.heap n r

/-- **Everything that has been made so far is sound.** -/
structure Sound (O : Origin) (c : Context) : Prop where
  table : c.table.Valid
  constants : ∀ {k : Nat} {v : Value}, c.constants[k]? = some v → Allowed O c.heap v
  modules : ∀ {name r}, c.modules.get? name = some r → Made O c.heap 0 r
  routines : ∀ {n r}, Made O c.heap n r → ∃ f, Assembled f (c.heap.routineAt r).code ∧
    Typed (c.sig O ⟨(c.heap.routineAt r).locals, n⟩) f .empty .empty
  origin : O.routines ≤ c.heap.routines.size ∧ O.maps ≤ c.heap.maps.size

/-- More constants and objects; those that were there stay as they are. -/
structure Le (c c' : Context) : Prop where
  constants : ∀ {k : Nat} {v : Value}, c.constants[k]? = some v → c'.constants[k]? = some v
  routines_size : c.heap.routines.size ≤ c'.heap.routines.size
  routines : ∀ {r}, r < c.heap.routines.size → c'.heap.routineAt r = c.heap.routineAt r
  maps_size : c.heap.maps.size ≤ c'.heap.maps.size
  maps : ∀ {r}, r < c.heap.maps.size → c'.heap.mapAt r = c.heap.mapAt r

theorem Le.of_eq (hk : c'.constants = c.constants) (hh : c'.heap = c.heap) : c.Le c' where
  constants h := by rw [hk]; exact h
  routines_size := Nat.le_of_eq (by rw [hh])
  routines _ := by rw [hh]
  maps_size := Nat.le_of_eq (by rw [hh])
  maps _ := by rw [hh]

theorem Le.refl (c : Context) : c.Le c := .of_eq rfl rfl

theorem Le.trans (h : c.Le c1) (h' : c1.Le c2) : c.Le c2 where
  constants hk := h'.constants (h.constants hk)
  routines_size := Nat.le_trans h.routines_size h'.routines_size
  routines hr := (h'.routines (Nat.lt_of_lt_of_le hr h.routines_size)).trans (h.routines hr)
  maps_size := Nat.le_trans h.maps_size h'.maps_size
  maps hr := (h'.maps (Nat.lt_of_lt_of_le hr h.maps_size)).trans (h.maps hr)

theorem Le.congr {d d' : Context} (h : c.Le c') (hk : d.constants = c.constants) (hh : d.heap = c.heap)
    (hk' : d'.constants = c'.constants) (hh' : d'.heap = c'.heap) : d.Le d' :=
  ((of_eq hk.symm hh.symm).trans h).trans (of_eq hk' hh')

theorem Le.made (hle : c.Le c') (h : Made O c.heap n r) : Made O c'.heap n r :=
  ⟨h.new, Nat.lt_of_lt_of_le h.lt hle.routines_size, by rw [hle.routines h.lt]; exact h.free⟩

theorem Le.allowed (hle : c.Le c') (h : Allowed O c.heap v) : Allowed O c'.heap v := by
  cases v with
  | function r =>
    obtain ⟨n, hm⟩ := h
    exact ⟨n, hle.made hm⟩
  | map kind m =>
    cases kind with
    | mutable => exact h
    | frozen =>
      obtain ⟨hold, hnew, name, hname⟩ := h
      exact ⟨hold, Nat.lt_of_lt_of_le hnew hle.maps_size, name, by rw [hle.maps hnew]; exact hname⟩
  | _ => exact h

theorem sig_mono (hle : c.Le c') (hb : b.Le b') : (c.sig O b).Le (c'.sig O b') where
  locals := hb.locals
  free := hb.free
  constant := by
    rintro k κ ⟨v, hv, hk, hf⟩
    exact ⟨v, hle.constants hv, hk, fun r hr => hle.made (hf r hr)⟩
  closure := by
    rintro k n ⟨r, hr, hm⟩
    exact ⟨r, hle.constants hr, hle.made hm⟩

/-- **A context stays sound as it grows**, if what is new is sound. -/
theorem Sound.extend (h : c.Sound O) (hle : c.Le c') (ht : c'.table.Valid)
    (hk : ∀ {k : Nat} {v : Value}, c'.constants[k]? = some v → c.constants[k]? = some v ∨ Allowed O c'.heap v)
    (hm : ∀ {name r}, c'.modules.get? name = some r → c.modules.get? name = some r ∨ Made O c'.heap 0 r)
    (hr : ∀ {n r}, Made O c'.heap n r → r < c.heap.routines.size ∨ ∃ f, Assembled f (c'.heap.routineAt r).code ∧
        Typed (c'.sig O ⟨(c'.heap.routineAt r).locals, n⟩) f .empty .empty) : c'.Sound O where
  table := ht
  constants hv := (hk hv).elim (fun h0 => hle.allowed (h.constants h0)) id
  modules hn := (hm hn).elim (fun h0 => hle.made (h.modules h0)) id
  routines := by
    intro n r hmade
    rcases hr hmade with hlt | hnew
    · have heq := hle.routines hlt
      obtain ⟨f, hasm, htyped⟩ := h.routines ⟨hmade.new, hlt, heq ▸ hmade.free⟩
      rw [heq]
      exact ⟨f, hasm, htyped.mono (sig_mono hle ⟨Nat.le_refl _, Nat.le_refl _⟩)⟩
    · exact hnew
  origin := ⟨Nat.le_trans h.origin.1 hle.routines_size, Nat.le_trans h.origin.2 hle.maps_size⟩

theorem Sound.withTable (h : c.Sound O) (ht : t.Valid) : Sound O { c with table := t } :=
  ⟨ht, h.constants, h.modules, h.routines, h.origin⟩

end Context

/-! ## Constants -/

def Context.withConstant (c : Context) (v : Value) : Context := { c with constants := c.constants.push v }

theorem Context.le_withConstant (c : Context) (v : Value) : c.Le (c.withConstant v) where
  constants := by
    intro k w h
    have hlt : k < c.constants.size := (Array.getElem?_eq_some_iff.mp h).1
    simp only [withConstant, Array.getElem?_push, Nat.ne_of_lt hlt]
    exact h
  routines_size := Nat.le_refl _
  routines _ := rfl
  maps_size := Nat.le_refl _
  maps _ := rfl

theorem Context.Sound.withConstant (h : c.Sound O) (hv : Allowed O c.heap v) : (c.withConstant v).Sound O := by
  refine h.extend (c.le_withConstant v) h.table ?_ .inl fun hm => .inl hm.lt
  intro k w hk
  simp only [Context.withConstant, Array.getElem?_push] at hk
  split at hk
  · cases hk
    exact .inr hv
  · exact .inl hk

theorem Context.pushes (hκ : κ.Has v) (hr : ∀ r, v = .function r → Made O c.heap 0 r) :
    Effect ((c.withConstant v).sig O b) ⟨.constant, [c.constants.size]⟩ ⟨ks, 0⟩ ⟨κ :: ks, 0⟩ :=
  .constant ⟨v, by simp [withConstant], hκ, hr⟩

theorem allowed_of_isLiteral (h : v.isLiteral = true) (heap : Heap) : Allowed O heap v ∧ ∀ r, v ≠ .function r := by
  cases v <;> first | exact ⟨trivial, nofun⟩ | cases h

/-! ## Functions -/

theorem withParams_valid (params : List Name) : ∀ {t : SymbolTable}, t.Valid →
    (withParams t params).Valid ∧ t.Le (withParams t params) := by
  induction params with
  | nil => exact fun h => ⟨h, .refl _⟩
  | cons p ps ih =>
    intro t h
    obtain ⟨hv, hle, -⟩ := SymbolTable.define_valid h p.text
    obtain ⟨hv', hle'⟩ := ih hv
    exact ⟨hv', hle.trans hle'⟩

theorem withSelf_valid (h : t.Valid) (self : Option String) : (withSelf t self).Valid ∧ t.Le (withSelf t self) := by
  unfold withSelf
  cases self with
  | none => exact ⟨h, .refl _⟩
  | some name =>
    dsimp only
    split
    · exact SymbolTable.defineFunction_valid h name
    · exact ⟨h, .refl _⟩

theorem typed_captureCode (ks : List Kind) : ∀ (syms : List Symbol) (p : Nat),
    (∀ sym ∈ syms, sym.Valid ⟨Λ.locals, Λ.free⟩ ∧ sym.isEverywhere = false) →
      Typed Λ (captureCode syms) ⟨ks, p⟩ ⟨ks, p + syms.length⟩
  | [], p, _ => .nil
  | sym :: rest, p, h => by
    obtain ⟨hv, hne⟩ := h sym (by simp)
    have hrest := typed_captureCode ks rest (p + 1) fun s hs => h s (by simp [hs])
    have hlen : p + 1 + rest.length = p + (sym :: rest).length := by simp; omega
    refine .seq (.op (.capture ?_)) (hlen ▸ hrest)
    unfold captureOp
    cases hk : sym.kind with
    | localVar => exact hv.local_lt hk
    | captured => exact hv.captured_lt hk
    | self => trivial
    | globalVar => simp [Symbol.isEverywhere, hk] at hne
    | builtin => simp [Symbol.isEverywhere, hk] at hne

theorem typed_functionCode (h : ∀ sym ∈ syms, sym.Valid ⟨Λ.locals, Λ.free⟩ ∧ sym.isEverywhere = false)
    (hconst : syms = [] → Λ.constant k .any) (hclosure : Λ.closure k syms.length) :
    Typed Λ (functionCode k syms) ⟨ks, 0⟩ ⟨.any :: ks, 0⟩ := by
  unfold functionCode
  split
  · rename_i hnil
    exact .op (.constant (hconst (List.isEmpty_iff.mp hnil)))
  · have hcap := typed_captureCode ks syms 0 h
    rw [Nat.zero_add] at hcap
    exact .seq hcap (.op (.closure hclosure))

def Context.withHeapRoutine (c : Context) (r : Routine) : Context := { c with heap := (c.heap.newFunction r).2 }

theorem Context.le_withHeapRoutine (c : Context) (r : Routine) : c.Le (c.withHeapRoutine r) where
  constants := id
  routines_size := by simp [withHeapRoutine, Heap.newFunction]
  routines hs := by
    show (c.heap.newFunction r).2.routineAt _ = _
    rw [routineAt_newFunction, if_neg (Nat.ne_of_lt hs)]
  maps_size := Nat.le_refl _
  maps _ := rfl

/-- **A routine with typed code is made.** -/
theorem Context.Sound.withHeapRoutine (h : c.Sound O) (hasm : Assembled f r.code)
    (hf : Typed (c.sig O ⟨r.locals, r.free.length⟩) f .empty .empty) :
    (c.withHeapRoutine r).Sound O ∧ Made O (c.withHeapRoutine r).heap r.free.length (c.heap.newFunction r).1 := by
  have hle := c.le_withHeapRoutine r
  have hat : (c.withHeapRoutine r).heap.routineAt c.heap.routines.size = r := by
    show (c.heap.newFunction r).2.routineAt _ = _
    rw [routineAt_newFunction, if_pos rfl]
  have hsize : (c.withHeapRoutine r).heap.routines.size = c.heap.routines.size + 1 := by
    simp [Context.withHeapRoutine, Heap.newFunction]
  refine ⟨h.extend hle h.table .inl .inl fun {n s} hm => ?_, ⟨h.origin.1, ?_, ?_⟩⟩
  · rcases Nat.lt_succ_iff_lt_or_eq.mp (hsize ▸ hm.lt) with hlt | rfl
    · exact .inl hlt
    · have hfree := hm.free
      rw [hat] at hfree ⊢
      subst hfree
      exact .inr ⟨f, hasm, hf.mono (sig_mono hle ⟨Nat.le_refl _, Nat.le_refl _⟩)⟩
  · rw [hsize]
    exact Nat.lt_succ_self _
  · show ((c.withHeapRoutine r).heap.routineAt c.heap.routines.size).free.length = _
    rw [hat]

theorem typed_returning (hf : Typed Λ f .empty .empty) : Typed Λ (returning exits f) .empty .empty := by
  unfold returning
  split
  · exact hf
  · exact .seq hf .ret

/-! ## Modules -/

def Context.withFrozenMap (c : Context) (d : Dict Value) : Context := { c with heap := (c.heap.newMap .frozen d).2 }

theorem mapAt_newMap (h : Heap) (d : Dict Value) (r : Ref) :
    (h.newMap .frozen d).2.mapAt r = if r = h.maps.size then d else h.mapAt r := by
  simp only [Heap.newMap, Heap.mapAt, Array.getD_eq_getD_getElem?, Array.getElem?_push]
  split <;> rfl

theorem Context.le_withFrozenMap (c : Context) (d : Dict Value) : c.Le (c.withFrozenMap d) where
  constants := id
  routines_size := Nat.le_refl _
  routines _ := rfl
  maps_size := by simp [withFrozenMap, Heap.newMap]
  maps hs := by
    show (c.heap.newMap .frozen d).2.mapAt _ = _
    rw [mapAt_newMap, if_neg (Nat.ne_of_lt hs)]

theorem Context.Sound.withFrozenMap {name : String} {d : Dict Value} (h : c.Sound O)
    (hd : O.modules.get? name = some (.builtin d)) :
    (c.withFrozenMap d).Sound O ∧ Allowed O (c.withFrozenMap d).heap (c.heap.newMap .frozen d).1 := by
  refine ⟨h.extend (c.le_withFrozenMap d) h.table .inl .inl fun hm => .inl hm.lt, h.origin.2, ?_, name, ?_⟩
  · show c.heap.maps.size < (c.heap.newMap .frozen d).2.maps.size
    simp [Heap.newMap]
  · show _ = some (Module.builtin ((c.heap.newMap .frozen d).2.mapAt c.heap.maps.size))
    rw [mapAt_newMap, if_pos rfl, hd]

theorem Emits.newFrozenMap (d : Dict Value) : Emits (newFrozenMap d) fun c v c' f =>
    f = .nil ∧ v = (c.heap.newMap .frozen d).1 ∧ c' = c.withFrozenMap d :=
  Emits.modifyGet (fun _ => ⟨rfl, rfl, rfl⟩) (fun _ => rfl) fun _ => .idle rfl

end Generator

end Scripting
