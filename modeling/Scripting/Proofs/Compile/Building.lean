import Scripting.Proofs.Compile.Typing
/-!
# `Proofs.Compile.Building` — how compiled code is put together

Whatever the program, its code is put together in a few ways: instructions that refer to nothing,
constants, loads and stores of symbols that were resolved or defined, sequences, blocks, conditional jumps,
loops, and functions with code of their own. `Builds` is the inductive relation with one rule for each, and
`makes_stmts` says that every statement list is compiled by these rules.

So what holds of all compiled code can be proved by induction on the rules. The syntax tree is gone; what
is left is the fragment, the contexts and the operand stacks before and after, and whether control can go past the
end.
-/

namespace Scripting

open Code Generator List Option

/-! ## Instructions -/

/-- The instruction that pushes what a symbol stands for. -/
def Symbol.loadOp (sym : Symbol) : Instruction :=
  match sym.kind with
  | .globalVar => ⟨.getGlobal, [sym.index]⟩
  | .localVar => ⟨.getLocal, [sym.index]⟩
  | .captured => ⟨.getFree, [sym.index]⟩
  | .builtin => ⟨.getBuiltin, [sym.index]⟩
  | .self => ⟨.currentFunc, []⟩

/-- The instructions that pop a value into a variable or into a part of it. A new local variable is a
binding of its own. -/
def Symbol.StoredBy (sym : Symbol) (i : Instruction) : Prop :=
  match sym.kind with
  | .globalVar => i = ⟨.setGlobal, [sym.index]⟩ ∨ ∃ n, i = ⟨.setSelGlobal, [sym.index, n]⟩
  | .localVar => i = ⟨.defineLocal, [sym.index]⟩ ∨ i = ⟨.setLocal, [sym.index]⟩ ∨
    ∃ n, i = ⟨.setSelLocal, [sym.index, n]⟩
  | .captured => i = ⟨.setFree, [sym.index]⟩ ∨ ∃ n, i = ⟨.setSelFree, [sym.index, n]⟩
  | .builtin | .self => False

namespace Generator

open Fragment Context

variable {M : ModuleMap} {c c' c1 c2 : Context} {pos : Pos}

/-! ## The rules -/

/-- The context inside the body of a function literal. -/
def Context.inLiteral (c : Context) (params : List Name) (self : Option String) : Context :=
  { c with table := (withSelf (withParams (c.table.enter false) params) self).enter true }

/-- The context after the body of a function literal, with its routine among the constants. -/
def Context.afterLiteral (c1 : Context) (params : List Name) (variadic : Bool) (scope : CodeScope) : Context :=
  c1.leave.leave.withRoutine (literalRoutine params variadic scope c1.leave.table.leave.1)

/-- The routine of a module whose body has been compiled. -/
def Context.moduleRoutine (c1 : Context) (scope : CodeScope) : Routine :=
  Generator.moduleRoutine scope c1.table.leave.1.locals

/-- The context after the body of a module, back where it is imported. -/
def Context.afterModule (c1 : Context) (table : SymbolTable) (scope : CodeScope) (modules : Dict Ref) : Context :=
  { c1 with table, heap := (c1.heap.newFunction (c1.moduleRoutine scope)).2, modules }

def moduleCall (constant : Nat) : Fragment := .seq (.op ⟨.constant, [constant]⟩) (.op ⟨.call, [0, 0]⟩)

/-- **How code is put together.** `Builds M held σ c f exits τ c'`: from context `c` to `c'`, with the symbols
`held` in hand, the fragment `f` is built, which turns the operand stack `σ` into `τ`; if it `exits`, control never
goes past its end. -/
inductive Builds (M : ModuleMap) : List Symbol → List Kind → Context → Fragment → Bool → List Kind → Context → Prop
  | nil {held σ c} : Builds M held σ c .nil false σ c
  | plain {held σ τ c i} (h : i.op.isPlain = true) (ht : ∀ Λ, Effect Λ i ⟨σ, 0⟩ ⟨τ, 0⟩) :
    Builds M held σ c (.op i) false τ c
  | ret {held σ c} (h : σ.length ≤ 1) : Builds M held σ c (.op ⟨.ret, [σ.length]⟩) true [] c
  | literal {held σ c v κ} (h : v.isLiteral = true) (hκ : κ.Has v) :
    Builds M held σ c (.op ⟨.constant, [c.constants.size]⟩) false (κ :: σ) (c.withConstant v)
  | attributes {held σ c name d} (h : M.get? name = some (.builtin d)) :
    Builds M held σ c (.op ⟨.constant, [c.constants.size]⟩) false (.any :: σ)
      ((c.withFrozenMap d).withConstant (c.heap.newMap .frozen d).1)
  | load {held σ c sym} (h : sym ∈ held) : Builds M held σ c (.op sym.loadOp) false (.any :: σ) c
  | store {held σ τ c sym i} (h : sym ∈ held) (hs : sym.StoredBy i)
    (ht : ∀ Λ : Sig, sym.Valid ⟨Λ.locals, Λ.free⟩ → Effect Λ i ⟨σ, 0⟩ ⟨τ, 0⟩) :
    Builds M held σ c (.op i) false τ c
  /-- A name is looked up, and its symbol is in hand from then on. -/
  | resolve {held σ τ c c1 c2 name sym f exits} (h : Resolved name c (some sym) c1)
    (hf : Builds M (sym :: held) σ c1 f exits τ c2) : Builds M held σ c f exits τ c2
  /-- A variable is defined, and its symbol is in hand from then on. -/
  | define {held σ τ c c2 name f exits}
    (hf : Builds M ((c.table.define name).1 :: held) σ { c with table := (c.table.define name).2 } f exits τ c2) :
    Builds M held σ c f exits τ c2
  | seq {held σ τ υ c c1 c2 f g exits} (hf : Builds M held σ c f false τ c1) (hg : Builds M held τ c1 g exits υ c2) :
    Builds M held σ c (.seq f g) exits υ c2
  /-- Nobody asks whether control goes past the end. -/
  | forget {held σ τ c c' f} (hf : Builds M held σ c f true τ c') : Builds M held σ c f false τ c'
  | block {held σ τ c c' f exits} (hf : Builds M held σ c.enter f exits τ c') : Builds M held σ c f exits τ c'.leave
  /-- The value that decides stays on the stack, unless it decides about a statement. -/
  | skip {held σ τ c c' kind f exits κ} (hk : kind = .falsy ∧ τ = σ ∨ kind ≠ .falsy ∧ τ = .any :: σ)
    (hf : Builds M held σ c f exits τ c') : Builds M held (κ :: σ) c (.skip kind f) false τ c'
  | fork {held σ τ c c1 c2 yes no exits exits' κ} (hj : exits = true → τ = σ)
    (hy : Builds M held σ c yes exits τ c1) (hn : Builds M held σ c1 no exits' τ c2) :
    Builds M held (κ :: σ) c (.fork yes (!exits) no) (exits && exits') τ c2
  /-- The way back is left out if the body neither reaches its end nor goes on to the next round. What is left out is
  built from nothing. -/
  | loop {held c c1 c2 c3 tested exits test body post}
    (ht : Builds M held [] c test false (if tested then [.any] else []) c1)
    (hb : Builds M held [] c1 body exits [] c2) (hp : Builds M held [] c2 post false [] c3) :
    Builds M held [] c (.loop tested test body (!exits || body.leaves .next) post)
      (!tested && !body.leaves .done) [] c3
  | exit {held c e} : Builds M held [] c (.exit e) true [] c
  /-- A function literal: no symbol from outside is in hand in its body. -/
  | function {held σ c c1 params variadic self f exits scope}
    (hf : Builds M [] [] (c.inLiteral params self) f exits [] c1) (ha : Assembled (returning exits f) scope.code) :
    Builds M held σ c (functionCode c1.constants.size c1.leave.table.leave.1.captures) false (.any :: σ)
      (c1.afterLiteral params variadic scope)
  /-- A source module that has been compiled before. -/
  | imported {held σ c name r} (h : c.modules.get? name = some r) :
    Builds M held σ c (moduleCall c.constants.size) false (.any :: σ) (c.withConstant (.function r))
  /-- A source module that is compiled now. -/
  | module {held σ c c1 name f exits scope modules} (hf : Builds M [] [] c.enterModule f exits [] c1)
    (ha : Assembled (returning exits f) scope.code)
    (hm : modules = c1.modules ∨ modules = c1.modules.insert name (c1.heap.newFunction (c1.moduleRoutine scope)).1) :
    Builds M held σ c (moduleCall c1.constants.size) false (.any :: σ)
      ((c1.afterModule c.table scope modules).withConstant
        (.function (c1.heap.newFunction (c1.moduleRoutine scope)).1))

theorem Context.le_withRoutine (c : Context) (r : Routine) : c.Le (c.withRoutine r) :=
  (c.le_withHeapRoutine r).trans (le_withConstant ..)

theorem Resolved.resolve_eq (h : Resolved name c (some sym) c') :
    ∃ n t, c.table.resolve name = some (sym, n, t) ∧ c' = { c with table := t } := by
  unfold Resolved at h
  cases hr : c.table.resolve name with
  | none =>
    rw [hr] at h
    cases h.1
  | some p =>
    obtain ⟨s, n, t⟩ := p
    rw [hr] at h
    obtain ⟨hs, rfl⟩ := h
    cases hs
    exact ⟨n, t, rfl, rfl⟩

/-- **Constants and objects are only added.** -/
theorem Builds.le (h : Builds M held σ c f exits τ c') : c.Le c' := by
  induction h with
  | nil | plain | ret | load | store | exit => exact .refl _
  | literal => exact le_withConstant ..
  | attributes => exact (le_withFrozenMap ..).trans (le_withConstant _ _)
  | resolve hr _ ih =>
    obtain ⟨n, t, -, rfl⟩ := hr.resolve_eq
    exact ih.congr rfl rfl rfl rfl
  | define _ ih => exact ih.congr rfl rfl rfl rfl
  | seq _ _ ihf ihg => exact ihf.trans ihg
  | forget _ ih => exact ih
  | block _ ih => exact ih.congr rfl rfl rfl rfl
  | skip _ _ ih => exact ih
  | fork _ _ _ ihy ihn => exact ihy.trans ihn
  | loop _ _ _ iht ihb ihp => exact (iht.trans ihb).trans ihp
  | @function held σ c c1 params variadic self f exits scope _ _ ih =>
    have hbody : c.Le c1.leave.leave := ih.congr rfl rfl rfl rfl
    exact hbody.trans (le_withRoutine ..)
  | imported => exact le_withConstant ..
  | @module held σ c c1 name f exits scope modules _ _ _ ih =>
    have hbody : c.Le (c1.afterModule c.table scope modules) :=
      (ih.trans (c1.le_withHeapRoutine (c1.moduleRoutine scope))).congr rfl rfl rfl rfl
    exact hbody.trans (le_withConstant ..)

/-! ## The functions among the constants -/

namespace Context

variable {Q R : Bytes → Prop}

/-- Every function that became a constant on the way from `c` to `c'` has code with the property `Q`. -/
def Gives (c c' : Context) (Q : Bytes → Prop) : Prop :=
  ∀ (k : Nat) (r : Ref), c.constants.size ≤ k → c'.constants[k]? = some (.function r) →
    r < c'.heap.routines.size ∧ Q (c'.heap.routineAt r).code

/-- The functions of the modules that have been compiled have code with the property `Q`. -/
def ModulesHave (c : Context) (Q : Bytes → Prop) : Prop := ∀ (name : String) (r : Ref), c.modules.get? name = some r →
    r < c.heap.routines.size ∧ Q (c.heap.routineAt r).code

theorem Le.constants_size (h : c.Le c') : c.constants.size ≤ c'.constants.size := by
  by_contra hlt
  have hlt : c'.constants.size < c.constants.size := Nat.lt_of_not_le hlt
  have hk := h.constants (Array.getElem?_eq_getElem hlt)
  rw [Array.getElem?_eq_none (Nat.le_refl _)] at hk
  cases hk

theorem Gives.nothing (h : c'.constants = c.constants) : c.Gives c' Q := by
  intro k r hk hr
  rw [h, Array.getElem?_eq_none hk] at hr
  cases hr

theorem Gives.trans (h : c.Gives c1 Q) (h' : c1.Gives c2 Q) (hle : c1.Le c2) : c.Gives c2 Q := by
  intro k r hk hr
  by_cases hlt : k < c1.constants.size
  · have hold := hle.constants (Array.getElem?_eq_getElem hlt)
    rw [hr] at hold
    obtain ⟨hr1, hQ⟩ := h k r hk (by rw [Array.getElem?_eq_getElem hlt, hold])
    refine ⟨Nat.lt_of_lt_of_le hr1 hle.routines_size, ?_⟩
    rw [hle.routines hr1]
    exact hQ
  · exact h' k r (Nat.le_of_not_lt hlt) hr

theorem Gives.imp (h : c.Gives c' Q) (hQ : ∀ code, Q code → R code) : c.Gives c' R := by
  intro k r hk hr
  obtain ⟨hlt, hcode⟩ := h k r hk hr
  exact ⟨hlt, hQ _ hcode⟩

theorem Gives.congr {d d' : Context} (h : c.Gives c' Q) (hk : d.constants = c.constants)
    (hk' : d'.constants = c'.constants) (hh' : d'.heap = c'.heap) : d.Gives d' Q := by
  unfold Gives at h ⊢
  rw [hk, hk', hh']
  exact h

theorem Gives.withConstant (hv : ∀ r, v = .function r → r < c.heap.routines.size ∧ Q (c.heap.routineAt r).code) :
    c.Gives (c.withConstant v) Q := by
  intro k r hk hr
  have hpush : (c.constants.push v)[k]? = some (.function r) := hr
  rw [Array.getElem?_push] at hpush
  split at hpush
  · exact hv r (some.inj hpush)
  · rw [Array.getElem?_eq_none hk] at hpush
    cases hpush

theorem routineAt_withHeapRoutine (c : Context) (r : Routine) :
    (c.withHeapRoutine r).heap.routineAt (c.heap.newFunction r).1 = r := by
  show (c.heap.newFunction r).2.routineAt c.heap.routines.size = r
  rw [routineAt_newFunction, if_pos rfl]

theorem lt_withHeapRoutine (c : Context) (r : Routine) :
    (c.heap.newFunction r).1 < (c.withHeapRoutine r).heap.routines.size := by
  simp [withHeapRoutine, Heap.newFunction]

theorem Gives.withRoutine (hr : Q r.code) : c.Gives (c.withRoutine r) Q := by
  have hnew : (c.withHeapRoutine r).Gives (c.withRoutine r) Q := by
    refine Gives.withConstant fun r' hr' => ?_
    cases hr'
    refine ⟨c.lt_withHeapRoutine r, ?_⟩
    rw [routineAt_withHeapRoutine]
    exact hr
  exact hnew.congr rfl rfl rfl

theorem ModulesHave.le (h : c.ModulesHave Q) (hle : c.Le c') (hm : c'.modules = c.modules) : c'.ModulesHave Q := by
  intro name r hr
  rw [hm] at hr
  obtain ⟨hlt, hQ⟩ := h name r hr
  refine ⟨Nat.lt_of_lt_of_le hlt hle.routines_size, ?_⟩
  rw [hle.routines hlt]
  exact hQ

/-- A module has been compiled, and may have been entered in the list. -/
theorem ModulesHave.afterModule {scope : CodeScope} {table : SymbolTable} {modules : Dict Ref}
    (h : c.ModulesHave Q) (hQ : Q scope.code)
    (hm : modules = c.modules ∨ modules = c.modules.insert name (c.heap.newFunction (c.moduleRoutine scope)).1) :
    (c.afterModule table scope modules).ModulesHave Q := by
  have hold : (c.withHeapRoutine (c.moduleRoutine scope)).ModulesHave Q := h.le (c.le_withHeapRoutine _) rfl
  rcases hm with rfl | rfl
  · exact hold
  · intro name' r hr
    have hr' : (c.modules.insert name _).get? name' = some r := hr
    rw [Dict.get?_insert] at hr'
    split at hr'
    · cases hr'
      refine ⟨c.lt_withHeapRoutine _, ?_⟩
      show Q ((c.withHeapRoutine (c.moduleRoutine scope)).heap.routineAt _).code
      rw [routineAt_withHeapRoutine]
      exact hQ
    · exact hold name' r hr'

end Context

/-- **What holds of all code that is put together by the rules** holds of every function among the
constants. -/
theorem Builds.gives (hQ : ∀ {held σ τ c c' f exits code},
      Builds M held σ c f exits τ c' → Assembled (returning exits f) code → Q code)
    (h : Builds M held σ c f exits τ c') (hm : c.ModulesHave Q) : c.Gives c' Q ∧ c'.ModulesHave Q := by
  induction h with
  | nil | plain | ret | load | store | exit => exact ⟨.nothing rfl, hm⟩
  | literal hv =>
    refine ⟨.withConstant fun r hr => ?_, hm⟩
    rw [hr] at hv
    cases hv
  | @attributes held σ c name d hd =>
    have hmap : (c.withFrozenMap d).Gives ((c.withFrozenMap d).withConstant (c.heap.newMap .frozen d).1) Q :=
      .withConstant fun r hr => by cases hr
    have hm' : (c.withFrozenMap d).ModulesHave Q := hm.le (c.le_withFrozenMap d) rfl
    exact ⟨hmap.congr rfl rfl rfl, hm'⟩
  | resolve hr _ ih =>
    obtain ⟨n, t, -, rfl⟩ := hr.resolve_eq
    obtain ⟨hg, hm'⟩ := ih hm
    exact ⟨hg.congr rfl rfl rfl, hm'⟩
  | define _ ih =>
    obtain ⟨hg, hm'⟩ := ih hm
    exact ⟨hg.congr rfl rfl rfl, hm'⟩
  | seq _ hg ihf ihg =>
    obtain ⟨hf, hm1⟩ := ihf hm
    obtain ⟨hg', hm2⟩ := ihg hm1
    exact ⟨hf.trans hg' hg.le, hm2⟩
  | forget _ ih => exact ih hm
  | block _ ih =>
    obtain ⟨hg, hm'⟩ := ih hm
    exact ⟨hg.congr rfl rfl rfl, hm'⟩
  | skip _ _ ih => exact ih hm
  | fork _ _ hn ihy ihn =>
    obtain ⟨hy, hm1⟩ := ihy hm
    obtain ⟨hn', hm2⟩ := ihn hm1
    exact ⟨hy.trans hn' hn.le, hm2⟩
  | loop _ hb hp iht ihb ihp =>
    obtain ⟨htest, hm1⟩ := iht hm
    obtain ⟨hbody, hm2⟩ := ihb hm1
    obtain ⟨hpost, hm3⟩ := ihp hm2
    exact ⟨(htest.trans hbody hb.le).trans hpost hp.le, hm3⟩
  | @function held σ c c1 params variadic self f exits scope hf ha ih =>
    obtain ⟨hg, hm'⟩ := ih hm
    have hbody : c.Gives c1.leave.leave Q := hg.congr rfl rfl rfl
    have hm1 : c1.leave.leave.ModulesHave Q := hm'
    exact ⟨hbody.trans (.withRoutine (hQ hf ha)) (le_withRoutine ..),
      hm1.le (le_withRoutine ..) rfl⟩
  | @imported held σ c name r hr =>
    refine ⟨.withConstant fun r' hr' => ?_, hm⟩
    cases hr'
    exact hm name r hr
  | @module held σ c c1 name f exits scope modules hf ha hmods ih =>
    obtain ⟨hg, hm'⟩ := ih hm
    have hle : c1.Le (c1.withHeapRoutine (c1.moduleRoutine scope)) := c1.le_withHeapRoutine _
    have hnone : c1.Gives (c1.withHeapRoutine (c1.moduleRoutine scope)) Q := .nothing rfl
    have hafter : c.Gives (c1.afterModule c.table scope modules) Q := (hg.trans hnone hle).congr rfl rfl rfl
    have hmodules : (c1.afterModule c.table scope modules).ModulesHave Q := hm'.afterModule (hQ hf ha) hmods
    refine ⟨hafter.trans (.withConstant fun r hr => ?_) (le_withConstant ..), hmodules⟩
    cases hr
    refine ⟨c1.lt_withHeapRoutine _, ?_⟩
    show Q ((c1.withHeapRoutine (c1.moduleRoutine scope)).heap.routineAt _).code
    rw [routineAt_withHeapRoutine]
    exact hQ hf ha

/-! ## Steps that build -/

/-- The step builds code that exchanges `e`, whatever else is in hand and on the stack; its result may say that the
code exits. -/
abbrev Makes (M : ModuleMap) (held : List Symbol) (e : Exchange) {α : Type} (exits : α → Bool) (x : Gen α) : Prop :=
  Emits x fun c a c' f => ∀ held' ks, held ⊆ held' → (e.deep = false → ks = []) →
    Builds M held' (e.takes ++ ks) c f (exits a) (e.gives ++ ks) c'

section

variable {held : List Symbol} {α β : Type} {exits : β → Bool}

theorem Makes.mono (hx : Makes M held e exits x) (h : held ⊆ held1) : Makes M held1 e exits x :=
  hx.weaken fun _ _ _ _ hf held' ks hsub => hf held' ks (Subset.trans h hsub)

theorem Makes.frame (hx : Makes M held ⟨xs, ys, true⟩ exits x) (zs : List Kind) :
    Makes M held ⟨xs ++ zs, ys ++ zs, true⟩ exits x := by
  refine hx.weaken fun _ _ _ _ hf held' ks hsub _ => ?_
  rw [append_assoc, append_assoc]
  exact hf held' (zs ++ ks) hsub (by rintro ⟨⟩)

theorem Makes.bind (hx : Makes M held ⟨xs, ys, deep⟩ goesOn x) (hk : ∀ a, Makes M held ⟨ys, zs, deep⟩ exits (k a)) :
    Makes M held ⟨xs, zs, deep⟩ exits (x >>= k) :=
  Emits.bind hx hk fun _ _ _ _ _ _ _ hf hg held' ks hsub hks => .seq (hf held' ks hsub hks) (hg held' ks hsub hks)

theorem Makes.pure (a : β) (h : exits a = false) : Makes M held ⟨xs, xs, deep⟩ exits (Pure.pure a) :=
  Emits.pure a fun _ _ _ _ _ => h ▸ .nil

theorem Makes.plain {op : Opcode} {operands : List Nat} (hlen : operands.length = op.widths.length)
    (h : op.isPlain = true) (ht : ∀ Λ ks, Effect Λ ⟨op, operands⟩ ⟨xs ++ ks, 0⟩ ⟨ys ++ ks, 0⟩) :
    Makes M held ⟨xs, ys, true⟩ goesOn (emit_ pos op operands) :=
  (Emits.emit_ pos op operands hlen).weaken fun _ _ _ _ hj _ ks _ _ => by
    obtain ⟨rfl, rfl⟩ := hj
    exact .plain h fun Λ => ht Λ ks

theorem Makes.literal (h : v.isLiteral = true) (hκ : κ.Has v) :
    Makes M held ⟨[], [κ], true⟩ goesOn (emitConstant pos v) :=
  (Emits.emitConstant pos v).weaken fun _ _ _ _ hj _ _ _ _ => by
    obtain ⟨rfl, rfl⟩ := hj
    exact .literal h hκ

theorem Makes.inBlock (hx : Makes M held e exits x) : Makes M held e exits (inBlock x) :=
  Emits.inBlock hx fun _ _ _ _ hf held' ks hsub hks => .block (hf held' ks hsub hks)

theorem Makes.discard (hx : Makes M held e exits x) : Makes M held e goesOn (Functor.discard x) := by
  refine Emits.discard hx fun c a c' f hf held' ks hsub hks => ?_
  have hbuilt := hf held' ks hsub hks
  cases he : exits a with
  | false =>
    rw [he] at hbuilt
    exact hbuilt
  | true =>
    rw [he] at hbuilt
    exact .forget hbuilt

/-! ## Variables -/

theorem Makes.emitLoad (h : sym ∈ held) : Makes M held .value goesOn (emitLoad pos sym) := by
  have hop {op : Opcode} {operands : List Nat} (hlen : operands.length = op.widths.length)
      (heq : sym.loadOp = ⟨op, operands⟩) : Makes M held .value goesOn (emit_ pos op operands) :=
    (Emits.emit_ pos op operands hlen).weaken fun _ _ _ _ hj held' ks hsub _ => by
      obtain ⟨rfl, rfl⟩ := hj
      rw [← heq]
      exact .load (hsub h)
  unfold Generator.emitLoad
  cases hk : sym.kind with
  | globalVar => exact hop rfl (by rw [Symbol.loadOp, hk])
  | localVar => exact hop rfl (by rw [Symbol.loadOp, hk])
  | captured => exact hop rfl (by rw [Symbol.loadOp, hk])
  | builtin => exact hop rfl (by rw [Symbol.loadOp, hk])
  | self => exact hop rfl (by rw [Symbol.loadOp, hk])

theorem Makes.storedBy (h : sym ∈ held) {op : Opcode} (hlen : operands.length = op.widths.length)
    (hs : sym.StoredBy ⟨op, operands⟩)
    (ht : ∀ (Λ : Sig) ks, sym.Valid ⟨Λ.locals, Λ.free⟩ → Effect Λ ⟨op, operands⟩ ⟨xs ++ ks, 0⟩ ⟨ks, 0⟩) :
    Makes M held ⟨xs, [], true⟩ goesOn (emit_ pos op operands) :=
  (Emits.emit_ pos op operands hlen).weaken fun _ _ _ _ hj held' ks hsub _ => by
    obtain ⟨rfl, rfl⟩ := hj
    exact .store (hsub h) hs fun Λ => ht Λ ks

/-- The selectors of an assignment to a part are on top of the value. -/
theorem effect_storePart (h : Λ.StoresPart i n) : Effect Λ i ⟨replicate n .any ++ [.any] ++ ks, 0⟩ ⟨ks, 0⟩ := by
  rw [append_assoc]
  exact .storePart (by rw [length_replicate]; exact h)

theorem Makes.emitStore (h : sym ∈ held) (op : Operator) (n : Nat) :
    Makes M held ⟨replicate n .any ++ [.any], [], true⟩ goesOn (emitStore pos op sym n) := by
  unfold Generator.emitStore
  cases hk : sym.kind with
  | globalVar =>
    cases n with
    | zero =>
      exact Makes.storedBy h rfl (by rw [Symbol.StoredBy, hk]; exact .inl rfl) fun Λ ks _ => .store trivial
    | succ n =>
      exact Makes.storedBy h rfl (by rw [Symbol.StoredBy, hk]; exact .inr ⟨_, rfl⟩) fun Λ ks _ =>
        effect_storePart ⟨rfl, Nat.succ_pos n⟩
  | localVar =>
    cases n with
    | zero =>
      by_cases hop : op = .define
      · simp only [hop]
        exact Makes.storedBy h rfl (by rw [Symbol.StoredBy, hk]; exact .inl rfl) fun Λ ks hv =>
          .store (hv.local_lt hk)
      · simp only [hop]
        exact Makes.storedBy h rfl (by rw [Symbol.StoredBy, hk]; exact .inr (.inl rfl)) fun Λ ks hv =>
          .store (hv.local_lt hk)
    | succ n =>
      exact Makes.storedBy h rfl (by rw [Symbol.StoredBy, hk]; exact .inr (.inr ⟨_, rfl⟩)) fun Λ ks hv =>
        effect_storePart ⟨hv.local_lt hk, rfl, Nat.succ_pos n⟩
  | captured =>
    cases n with
    | zero =>
      exact Makes.storedBy h rfl (by rw [Symbol.StoredBy, hk]; exact .inl rfl) fun Λ ks hv =>
        .store (hv.captured_lt hk)
    | succ n =>
      exact Makes.storedBy h rfl (by rw [Symbol.StoredBy, hk]; exact .inr ⟨_, rfl⟩) fun Λ ks hv =>
        effect_storePart ⟨hv.captured_lt hk, rfl, Nat.succ_pos n⟩
  | builtin => exact Emits.throw _
  | self => exact Emits.throw _

theorem Makes.resolve? (hnone : ∃ e, k none = throw e) (hk : ∀ sym, Makes M (sym :: held) e exits (k (some sym))) :
    Makes M held e exits (resolve? name >>= k) := by
  refine Emits.bind_silent (Emits.resolve? name) (Q := fun found c b c' f => ∃ sym, found = some sym ∧
    ∀ held' ks, sym :: held ⊆ held' → (e.deep = false → ks = []) →
      Builds M held' (e.takes ++ ks) c f (exits b) (e.gives ++ ks) c') (fun found => ?_) ?_
  · cases found with
    | none =>
      obtain ⟨e, he⟩ := hnone
      rw [he]
      exact Emits.throw e
    | some sym => exact (hk sym).weaken fun _ _ _ _ h => ⟨sym, rfl, h⟩
  · rintro c _ c1 _ c2 f hr ⟨sym, rfl, hf⟩ held' ks hsub hks
    exact .resolve hr (hf _ ks (cons_subset_cons sym hsub) hks)

theorem Makes.define {name : String} {k : Symbol → Gen β} (hk : ∀ sym, Makes M (sym :: held) e exits (k sym)) :
    Makes M held e exits (define name >>= k) := by
  refine Emits.bind_silent (Emits.define name) hk ?_
  rintro c _ _ _ c2 f ⟨rfl, rfl⟩ hf held' ks hsub hks
  exact .define (hf _ ks (cons_subset_cons _ hsub) hks)

end

/-! ## Expressions -/

section

variable {held : List Symbol} {test yes no lhs rhs : Gen Unit} {body : Gen Bool}

theorem Makes.conditional (ht : Makes M held .value goesOn test) (hy : Makes M held .value goesOn yes)
    (hn : Makes M held .value goesOn no) : Makes M held .value goesOn (conditional pos test yes no) := by
  refine Emits.conditional ht hy hn fun c c1 c2 c3 t y n ht hy hn held' ks hsub hks => ?_
  exact .seq (ht held' ks hsub hks) (.fork (by rintro ⟨⟩) (hy held' ks hsub hks) (hn held' ks hsub hks))

theorem Makes.shortCircuit {kind : SkipKind} (hk : kind ≠ .falsy) (hl : Makes M held .value goesOn lhs)
    (hr : Makes M held .value goesOn rhs) :
    Makes M held .value goesOn (shortCircuit pos kind.op lhs rhs) := by
  refine Emits.shortCircuit hl hr fun c c1 c2 t y hl hr held' ks hsub hks => ?_
  exact .seq (hl held' ks hsub hks) (.skip (.inr ⟨hk, rfl⟩) (hr held' ks hsub hks))

theorem Makes.function {params : List Name} {variadic : Bool} {self : Option String} (hb : Makes M [] .flat id body) :
    Makes M held .value goesOn (function pos params variadic self body) := by
  refine Emits.function hb fun c c1 exits f scope hf ha held' ks _ _ => ?_
  exact .function (hf [] [] (Subset.refl []) fun _ => rfl) ha

/-! ## Branches and loops -/

theorem Makes.arms {other : Option (Gen Bool)} (hb : Makes M held .flat id body)
    (ho : ∀ x, other = some x → Makes M held .flat id x) :
    Makes M held ⟨[.any], [], false⟩ id (arms pos body other) := by
  cases other with
  | none =>
    refine Emits.arms_none hb fun c exits c1 b hf held' ks hsub hks => ?_
    exact .skip (.inl ⟨rfl, rfl⟩) (hf held' ks hsub hks)
  | some other =>
    refine Emits.arms_some hb (ho other rfl) fun c exits c1 exits' c2 b o hy hn held' ks hsub hks => ?_
    exact .fork (fun _ => rfl) (hy held' ks hsub hks) (hn held' ks hsub hks)

/-- The rounds of a loop: they exit if there is neither a test nor a jump that ends the loop. -/
theorem Makes.rounds {test : Option (Gen Unit)} {post : Gen Unit}
    (ht : ∀ x, test = some x → Makes M held .value goesOn x) (hb : Makes M held .flat id body)
    (hp : Makes M held .flat goesOn post) :
    Makes M held .flat (fun jumps => test.isNone && jumps.breaks.isEmpty) (rounds pos test post body) := by
  refine Emits.rounds ht hb hp fun c c1 exits c2 c3 jumps t b p htest hbody hpost hjumps held' ks hsub hks => ?_
  have hflag : (test.isNone && jumps.breaks.isEmpty) = (!test.isSome && !b.leaves .done) := by
    rw [hjumps, not_isSome]
  obtain rfl := hks rfl
  show Builds M held' [] c _ (test.isNone && jumps.breaks.isEmpty) [] c3
  rw [hflag]
  refine .loop ?_ (hbody held' [] hsub hks) ?_
  · split at htest
    · rw [if_pos ‹_›]
      exact htest held' [] hsub (by rintro ⟨⟩)
    · obtain ⟨rfl, rfl⟩ := htest
      rw [if_neg ‹_›]
      exact .nil
  · split at hpost
    · exact hpost held' [] hsub hks
    · obtain ⟨rfl, rfl⟩ := hpost
      exact .nil

/-! ## Statements that end a function or a round -/

theorem Makes.exit (e : Exit) :
    Makes M held .flat id (emitLoopJump pos cause (pend e) >>= fun _ => Pure.pure true) := by
  refine Emits.silent_bind (Emits.emitLoopJump pos cause e) (Q := fun _ c b c' => c' = c ∧ b = true)
    (fun _ => Emits.pure _ fun c => ⟨rfl, rfl, rfl⟩) ?_
  rintro c _ _ _ _ _ ⟨rfl, rfl⟩ ⟨rfl, rfl⟩ held' ks _ hks
  obtain rfl := hks rfl
  exact .exit

theorem Makes.ret {xs : List Kind} (h : xs.length ≤ 1) :
    Makes M held ⟨xs, [], false⟩ id (emit_ pos .ret [xs.length] >>= fun _ => Pure.pure true) := by
  refine Emits.silent_bind (Emits.emit_ pos .ret [xs.length] rfl) (Q := fun _ c b c' => c' = c ∧ b = true)
    (fun _ => Emits.pure _ fun c => ⟨rfl, rfl, rfl⟩) ?_
  rintro c _ _ _ _ _ ⟨rfl, rfl⟩ ⟨rfl, rfl⟩ held' ks _ hks
  obtain rfl := hks rfl
  rw [append_nil]
  exact .ret h

theorem Makes.checked [DecidablePred p] (hx : Makes M held e exits x) :
    Makes M held e exits ((MonadState.get : Gen Generator) >>= fun g =>
      if p g then MonadExcept.throw error else x) := by
  have hget : Emits (MonadState.get : Gen Generator) fun c _ c' f => f = .nil ∧ c' = c :=
    Emits.get.weaken fun _ _ _ _ h => ⟨h.2.2, h.1⟩
  refine Emits.bind_silent hget (fun g => Emits.unless hx) ?_
  rintro c g _ _ c' f rfl h
  exact h

/-! ## Imports -/

/-- A module has been compiled before, or is compiled now; its routine is called at the import. -/
def Imports (M : ModuleMap) (c : Context) (r : Ref) (c' : Context) : Prop :=
  ∀ held ks, Builds M held ks c (moduleCall c'.constants.size) false (.any :: ks) (c'.withConstant (.function r))

/-- An importer that knows the modules `M` and compiles them by the rules. -/
structure ImporterBuilds (M : ModuleMap) (imports : Importer) : Prop where
  modules : imports.modules = M
  compile : ∀ pos name body, Emits (imports.compile pos name body) fun c r c' f => f = .nil ∧ Imports M c r c'

theorem Emits.imports (hb : Makes M [] .flat id body) :
    Emits (Generator.moduleFunction pos name body) fun c r c' f => f = .nil ∧ Imports M c r c' := by
  refine Emits.moduleFunction (R := Imports M) hb (fun c r hr held ks => .imported hr) ?_
  intro c c1 exits f scope _ _ hf ha held ks
  exact .module (hf [] [] (Subset.refl []) fun _ => rfl) ha (.inr rfl)

theorem Emits.callModule (pos : Pos) (r : Ref) :
    Emits (Generator.emitConstant pos (.function r) >>= fun _ => Generator.emit_ pos .call [0, 0]) fun c _ c' f =>
      f = moduleCall c.constants.size ∧ c' = c.withConstant (.function r) := by
  refine Emits.bind (Emits.emitConstant pos (.function r)) (fun _ => Emits.emit_ pos .call [0, 0] rfl) ?_
  rintro c _ _ _ _ _ _ ⟨rfl, rfl⟩ ⟨rfl, rfl⟩
  exact ⟨rfl, rfl⟩

theorem Makes.load (himp : ImporterBuilds M imports) (name : String) :
    Makes M held .value goesOn (imports.load pos name) := by
  refine Emits.unless ?_
  rw [himp.modules]
  cases hm : M.get? name with
  | none => exact Emits.throw _
  | some m =>
    cases m with
    | builtin d =>
      refine Emits.bind_silent (Emits.newFrozenMap d) (fun v => Emits.emitConstant pos v) ?_
      rintro c _ _ _ _ f ⟨rfl, rfl⟩ ⟨rfl, rfl⟩ held' ks _ _
      exact .attributes hm
    | source body =>
      refine Emits.bind_silent (himp.compile pos name body) (fun r => Emits.callModule pos r) ?_
      rintro c r c1 _ _ _ himports ⟨rfl, rfl⟩ held' ks _ _
      exact himports held' ks

end

/-! ## All steps -/

section

variable {I : Importer} {held : List Symbol}

/-- **Every step builds its code by the rules.** -/
theorem Recipe.makes (himp : ImporterBuilds M I) (h : Recipe held e exits x) : Makes M held e exits (x I) := by
  induction h with
  | pure h => exact Makes.pure _ h
  | throw error => exact Emits.throw error
  | bind _ _ ihx ihk => exact ihx.bind ihk
  | mono h _ ih => exact ih.mono h
  | frame zs _ ih => exact ih.frame zs
  | shallow _ ih => exact ih.weaken fun _ _ _ _ hf held' ks hsub _ => hf held' ks hsub (by rintro ⟨⟩)
  | discard _ ih => exact ih.discard
  | plain hlen h ht => exact Makes.plain hlen h ht
  | literal h hκ => exact Makes.literal h hκ
  | load h => exact Makes.emitLoad h
  | store h op n => exact Makes.emitStore h op n
  | resolve hnone _ ih => exact Makes.resolve? ⟨_, hnone I⟩ ih
  | resolveTop _ ih =>
    refine Emits.bind_silent (Emits.resolveTop? _) ih ?_
    rintro c _ _ _ c' f ⟨-, rfl⟩ hf
    exact hf
  | define _ ih => exact Makes.define ih
  | checked _ _ ih => exact Makes.checked ih
  | inBlock _ ih => exact ih.inBlock
  | conditional _ _ _ iht ihy ihn => exact iht.conditional ihy ihn
  | shortCircuit hk _ _ ihl ihr => exact Makes.shortCircuit hk ihl ihr
  | arms _ _ ihb iho =>
    refine ihb.arms fun z hz => ?_
    obtain ⟨s, hs, rfl⟩ := map_eq_some_iff.mp hz
    exact iho s hs
  | @rounds held _ _ _ _ test f _ _ _ iht ihb ihp =>
    have htest (z : Gen Unit) (hz : test.map (f I) = some z) : Makes M held .value goesOn z := by
      obtain ⟨e, he, rfl⟩ := map_eq_some_iff.mp hz
      exact iht e he
    refine Emits.silent_bind (Makes.rounds htest ihb ihp)
      (Q := fun jumps c b c' => c' = c ∧ b = ((test.map (f I)).isNone && jumps.breaks.isEmpty))
      (fun jumps => Emits.pure _ fun c => ⟨rfl, rfl, rfl⟩) ?_
    rintro c jumps c1 _ _ f hf ⟨rfl, rfl⟩
    exact hf
  | exit cause e => exact Makes.exit e
  | ret h => exact Makes.ret h
  | function _ ih => exact Makes.function ih
  | imported name => exact Makes.load himp name
  | andThen _ _ ihf ihr =>
    refine Emits.andThen ihf ihr (fun _ _ _ h => h) ?_
    intro c c1 exits c2 f g hf hg held' ks hsub hks
    exact .seq (hf held' ks hsub hks) (hg held' ks hsub hks)

theorem makes_expr (himp : ImporterBuilds M I) (self : Option String) (e : Expr) :
    Makes M [] .value goesOn (compileExpr I self e) := (recipe_expr self e).makes himp

theorem makes_test (himp : ImporterBuilds M I) (e : Option Expr) (x : Gen Unit) (h : compileTest I e = some x) :
    Makes M [] .value goesOn x := by
  rw [compileTest_eq] at h
  obtain ⟨e, he, rfl⟩ := map_eq_some_iff.mp h
  exact (recipe_test _ e he).makes himp

theorem makes_stmt (himp : ImporterBuilds M I) (s : Stmt) : Makes M [] .flat id (compileStmt I s) :=
  (recipe_stmt s).makes himp

/-- **Statements are compiled by the rules.** -/
theorem makes_stmts (himp : ImporterBuilds M I) (body : List Stmt) : Makes M [] .flat id (compileStmts I body) :=
  (recipe_stmts body).makes himp

theorem makes_simple (himp : ImporterBuilds M I) (s : Option Stmt) : Makes M [] .flat goesOn (compileSimple I s) :=
  (recipe_simple s).makes himp

theorem makes_other (himp : ImporterBuilds M I) (s : Option Stmt) (x : Gen Bool) (h : compileOther I s = some x) :
    Makes M [] .flat id x := by
  rw [compileOther_eq] at h
  obtain ⟨s, hs, rfl⟩ := map_eq_some_iff.mp h
  exact (recipe_other _ s hs).makes himp

end

/-! ## Modules and programs -/

theorem compileModule_imports (M : ModuleMap) : ∀ (depth : Nat) (pos : Pos) (name : String) (body : List Stmt),
    Emits (compileModule M depth pos name body) fun c r c' f => f = .nil ∧ Imports M c r c'
  | 0, _, _, _ => Emits.throw _
  | depth + 1, _, _, body => Emits.imports (makes_stmts ⟨rfl, compileModule_imports M depth⟩ body)

theorem importerBuilds_ofModules (M : ModuleMap) : ImporterBuilds M (Importer.ofModules M) :=
  ⟨rfl, compileModule_imports M _⟩

end Generator

end Scripting
