import Scripting.Proofs.Compile.Building
/-!
# `Proofs.Compile.WellTyped` — what the compiler writes is typed

From a sound context, code that is put together by the rules is typed, and the context after it is sound
(`Builds.leads`). This is an induction on the rules; a function or a module that is compiled on the way has typed
code of its own, and its routine joins those that the context knows.
-/

namespace Scripting

open Code SymbolTable

theorem Symbol.Valid.load {sym : Symbol} {Λ : Sig} (h : sym.Valid ⟨Λ.locals, Λ.free⟩) (ks : List Kind) :
    Effect Λ sym.loadOp ⟨ks, 0⟩ ⟨.any :: ks, 0⟩ := by
  unfold loadOp
  cases hk : sym.kind with
  | globalVar => exact .load trivial
  | localVar => exact .load (h.local_lt hk)
  | captured => exact .load (h.captured_lt hk)
  | builtin => exact .load (h.builtin_isSome hk)
  | self => exact @Effect.operation _ _ [] ks rfl

namespace Generator

open Fragment

variable {O : Origin} {c c' c1 c2 : Context} {held : List Symbol} {σ τ ks : List Kind} {f : Fragment}
  {exits : Bool} {name : String}

/-- The symbols in hand are valid. -/
def InHand (held : List Symbol) (c : Context) : Prop := ∀ sym ∈ held, sym.Valid c.table.bounds

theorem inHand_nil (c : Context) : InHand [] c := List.forall_mem_nil _

theorem InHand.grow (h : InHand held c) (hle : c.table.Le c'.table) : InHand held c' :=
  fun sym hs => (h sym hs).mono (boundsIn_mono hle.inner)

/-- **A sound context and a typed fragment result.** -/
structure Leads (O : Origin) (c : Context) (f : Fragment) (σ τ : List Kind) (c' : Context) : Prop where
  sound : c'.Sound O
  table : c.table.Le c'.table
  typed : Typed (c'.sig O c'.table.bounds) f ⟨σ, 0⟩ ⟨τ, 0⟩

theorem Leads.typed_later (h : Leads O c f σ τ c1) (hle : c1.Le c2) (ht : c1.table.Le c2.table) :
    Typed (c2.sig O c2.table.bounds) f ⟨σ, 0⟩ ⟨τ, 0⟩ :=
  h.typed.mono (Context.sig_mono hle (boundsIn_mono ht.inner))

theorem Leads.after (ht : c.table.Le c1.table) (h : Leads O c1 f σ τ c') : Leads O c f σ τ c' :=
  ⟨h.sound, ht.trans h.table, h.typed⟩

theorem Leads.block (h : Leads O c.enter f σ τ c') : Leads O c f σ τ c'.leave := by
  obtain ⟨hvalid, hle, -⟩ := leave_valid h.sound.table h.table
  refine ⟨h.sound.withTable hvalid, hle, ?_⟩
  have hb : c'.leave.table.bounds = c'.table.bounds := bounds_leave h.table
  rw [hb]
  exact h.typed

/-! ## Functions -/

theorem Context.Sound.inLiteral (h : c.Sound O) (params : List Name) (self : Option String) :
    (c.inLiteral params self).Sound O := by
  obtain ⟨hv1, -⟩ := withParams_valid params (enter_valid h.table false)
  exact h.withTable (enter_valid (withSelf_valid hv1 self).1 true)

/-- **A function literal.** -/
theorem Leads.function {params : List Name} {variadic : Bool} {self : Option String} {scope : CodeScope}
    (hc : c.Sound O) (h : Leads O (c.inLiteral params self) f [] [] c1)
    (ha : Assembled (returning exits f) scope.code) :
    Leads O c (functionCode c1.constants.size c1.leave.table.leave.1.captures) ks (.any :: ks)
      (c1.afterLiteral params variadic scope) := by
  obtain ⟨hv1, hle1⟩ := withParams_valid params (enter_valid hc.table false)
  obtain ⟨-, hle2⟩ := withSelf_valid hv1 self
  -- the block of the body ends, then the function
  obtain ⟨hv3, hle3, -⟩ := leave_valid h.sound.table h.table
  have hfun := (hle1.trans hle2).trans hle3
  obtain ⟨hv4, hle4, hcaptures⟩ := leave_valid hv3 hfun
  have hbounds : c1.table.bounds = ⟨c1.leave.table.leave.1.locals, c1.leave.table.leave.1.captures.length⟩ := by
    rw [← bounds_leave h.table]
    exact leave_function hfun
  let r := literalRoutine params variadic scope c1.leave.table.leave.1
  have hfree : r.free.length = c1.leave.table.leave.1.captures.length := by simp [r, literalRoutine]
  have htyped : Typed (c1.leave.leave.sig O ⟨r.locals, r.free.length⟩) (returning exits f) .empty .empty := by
    have hf := h.typed
    rw [hfree]
    rw [hbounds] at hf
    exact typed_returning hf
  have hs2 : c1.leave.leave.Sound O := (h.sound.withTable hv3).withTable hv4
  obtain ⟨hs3, hmade⟩ := hs2.withHeapRoutine ha htyped
  have hconst : (c1.leave.leave.withRoutine r).constants[c1.constants.size]? =
      some (.function (c1.leave.leave.heap.newFunction r).1) := by
    show (c1.constants.push _)[c1.constants.size]? = _
    simp
  refine ⟨hs3.withConstant ⟨_, hmade⟩, hle4,
    typed_functionCode (fun sym h => ⟨(hcaptures sym h).valid, (hcaptures sym h).notEverywhere⟩) ?_ ⟨_, hconst, ?_⟩⟩
  · intro hnil
    refine ⟨_, hconst, Kind.any_has _, fun r' hr' => ?_⟩
    cases hr'
    rw [hfree, hnil] at hmade
    exact hmade
  · rw [← hfree]
    exact hmade

/-! ## Modules -/

theorem Leads.call {r : Ref} (hc : c.Sound O) (hr : Made O c.heap 0 r) :
    Leads O c (moduleCall c.constants.size) ks (.any :: ks) (c.withConstant (.function r)) := by
  refine ⟨hc.withConstant ⟨0, hr⟩, .refl _, .seq (.op (Context.pushes (Kind.any_has _) fun r' hr' => ?_)) ?_⟩
  · cases hr'
    exact hr
  · exact .op (@Effect.call _ 0 .any [] ks)

/-- **A source module.** Its table has nothing but built-ins, so it captures nothing. -/
theorem Leads.module {scope : CodeScope} {modules : Dict Ref} (hc : c.Sound O) (h : Leads O c.enterModule f [] [] c1)
    (ha : Assembled (returning exits f) scope.code)
    (hm : modules = c1.modules ∨ modules = c1.modules.insert name (c1.heap.newFunction (c1.moduleRoutine scope)).1) :
    Leads O c (moduleCall c1.constants.size) ks (.any :: ks) ((c1.afterModule c.table scope modules).withConstant
        (.function (c1.heap.newFunction (c1.moduleRoutine scope)).1)) := by
  have hstandard := ofBuiltins_standard hc.table.builtins
  have hnone : c1.table.leave.1.captures = [] :=
    captures_eq_nil h.sound.table h.table hstandard.inner (ofBuiltins_everywhere _)
  have htyped : Typed (c1.sig O ⟨(c1.moduleRoutine scope).locals, 0⟩) (returning exits f) .empty .empty := by
    have hf := h.typed
    rw [leave_function h.table, hnone] at hf
    exact typed_returning hf
  obtain ⟨hs2, hmade⟩ := h.sound.withHeapRoutine (r := c1.moduleRoutine scope) ha htyped
  have hs3 : (c1.afterModule c.table scope modules).Sound O := by
    refine ⟨hc.table, hs2.constants, ?_, hs2.routines, hs2.origin⟩
    rcases hm with rfl | rfl
    · exact hs2.modules
    · intro name' r' hget
      have hget' : (c1.modules.insert name _).get? name' = some r' := hget
      rw [Dict.get?_insert] at hget'
      split at hget'
      · cases hget'
        exact hmade
      · exact hs2.modules hget'
  have hcall : Leads O (c1.afterModule c.table scope modules) _ ks _ _ := Leads.call hs3 hmade
  exact ⟨hcall.sound, hcall.table, hcall.typed⟩

/-! ## All code -/

/-- **Code that is put together by the rules is typed.** -/
theorem Builds.leads (h : Builds O.modules held σ c f exits τ c') (hv : InHand held c) (hc : c.Sound O) :
    Leads O c f σ τ c' := by
  induction h with
  | nil => exact ⟨hc, .refl _, .nil⟩
  | plain _ ht => exact ⟨hc, .refl _, .op (ht _)⟩
  | @ret held σ c hn =>
    refine ⟨hc, .refl _, ?_⟩
    cases σ with
    | nil => exact .ret
    | cons κ ks =>
      cases List.length_eq_zero_iff.mp (Nat.le_zero.mp (Nat.le_of_succ_le_succ hn))
      exact .retValue
  | @literal held σ c v κ h hκ =>
    obtain ⟨hallowed, hnone⟩ := allowed_of_isLiteral h c.heap
    exact ⟨hc.withConstant hallowed, .refl _, .op (Context.pushes hκ fun r hr => absurd hr (hnone r))⟩
  | attributes hd =>
    obtain ⟨hs, hallowed⟩ := hc.withFrozenMap hd
    exact ⟨hs.withConstant hallowed, .refl _, .op (Context.pushes (Kind.any_has _) fun r hr => by cases hr)⟩
  | load h => exact ⟨hc, .refl _, .op ((hv _ h).load _)⟩
  | store h _ ht => exact ⟨hc, .refl _, .op (ht _ (hv _ h))⟩
  | resolve hr _ ih =>
    obtain ⟨n, t, hres, rfl⟩ := hr.resolve_eq
    obtain ⟨hvalid, hle, hsym⟩ := resolve_valid hc.table hres
    exact .after hle (ih (List.forall_mem_cons.mpr ⟨hsym, hv.grow hle⟩) (hc.withTable hvalid))
  | @define held σ τ c c2 name f exits _ ih =>
    obtain ⟨hvalid, hle, hsym, -⟩ := define_valid hc.table name
    exact .after hle (ih (List.forall_mem_cons.mpr ⟨hsym, hv.grow hle⟩) (hc.withTable hvalid))
  | seq _ hg ihf ihg =>
    have hf := ihf hv hc
    have hnext := ihg (hv.grow hf.table) hf.sound
    exact ⟨hnext.sound, hf.table.trans hnext.table, .seq (hf.typed_later hg.le hnext.table) hnext.typed⟩
  | forget _ ih => exact ih hv hc
  | block _ ih => exact (ih hv (hc.withTable (enter_valid hc.table true))).block
  | skip hk _ ih =>
    have hf := ih hv hc
    rcases hk with ⟨rfl, rfl⟩ | ⟨hk, rfl⟩
    · exact ⟨hf.sound, hf.table, .skip hf.typed⟩
    · exact ⟨hf.sound, hf.table, .decide hk hf.typed⟩
  | @fork held σ τ c c1 c2 yes no exits exits' κ hj _ hn ihy ihn =>
    have hy := ihy hv hc
    have hno := ihn (hv.grow hy.table) hy.sound
    have hjoin (h : (!exits) = false) : τ = σ := hj (by rwa [Bool.not_eq_false'] at h)
    exact ⟨hno.sound, hy.table.trans hno.table, .fork hjoin (hy.typed_later hn.le hno.table) hno.typed⟩
  | @loop held c c1 c2 c3 tested exits test body post _ hb hp iht ihb ihp =>
    have ht := iht hv hc
    have hbody := ihb (hv.grow ht.table) ht.sound
    have hpost := ihp (hv.grow (ht.table.trans hbody.table)) hbody.sound
    have htest : tested = true → Typed (c3.sig O c3.table.bounds) test .empty ⟨[.any], 0⟩ := by
      rintro rfl
      exact ht.typed_later (hb.le.trans hp.le) (hbody.table.trans hpost.table)
    exact ⟨hpost.sound, (ht.table.trans hbody.table).trans hpost.table,
      .loop htest (hbody.typed_later hp.le hpost.table) fun _ => hpost.typed⟩
  | exit => exact ⟨hc, .refl _, .exit⟩
  | function _ ha ih => exact .function hc (ih (inHand_nil _) (hc.inLiteral ..)) ha
  | imported hr => exact .call hc (hc.modules hr)
  | module _ ha hm ih =>
    have hvalid := enter_valid (ofBuiltins_standard hc.table.builtins).valid false
    exact .module hc (ih (inHand_nil _) (hc.withTable hvalid)) ha hm

end Generator

end Scripting
