import Scripting.Proofs.Compile.Modular
/-!
# `Proofs.Program.Closed` — modules are closed

A module sees the built-ins and what it defines itself, and nothing of the code that imports it. So its functions use
no global variable, and it does not matter where the module is imported: its function is the same in every program up
to the numbers of constants.

* **drafts** — every module is its draft with other numbers (`compile_stocked`), so two programs with the same modules
  have the same drafts in them (`Stocked.draft_eq`);
* **the renaming** — a constant of the one program goes to the constant of the other that has the same place in the
  book of the same module (`partner`). It is the same constant, and functions are the same up to the same renaming
  (`SamePrograms`);
* **global variables** — no global variable is in sight in a draft (`draft_silent`), so no function that a module
  refers to uses one (`OnShelf.refersTo`);
* **imports** — wherever a module is imported, the code calls the one function of the module (`ImportedAs`).
-/

namespace Scripting

open Code Generator Fragment Function

/-! ## The constants that code refers to -/

/-- The number of the constant that an instruction refers to. -/
def Instruction.constant? : Instruction → Option Nat
  | ⟨.constant, k :: _⟩ | ⟨.closure, k :: _⟩ => some k
  | _ => none

/-- Some instruction of the code refers to the constant. -/
def Code.Mentions (code : Bytes) (k : Nat) : Prop := ∃ p ∈ decode code, p.2.constant? = some k

/-- The instructions that read or write global variables. -/
def Opcode.isGlobal : Opcode → Bool
  | .getGlobal | .setGlobal | .setSelGlobal => Bool.true
  | _ => Bool.false

theorem Instruction.constant?_renumber (κ : Nat → Nat) (i : Instruction) :
    (i.renumber κ).constant? = i.constant?.map κ := by
  unfold Instruction.renumber
  split
  · rfl
  · rfl
  · rename_i hconstant hclosure
    have hnone : i.constant? = none := by
      unfold Instruction.constant?
      split
      · exact absurd rfl (hconstant _ _)
      · exact absurd rfl (hclosure _ _)
      · rfl
    rw [hnone]
    rfl

theorem Instruction.globalSlot?_renumber (κ : Nat → Nat) (i : Instruction) :
    (i.renumber κ).globalSlot? = i.globalSlot? := by
  unfold Instruction.renumber
  split <;> rfl

theorem Instruction.renumber_renumber (π ρ : Nat → Nat) (i : Instruction) :
    (i.renumber π).renumber ρ = i.renumber (ρ ∘ π) := by
  obtain ⟨op, operands⟩ := i
  cases op <;> cases operands <;> rfl

theorem Fragment.renumber_renumber (π ρ : Nat → Nat) (f : Fragment) :
    (f.renumber π).renumber ρ = f.renumber (ρ ∘ π) := by
  induction f with
  | nil | exit => rfl
  | op i => rw [renumber, renumber, renumber, Instruction.renumber_renumber]
  | seq a b iha ihb => simp only [renumber, iha, ihb]
  | skip kind body ih => simp only [renumber, ih]
  | fork yes join no ihy ihn => simp only [renumber, ihy, ihn]
  | loop tested test body back post iht ihb ihp => simp only [renumber, iht, ihb, ihp]

namespace Generator

variable {f f' : Fragment} {code : Bytes}

theorem Assembled.mem_decode (h : Assembled f code) : (∃ p ∈ decode code, p.2 = i) ↔ i ∈ f.code 0 open₀ := by
  rw [h.decode_eq, ← List.mem_map, map_snd_located]

theorem Assembled.layout_eq (h : Assembled f code) (h' : Assembled f' code) : f.code 0 open₀ = f'.code 0 open₀ := by
  rw [← map_snd_located 0 (f.code 0 open₀), ← h.decode_eq, h'.decode_eq, map_snd_located]

theorem Assembled.not_isGlobal (h : Assembled f code) (hs : Silent code) (hp : p ∈ decode code) :
    p.2.op.isGlobal = false := by
  have hfits : p.2.Fits := h.fits _ (h.mem_decode.mp ⟨p, hp, rfl⟩)
  have hnone : p.2.globalSlot? = none := by
    cases hslot : p.2.globalSlot? with
    | none => rfl
    | some slot => exact absurd ⟨p, hp, hslot⟩ (hs slot)
  obtain ⟨o, op, operands⟩ := p
  have hlen : operands.length = op.widths.length := hfits.1
  cases op <;> first | rfl | (cases operands <;> [cases hlen; cases hnone])

end Generator

/-! ## Functions that are the same up to numbers -/

namespace SameUpTo

variable {b b' : Book} {r s s' : Routine}

/-- Whatever fragment the code was assembled from, the other code comes from it, too. -/
theorem assembled (h : SameUpTo b r s) (hf : Assembled f r.code) (hκ : b.Numbers κ) :
    Assembled (f.renumber κ) s.code := by
  obtain ⟨f', hf', hs⟩ := h.code
  have hlayout : (f.renumber κ).code 0 open₀ = (f'.renumber κ).code 0 open₀ := by
    rw [code_renumber, code_renumber, hf.layout_eq hf']
  refine ⟨?_, ?_, fun e => ?_⟩
  · rw [(hs κ hκ).code, bytes, bytes, hlayout]
  · rw [hlayout]
    exact (hs κ hκ).fits
  · rw [leaves_renumber]
    exact hf.closed e

theorem silent (h : SameUpTo b r s) (hr : Silent r.code) : Silent s.code := by
  intro slot ⟨p, hp, hslot⟩
  obtain ⟨f, hf, hs⟩ := h.code
  have hi := (hs _ b.numbers_number).mem_decode.mp ⟨p, hp, rfl⟩
  rw [code_renumber, List.mem_map] at hi
  obtain ⟨i, hi, heq⟩ := hi
  obtain ⟨q, hq, rfl⟩ := hf.mem_decode.mpr hi
  refine hr slot ⟨q, hq, ?_⟩
  rw [← Instruction.globalSlot?_renumber, heq]
  exact hslot

/-- **The constants that the code refers to are in the book.** Another number for a constant that is not there would
not change the code. -/
theorem mentions (h : SameUpTo b r s) (hk : Mentions s.code k) : ∃ j : Nat, (b .constants)[j]? = some k := by
  obtain ⟨p, hp, hpk⟩ := hk
  obtain ⟨f, hf, hs⟩ := h.code
  have hi := (hs _ b.numbers_number).mem_decode.mp ⟨p, hp, rfl⟩
  rw [code_renumber, List.mem_map] at hi
  obtain ⟨i, hi, heq⟩ := hi
  rw [← heq, Instruction.constant?_renumber, Option.map_eq_some_iff] at hpk
  obtain ⟨j, hj, hκj⟩ := hpk
  cases hbook : (b .constants)[j]? with
  | some n => exact ⟨j, by rw [hbook, ← hκj, b.numbers_number hbook]⟩
  | none =>
    have hother : b.Numbers (update b.number j (k + 1)) := by
      intro j' n hj'
      have hne : j' ≠ j := by
        rintro rfl
        rw [hbook] at hj'
        cases hj'
      rw [update_of_ne hne, b.numbers_number hj']
    have hlayout := (hs _ b.numbers_number).layout_eq (hs _ hother)
    rw [code_renumber, code_renumber, List.map_inj_left] at hlayout
    have hsame := congrArg Instruction.constant? (hlayout i hi)
    rw [Instruction.constant?_renumber, Instruction.constant?_renumber, hj, Option.map_some, Option.map_some,
      update_self, hκj] at hsame
    exact absurd (Option.some.inj hsame) (by omega)

/-- **Two functions with the same draft are the same up to a renaming** that takes the numbers of the one book to
those of the other. -/
theorem renumber (h : SameUpTo b r s) (h' : SameUpTo b' r s') (hsize : (b .constants).size = (b' .constants).size)
    (hplaces : ∀ {j k k' : Nat}, (b .constants)[j]? = some k → (b' .constants)[j]? = some k' → placeOf places k = k') :
    s' = { s with code := Code.renumber places s.code } := by
  obtain ⟨f, hf, hs⟩ := h.code
  have hnumbers : b'.Numbers (placeOf places ∘ b.number) := by
    intro j k' hk'
    have hlt : j < (b .constants).size := hsize ▸ (Array.getElem?_eq_some_iff.mp hk').1
    have hk := Array.getElem?_eq_getElem hlt
    rw [comp_apply, b.numbers_number hk]
    exact hplaces hk hk'
  have hcode : s'.code = Code.renumber places s.code := by
    apply Array.toList_inj.mp
    have hs0 := hs _ b.numbers_number
    rw [(h'.assembled hf hnumbers).code, toList_renumber hs0.code hs0.fits, renumber_renumber]
  rw [h'.others, h.others, hcode]

end SameUpTo

/-! ## The same functions in two programs -/

/-- **The same constant.** -/
inductive SameConstant (h h' : Heap) (R : Ref → Ref → Prop) : Value → Value → Prop
  | literal {v} (hv : v.isLiteral = true) : SameConstant h h' R v v
  | attributes {m m'} (hm : h'.mapAt m' = h.mapAt m) : SameConstant h h' R (.map .frozen m) (.map .frozen m')
  | function {r r'} (hr : R r r') : SameConstant h h' R (.function r) (.function r')

/-- **The functions that `R` relates are the same up to the renaming `places` of constants.** The renaming takes every
constant that they refer to to the same constant, where functions are compared up to the same renaming. -/
structure SamePrograms (p : Program) (h : Heap) (p' : Program) (h' : Heap) (places : Array Nat)
    (R : Ref → Ref → Prop) : Prop where
  routine : ∀ {r r' : Ref}, R r r' →
    h'.routineAt r' = { h.routineAt r with code := Code.renumber places (h.routineAt r).code }
  constant : ∀ {r r' : Ref} {k : Nat}, R r r' → Mentions (h.routineAt r).code k → ∃ v v', p.constants[k]? = some v ∧
    p'.constants[placeOf places k]? = some v' ∧ SameConstant h h' R v v'
  injective : ∀ {r r' s s' : Ref} {k l : Nat}, R r r' → R s s' → Mentions (h.routineAt r).code k →
    Mentions (h.routineAt s).code l → placeOf places k = placeOf places l → k = l

/-- The function `r` refers to the function `s`, directly or through other functions. -/
inductive RefersTo (p : Program) (h : Heap) (r : Ref) : Ref → Prop
  | refl : RefersTo p h r r
  | step {s s' k} (hs : RefersTo p h r s) (hk : Mentions (h.routineAt s).code k)
    (hv : p.constants[k]? = some (.function s')) : RefersTo p h r s'

variable {M : ModuleMap} {blank : SymbolTable} {c c' : Context} {name : String} {b b' : Book} {r r' : Ref}

/-- **Two compilations have the same draft of a module.** -/
theorem Stocked.draft_eq (h : Stocked M blank c name b r) (h' : Stocked M blank c' name b' r') :
    ∃ (d : Context) (j : Nat), Realizes M d c b ∧ Realizes M d c' b' ∧ (b .routines)[j]? = some r ∧
      (b' .routines)[j]? = some r' := by
  obtain ⟨body, d, j, hm, hd, -, hr, hj⟩ := h
  obtain ⟨body', d', j', hm', hd', -, hr', hj'⟩ := h'
  cases hm.symm.trans hm'
  rw [hd] at hd'
  injection hd' with href hstate
  subst hstate
  have hsame : j = j' := Nat.add_left_cancel href
  exact ⟨d.context, j, hr, hr', hj, hsame ▸ hj'⟩

theorem Realizes.size_eq (h : Realizes M d c b) (h' : Realizes M d c' b') (k : Series) : (b k).size = (b' k).size :=
  Nat.add_left_cancel ((h.count k).symm.trans (h'.count k))

/-! ### The renaming -/

/-- The constant that has the same place in the book of the same module. -/
noncomputable def partner (A B : String → Book) (k : Nat) : Nat := open Classical in
  if h : ∃ p : String × Nat, (A p.1 .constants)[p.2]? = some k then
    (B h.choose.1 .constants).getD h.choose.2 k
  else k

theorem partner_eq (hA : UsedOnce (fun o => shelf A .blank o .constants) fun _ => False) {j k k' : Nat}
    (h : (A name .constants)[j]? = some k) (h' : (B name .constants)[j]? = some k') : partner A B k = k' := by
  have hex : ∃ p : String × Nat, (A p.1 .constants)[p.2]? = some k := ⟨(name, j), h⟩
  have hspec : (shelf A .blank (some hex.choose.1) .constants)[hex.choose.2]? = some k := hex.choose_spec
  have h1 : (shelf A .blank (some name) .constants)[j]? = some k := h
  obtain ⟨hname, hj⟩ := hA.injective hspec h1
  rw [partner, dif_pos hex, Option.some.inj hname, hj]
  simp [h']

/-- The renaming of the first `n` constants. -/
noncomputable def partners (A B : String → Book) (n : Nat) : Array Nat := (Array.range n).map (partner A B)

theorem placeOf_partners (h : k < n) : placeOf (partners A B n) k = partner A B k := by
  simp [placeOf, partners, h]

/-! ### Modules -/

/-- Functions that have the same place in the books of a module that both compilations know. -/
def Companions (c c' : Context) (A B : String → Book) (r r' : Ref) : Prop :=
  ∃ (name : String) (j : Nat), c.modules.get? name ≠ none ∧ c'.modules.get? name ≠ none ∧
    (A name .routines)[j]? = some r ∧ (B name .routines)[j]? = some r'

section

variable {A B : String → Book}

/-- The modules of a compilation are on the shelf. -/
def OnShelf (M : ModuleMap) (blank : SymbolTable) (c : Context) (A : String → Book) : Prop :=
  ∀ ⦃name : String⦄ ⦃r : Ref⦄, c.modules.get? name = some r → Stocked M blank c name (A name) r

/-- Functions of a module that both compilations know. -/
theorem Companions.draft (hc : OnShelf M blank c A) (hc' : OnShelf M blank c' B) (h : Companions c c' A B r r') :
    ∃ (name : String) (d : Context) (j : Nat), Realizes M d c (A name) ∧ Realizes M d c' (B name) ∧
      (A name .routines)[j]? = some r ∧ (B name .routines)[j]? = some r' := by
  obtain ⟨name, j, hm, hm', hj, hj'⟩ := h
  obtain ⟨f, hf⟩ := Option.ne_none_iff_exists'.mp hm
  obtain ⟨f', hf'⟩ := Option.ne_none_iff_exists'.mp hm'
  obtain ⟨d, -, hd, hd', -, -⟩ := (hc hf).draft_eq (hc' hf')
  exact ⟨name, d, j, hd, hd', hj, hj'⟩

theorem companions_module (hc : OnShelf M blank c A) (hc' : OnShelf M blank c' B)
    (hr : c.modules.get? name = some r) (hr' : c'.modules.get? name = some r') : Companions c c' A B r r' := by
  obtain ⟨-, j, -, -, hj, hj'⟩ := (hc hr).draft_eq (hc' hr')
  exact ⟨name, j, by rw [hr]; exact Option.some_ne_none _, by rw [hr']; exact Option.some_ne_none _, hj, hj'⟩

/-- A constant of the draft is the same constant in both compilations. -/
theorem sameConstant_of_counterpart (hc : OnShelf M blank c A) (hc' : OnShelf M blank c' B)
    (hm : c.modules.get? name ≠ none) (hm' : c'.modules.get? name ≠ none) (hd : Realizes M d c (A name))
    (hd' : Realizes M d c' (B name)) (h : Counterpart M (A name) c.modules v w)
    (h' : Counterpart M (B name) c'.modules v w') : SameConstant c.heap c'.heap (Companions c c' A B) w w' := by
  cases h with
  | literal hv =>
    cases h' with
    | literal => exact .literal hv
    | attributes => cases hv
    | function => cases hv
    | module => cases hv
  | attributes hj =>
    cases h' with
    | literal hv => cases hv
    | attributes hj' => exact .attributes (((hd'.found hj').2).trans (hd.found hj).2.symm)
  | @function j _ hj =>
    generalize hv : Value.function (M.size + j) = v at h'
    cases h' with
    | literal h => subst hv; cases h
    | attributes => cases hv
    | @function j' _ hj' =>
      have hsame : j = j' := Nat.add_left_cancel (Value.function.inj hv)
      exact .function ⟨name, j, hm, hm', hj, hsame ▸ hj'⟩
    | module hp =>
      rw [← Value.function.inj hv] at hp
      exact absurd hp ModuleMap.not_placeholder
  | @module other p _ hp hr =>
    generalize hv : Value.function p = v at h'
    cases h' with
    | literal h => subst hv; cases h
    | attributes => cases hv
    | function =>
      rw [Value.function.inj hv] at hp
      exact absurd hp ModuleMap.not_placeholder
    | @module other' p' _ hp' hr' =>
      cases Value.function.inj hv
      cases ModuleMap.eq_of_placeholder hp hp'
      exact .function (companions_module hc hc' hr hr')

/-- **Modules that two compilations know are the same in both** up to the renaming. -/
theorem companions_same (hc : OnShelf M blank c A) (hc' : OnShelf M blank c' B)
    (hA : ∀ k, UsedOnce (fun o => shelf A .blank o k) fun _ => False)
    (hB : ∀ k, UsedOnce (fun o => shelf B .blank o k) fun _ => False) {p p' : Program} (hp : p.constants = c.constants)
    (hp' : p'.constants = c'.constants) :
    SamePrograms p c.heap p' c'.heap (partners A B p.constants.size) (Companions c c' A B) := by
  -- what the renaming does to a constant of a module
  have hplace {d : Context} {name : String} (hd : Realizes M d c (A name)) {j k k' : Nat}
      (hk : (A name .constants)[j]? = some k) (hk' : (B name .constants)[j]? = some k') :
      placeOf (partners A B p.constants.size) k = k' := by
    have hlt : k < p.constants.size := by
      rw [hp]
      exact hd.lt_count hk
    rw [placeOf_partners hlt, partner_eq (hA .constants) hk hk']
  -- every constant that a function refers to is in the book of its module
  have hmention {r r' : Ref} {k : Nat} (hr : Companions c c' A B r r') (hk : Mentions (c.heap.routineAt r).code k) :
      ∃ (name : String) (d : Context) (j k' : Nat), c.modules.get? name ≠ none ∧ c'.modules.get? name ≠ none ∧
        Realizes M d c (A name) ∧ Realizes M d c' (B name) ∧ (A name .constants)[j]? = some k ∧
        (B name .constants)[j]? = some k' := by
    obtain ⟨name, i, hm, hm', hi, -⟩ := hr
    obtain ⟨f, hf⟩ := Option.ne_none_iff_exists'.mp hm
    obtain ⟨f', hf'⟩ := Option.ne_none_iff_exists'.mp hm'
    obtain ⟨d, -, hd, hd', -, -⟩ := (hc hf).draft_eq (hc' hf')
    obtain ⟨j, hj⟩ := (hd.found hi).2.mentions hk
    have hlt : j < (B name .constants).size := hd.size_eq hd' .constants ▸ (Array.getElem?_eq_some_iff.mp hj).1
    exact ⟨name, d, j, _, hm, hm', hd, hd', hj, Array.getElem?_eq_getElem hlt⟩
  constructor
  · intro r r' hr
    obtain ⟨name, d, j, hd, hd', hj, hj'⟩ := hr.draft hc hc'
    exact (hd.found hj).2.renumber (hd'.found hj').2 (hd.size_eq hd' .constants) (hplace hd)
  · intro r r' k hr hk
    obtain ⟨name, d, j, k', hm, hm', hd, hd', hj, hj'⟩ := hmention hr hk
    obtain ⟨v, w, hv, hw, hvw⟩ := hd.found hj
    obtain ⟨v', w', hv', hw', hvw'⟩ := hd'.found hj'
    cases hv.symm.trans hv'
    refine ⟨w, w', by rw [hp, hw], ?_, sameConstant_of_counterpart hc hc' hm hm' hd hd' hvw hvw'⟩
    rw [hp', hplace hd hj hj', hw']
  · intro r r' s s' k l hr hs hk hl heq
    obtain ⟨name, d, j, k', -, -, hd, -, hj, hj'⟩ := hmention hr hk
    obtain ⟨other, e, i, l', -, -, he, -, hi, hi'⟩ := hmention hs hl
    rw [hplace hd hj hj', hplace he hi hi'] at heq
    have hk' : (shelf B .blank (some name) .constants)[j]? = some k' := hj'
    have hl' : (shelf B .blank (some other) .constants)[i]? = some k' := heq ▸ hi'
    obtain ⟨hname, hji⟩ := (hB .constants).injective hk' hl'
    cases hname
    subst hji
    exact Option.some.inj (hj.symm.trans hi)

end

/-! ## Global variables -/

theorem importerBuilds_draft : ImporterBuilds M (.draft M) where
  modules := rfl
  compile pos name body := by
    refine ⟨fun g => ?_, fun g r g' h _ => ?_⟩
    · simp only [Importer.draft]
      cases g.modules.get? name with
      | none => exact Grows.refl g
      | some r => exact Grows.refl g
    · simp only [Importer.draft] at h
      cases hm : g.modules.get? name with
      | none =>
        rw [hm] at h
        cases h
      | some r0 =>
        rw [hm] at h
        cases h
        exact ⟨.nil, .idle rfl, rfl, fun _ _ => .imported hm⟩

theorem silent_empty : Silent #[] := by
  rintro slot ⟨p, hp, -⟩
  have hnil : decode #[] = [] := by
    unfold decode decodeFrom
    simp
  rw [hnil] at hp
  cases hp

theorem draft_modulesHave (M : ModuleMap) (table : SymbolTable) : (draft M table).context.ModulesHave Silent := by
  intro name r hr
  have hlt : r < M.size := ModuleMap.lt_of_placeholder hr
  refine ⟨by simpa [draft, context] using hlt, ?_⟩
  have hcode : ((draft M table).context.heap.routineAt r).code = #[] := by
    simp [draft, context, Heap.routineAt, hlt]
  rw [hcode]
  exact silent_empty

/-- **No global variable is in sight in the draft of a module**: its function captures nothing, and neither it nor any
function among the constants uses a global variable. -/
theorem draft_silent (h : draftModule M body (.draft M ((SymbolTable.ofBuiltins builtins).enter false)) = .ok r d)
    (hc : Clean d) :
    (d.heap.routineAt r).free = [] ∧ Silent (d.heap.routineAt r).code ∧
      ∀ {k : Nat} {s : Ref}, d.constants[k]? = some (.function s) → Silent (d.heap.routineAt s).code := by
  unfold draftModule at h
  rw [← bind_assoc] at h
  obtain ⟨_, g1, hrun, h⟩ := bind_ok h
  obtain ⟨_, _, hget, h⟩ := bind_ok h
  cases hget
  cases h
  obtain ⟨_, hw, exits, f, hf, rfl⟩ := (makes_stmts importerBuilds_draft body).returning.writes _ _ _ hrun hc
  have hasm : Assembled (returning exits f) g1.scope.code :=
    ⟨by simpa [draft] using hw.code, hw.fits, hw.closed rfl⟩
  have huses : Uses (fun _ => False) 0 (draft M ((SymbolTable.ofBuiltins builtins).enter false)).context
      g1.context f.ops :=
    (hf [] [] (List.Subset.refl []) fun _ => rfl).uses (SymbolTable.inSight_module builtins)
      (fun _ hmem => by cases hmem)
      (draft_modulesHave M _)
  obtain ⟨hcode, hgives⟩ := huses.inModule rfl hasm
  have hnew := routineAt_newFunction g1.heap (moduleRoutine g1.scope g1.table.leave.1.locals)
  have hself : (g1.heap.newFunction (moduleRoutine g1.scope g1.table.leave.1.locals)).2.routineAt
      g1.heap.routines.size = moduleRoutine g1.scope g1.table.leave.1.locals := by
    rw [hnew, if_pos rfl]
  refine ⟨?_, ?_, fun {k s} hk => ?_⟩
  · exact congrArg Routine.free hself
  · have := congrArg Routine.code hself
    exact this ▸ hcode
  · obtain ⟨hlt, hsilent⟩ := hgives k s (Nat.zero_le _) hk
    have hne : s ≠ g1.heap.routines.size := Nat.ne_of_lt hlt
    show Silent ((g1.heap.newFunction _).2.routineAt s).code
    rw [hnew, if_neg hne]
    exact hsilent

section

variable {A : String → Book} {builtins : Array Symbol}

/-- A function that a module makes and that uses no global variable. -/
def QuietIn (M : ModuleMap) (builtins : Array Symbol) (c : Context) (A : String → Book) (r : Ref) : Prop :=
  ∃ name body d, ∃ j l : Nat, draftModule M body (.draft M ((SymbolTable.ofBuiltins builtins).enter false)) = .ok l d ∧
    Clean d ∧ Realizes M d.context c (A name) ∧ (A name .routines)[j]? = some r ∧
    Silent (d.heap.routineAt (M.size + j)).code

theorem OnShelf.quiet (hc : OnShelf M (.ofBuiltins builtins) c A) (hr : c.modules.get? name = some r) :
    QuietIn M builtins c A r := by
  obtain ⟨body, d, j, -, hd, hclean, hreal, hj⟩ := hc hr
  exact ⟨name, body, d, j, _, hd, hclean, hreal, hj, (draft_silent hd hclean).2.1⟩

theorem QuietIn.not_isGlobal (h : QuietIn M builtins c A r) (hq : q ∈ decode (c.heap.routineAt r).code) :
    q.2.op.isGlobal = false := by
  obtain ⟨name, body, d, j, l, hd, hclean, hreal, hj, hsilent⟩ := h
  have hsame := (hreal.found hj).2
  obtain ⟨f, -, hf⟩ := hsame.code
  exact (hf _ (A name).numbers_number).not_isGlobal (hsame.silent hsilent) hq

/-- What such a function refers to is such a function, too: it is nested in the same module, or is another module. -/
theorem QuietIn.step (hc : OnShelf M (.ofBuiltins builtins) c A) (h : QuietIn M builtins c A r)
    (hk : Mentions (c.heap.routineAt r).code k) (hv : c.constants[k]? = some (.function r')) :
    QuietIn M builtins c A r' := by
  obtain ⟨name, body, d, j, l, hd, hclean, hreal, hj, -⟩ := h
  obtain ⟨i, hi⟩ := (hreal.found hj).2.mentions hk
  obtain ⟨v, w, hdv, hw, hvw⟩ := hreal.found hi
  cases hw.symm.trans hv
  generalize hfun : Value.function r' = w at hvw
  cases hvw with
  | literal hl =>
    subst hfun
    cases hl
  | attributes => cases hfun
  | @function j' _ hj' =>
    cases hfun
    exact ⟨name, body, d, j', l, hd, hclean, hreal, hj', (draft_silent hd hclean).2.2 hdv⟩
  | module _ hr =>
    cases hfun
    exact hc.quiet hr

theorem OnShelf.refersTo (hc : OnShelf M (.ofBuiltins builtins) c A) (hp : p.constants = c.constants)
    (hr : c.modules.get? name = some r) (hs : RefersTo p c.heap r s) : QuietIn M builtins c A s := by
  induction hs with
  | refl => exact hc.quiet hr
  | step _ hk hv ih => exact ih.step hc hk (hp ▸ hv)

theorem OnShelf.free_eq (hc : OnShelf M (.ofBuiltins builtins) c A) (hr : c.modules.get? name = some r) :
    (c.heap.routineAt r).free = [] := by
  obtain ⟨body, d, j, -, hd, hclean, hreal, hj⟩ := hc hr
  rw [(hreal.found hj).2.others]
  exact (draft_silent hd hclean).1

end

/-! ## Imports -/

/-- **An import is a call of the one function of the module.** It is the function `r` that is known under the name of
the module; functions that were known before stay. -/
structure ImportedAs (name : String) (r : Ref) (g g' : Generator) : Prop where
  known : g'.modules.get? name = some r
  kept : ∀ {other : String} {s : Ref}, g.modules.get? other = some s → g'.modules.get? other = some s
  call : ∃ k : Nat, g'.constants[k]? = some (.function r) ∧ Writes g (moduleCall k) g'

theorem compileModule_known : ∀ depth : Nat,
    Emits (compileModule M depth pos name stmts) fun _ r c' f => f = .nil ∧ c'.modules.get? name = some r
  | 0 => Emits.throw _
  | depth + 1 => by
    have himp : ImporterBuilds M { modules := M, compile := compileModule M depth } :=
      ⟨rfl, compileModule_imports M depth⟩
    refine Emits.moduleFunction (R := fun _ r c' => c'.modules.get? name = some r) (makes_stmts himp stmts)
      (fun _ _ hr => hr) ?_
    intro c c1 exits f scope _ _ _ _
    exact (Dict.get?_insert ..).trans (if_pos rfl)

theorem importedAs_of_load (hm : M.get? name = some (.source stmts))
    (h : Importer.load { modules := M, compile := compileModule M depth } pos name g = .ok () g')
    (hc : Clean g') : ∃ r, ImportedAs name r g g' := by
  unfold Importer.load at h
  split at h
  · cases h
  simp only [hm] at h
  obtain ⟨r, g1, hmodule, h⟩ := bind_ok h
  have hcall := Emits.callModule pos r
  obtain ⟨f, hw, rfl, hctx⟩ := hcall.writes _ _ _ h hc
  obtain ⟨_, hw0, rfl, hr⟩ := (compileModule_known depth).writes _ _ _ hmodule (hcall.growing.clean h hc)
  have hwrites := hw0.after_nil hw
  have hmodules : g'.modules = g1.modules := congrArg Context.modules hctx
  have hconstants : g'.constants = g1.constants.push (.function r) := congrArg Context.constants hctx
  refine ⟨r, hmodules ▸ hr, fun {other s} hs => ?_, g1.constants.size, ?_, hwrites⟩
  · rw [hwrites.keeps.modules other (.inr (by rw [hs]; exact Option.some_ne_none s)), hs]
  · rw [hconstants, Array.getElem?_push_size]

/-- **Modules are closed.** -/
theorem compiled_modules_closed {files : FileSet} {body : List Stmt} {g g' : Generator} {p : Program}
    (h : compile files M body g = (.ok p, g')) :
    (∀ {stmts : List Stmt} {depth : Nat} {pos : Pos} {name : String} {g₁ g₂ : Generator},
      M.get? name = some (.source stmts) →
      Importer.load { modules := M, compile := compileModule M depth } pos name g₁ = .ok () g₂ → Clean g₂ →
      ∃ r, ImportedAs name r g₁ g₂) ∧
    (∀ {name : String} {r : Ref}, g'.modules.get? name = some r → (g'.heap.routineAt r).free = [] ∧
      ∀ {s : Ref}, RefersTo p g'.heap r s → ∀ q ∈ decode (g'.heap.routineAt s).code, q.2.op.isGlobal = false) ∧
    ∀ {files₂ : FileSet} {body₂ : List Stmt} {g₂ g₂' : Generator} {p₂ : Program},
      compile files₂ M body₂ g₂ = (.ok p₂, g₂') → g₂.table.builtins = g.table.builtins →
      ∃ (places : Array Nat) (R : Ref → Ref → Prop), SamePrograms p g'.heap p₂ g₂'.heap places R ∧
        ∀ {name : String} {r r₂ : Ref}, g'.modules.get? name = some r → g₂'.modules.get? name = some r₂ → R r r₂ := by
  obtain ⟨hp, A, hstock, hapart⟩ := compile_stocked h
  have hA : OnShelf M (.ofBuiltins g.table.builtins) g'.context A := hstock
  refine ⟨fun hm hload hc => importedAs_of_load hm hload hc, fun hr => ⟨hA.free_eq hr, fun hs q hq => ?_⟩, ?_⟩
  · exact (hA.refersTo hp hr hs).not_isGlobal hq
  · intro files₂ body₂ g₂ g₂' p₂ h₂ hbuiltins
    obtain ⟨hp₂, B, hstock₂, hapart₂⟩ := compile_stocked h₂
    have hB : OnShelf M (.ofBuiltins g.table.builtins) g₂'.context B := hbuiltins ▸ hstock₂
    exact ⟨_, _, companions_same hA hB hapart hapart₂ hp hp₂, companions_module hA hB⟩

/-- The function of a module after a compilation that succeeds. -/
def moduleOf? (name : String) : Except (List CompileError) Program × Generator → Option Ref
  | (.ok _, g) => g.modules.get? name
  | (.error _, _) => none

theorem of_moduleOf? (h : moduleOf? name out = some r) : ∃ p g, out = (.ok p, g) ∧ g.modules.get? name = some r := by
  obtain ⟨result, g⟩ := out
  cases result with
  | ok p => exact ⟨p, g, rfl, h⟩
  | error e => cases h

/-- The module `m` exports `func(a) { return len(a) + 1 }`. -/
def measuring : ModuleMap := Dict.empty.insert "m" (.source [.exportValue .none
  (.func .none [⟨.none, "a"⟩] false [.ret .none (some (.binary .none (.arith .add)
    (.call .none (.ident .none "len") [.ident .none "a"] false) (.int .none 1)))])])

/-- `len := 2; f := func() { for { g := import("m"); break } }` -/
def shadowing : List Stmt := [.assign .none [.ident .none "len"] .define [.int .none 2],
   .assign .none [.ident .none "f"] .define [.func .none [] false [.loop .none none none none
     [.assign .none [.ident .none "g"] .define [.load .none "m"], .breakLoop .none]]]]

def withLen : Generator := { table := .ofBuiltins #[⟨"len", .builtin, 0⟩] }

/-- The module is the same where `len` is another variable, inside a function and a loop. -/
theorem measuring_closed : ∃ p g r p₂ g₂ r₂,
    compile {} measuring [.expr .none (.load .none "m")] withLen = (.ok p, g) ∧ g.modules.get? "m" = some r ∧
    compile {} measuring shadowing withLen = (.ok p₂, g₂) ∧ g₂.modules.get? "m" = some r₂ ∧
    (g.heap.routineAt r).free = [] ∧
    ∃ (places : Array Nat) (R : Ref → Ref → Prop), SamePrograms p g.heap p₂ g₂.heap places R ∧ R r r₂ := by
  obtain ⟨p, g, h, hr⟩ := of_moduleOf? (show moduleOf? "m" (compile {} measuring
    [.expr .none (.load .none "m")] withLen) = some 1 by decide +kernel)
  obtain ⟨p₂, g₂, h₂, hr₂⟩ := of_moduleOf? (show moduleOf? "m" (compile {} measuring shadowing withLen) = some 1 by
    decide +kernel)
  obtain ⟨-, hfirst, hsecond⟩ := compiled_modules_closed h
  obtain ⟨places, R, hsame, hR⟩ := hsecond h₂ rfl
  exact ⟨p, g, 1, p₂, g₂, 1, h, hr, h₂, hr₂, (hfirst hr).1, places, R, hsame, hR hr hr₂⟩

end Scripting
