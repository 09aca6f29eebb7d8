import Scripting.Proofs.Compile.Session
/-!
# `Proofs.Compile.Ledger` — slots never clash while they are in use

Scopes hand out slots. A function numbers its slots from zero, and so does the root; a block goes on where the scope
around it stopped, and gives its slots back when it ends. A ledger runs beside the table and records, for every open
function, all slots that have ever been handed out in it.

The open scopes of one function are a `Frame`: the function, or the root, with the blocks that are open in it. One
invariant (`Stacked`) says where the slots of each scope lie: those of a block from the next free slot of the scope
around it, and all below the bound that the function keeps. Every step keeps it (`Ledger.Sound.step`), and the main
statement follows: in every session, the variables of a frame have different slots, and the bound of a function is
above all that was ever handed out in it (`Ledger.run_keepsSlots`).
-/

namespace Scripting

open List SymbolTable

/-- Does the symbol stand for a variable with a slot, of a function or of the root? -/
def Symbol.isVariable (sym : Symbol) : Bool := sym.kind = .globalVar || sym.kind = .localVar

/-! ## Scopes -/

namespace Scope

/-- The variables of a scope have different slots, from `low` on, and no more of them than the scope has taken. -/
structure Numbered (low : Nat) (s : Scope) : Prop where
  range : ∀ name sym, s.names.get? name = some sym → sym.isVariable = true →
    low ≤ sym.index ∧ sym.index < low + s.defined
  distinct : ∀ name name' sym sym', s.names.get? name = some sym → s.names.get? name' = some sym' →
    sym.isVariable = true → sym'.isVariable = true → sym.index = sym'.index → name = name'

/-- No slot has been taken or moved from `s` to `s'`. Names may have come to mean something else than a variable. -/
structure Steady (s s' : Scope) : Prop where
  block : s'.block = s.block
  defined : s'.defined = s.defined
  peak : s.peak ≤ s'.peak
  kept : ∀ name sym, s'.names.get? name = some sym → sym.isVariable = true → s.names.get? name = some sym

variable {s s' : Scope} {low : Nat}

theorem Steady.refl (s : Scope) : s.Steady s := ⟨rfl, rfl, Nat.le_refl _, fun _ _ h _ => h⟩

theorem Steady.raise (s : Scope) (n : Nat) : s.Steady (s.raise n) := ⟨rfl, rfl, Nat.le_max_left .., fun _ _ h _ => h⟩

theorem Steady.insert (sym : Symbol) (hsym : sym.isVariable = false) {names : Dict Symbol}
    (hnames : names = s.names.insert sym.name sym) {captures : Array Symbol} :
    s.Steady { s with names, captures } where
  block := rfl
  defined := rfl
  peak := Nat.le_refl _
  kept := by
    intro name sym' hget hvar
    rw [hnames, Dict.get?_insert] at hget
    split at hget
    · cases hget
      rw [hsym] at hvar
      cases hvar
    · exact hget

theorem Numbered.steady (h : s.Numbered low) (hs : s.Steady s') : s'.Numbered low where
  range := by
    intro name sym hget hvar
    rw [hs.defined]
    exact h.range name sym (hs.kept name sym hget hvar) hvar
  distinct := by
    intro name name' sym sym' hget hget' hvar hvar'
    exact h.distinct name name' sym sym' (hs.kept _ _ hget hvar) (hs.kept _ _ hget' hvar') hvar hvar'

theorem Numbered.widen (h : s.Numbered low) (hn : s.defined ≤ n) : { s with defined := n }.Numbered low where
  range := by
    intro name sym hget hvar
    obtain ⟨hle, hlt⟩ := h.range name sym hget hvar
    exact ⟨hle, by show sym.index < low + n; omega⟩
  distinct := h.distinct

/-- **A new variable takes the next slot.** -/
theorem Numbered.bind (h : s.Numbered low) (hindex : sym.index = low + s.defined) :
    { s.bind sym with defined := s.defined + 1 }.Numbered low := by
  have hnames (name : String) : (s.bind sym).names.get? name =
      if name = sym.name then some sym else s.names.get? name :=
    Dict.get?_insert ..
  constructor
  · intro name sym' hget hvar
    rw [hnames] at hget
    show low ≤ sym'.index ∧ sym'.index < low + (s.defined + 1)
    by_cases hname : name = sym.name
    · rw [if_pos hname] at hget
      cases hget
      omega
    · rw [if_neg hname] at hget
      have hrange := h.range name sym' hget hvar
      omega
  · intro name name' sym1 sym2 hget hget' hvar hvar' heq
    rw [hnames] at hget hget'
    -- an older variable has a smaller slot than the new one
    have hold {name : String} {sym' : Symbol} (hget : s.names.get? name = some sym') (hvar : sym'.isVariable = true) :
        sym'.index < sym.index := by
      have hrange := h.range name sym' hget hvar
      omega
    by_cases hname : name = sym.name <;> by_cases hname' : name' = sym.name
    · rw [hname, hname']
    · rw [if_pos hname] at hget
      rw [if_neg hname'] at hget'
      cases hget
      have hlt := hold hget' hvar'
      omega
    · rw [if_neg hname] at hget
      rw [if_pos hname'] at hget'
      cases hget'
      have hlt := hold hget hvar
      omega
    · rw [if_neg hname] at hget
      rw [if_neg hname'] at hget'
      exact h.distinct name name' sym1 sym2 hget hget' hvar hvar' heq

theorem Numbered.fresh (low : Nat) (block : Bool) : ({ block } : Scope).Numbered low where
  range := by
    intro name sym hget
    cases hget
  distinct := by
    intro name name' sym sym' hget
    cases hget

end Scope

namespace SymbolTable

/-! ## Frames -/

/-- The open scopes of one function: the blocks, innermost first, and the function itself or the root. -/
structure Frame where
  blocks : List Scope := []
  base : Scope

def Frame.scopes (f : Frame) : List Scope := f.blocks ++ [f.base]

/-- Put a scope on top of some frames: a block belongs to the innermost one, a function begins one. -/
def stack (s : Scope) : List Frame → List Frame
  | [] => []
  | f :: fs => if s.block then { f with blocks := s :: f.blocks } :: fs else { base := s } :: f :: fs

/-- The frames of some scopes inside the root, innermost first. The last one is that of the root. -/
def framesIn (root : Scope) : List Scope → List Frame
  | [] => [{ base := root }]
  | s :: rest => stack s (framesIn root rest)

/-- The frames of all open scopes, innermost first. -/
def frames (t : SymbolTable) : List Frame := framesIn t.root t.inner

/-- **Slots do not clash.** The variables of different scopes, or of different names in one scope, have different
slots. -/
def Apart (scopes : List Scope) : Prop :=
  ∀ (i j : Nat) (s s' : Scope) (name name' : String) (sym sym' : Symbol), scopes[i]? = some s →
    scopes[j]? = some s' → s.names.get? name = some sym → s'.names.get? name' = some sym' →
      sym.isVariable = true → sym'.isVariable = true → i ≠ j ∨ name ≠ name' → sym.index ≠ sym'.index

/-- All variables of the scopes have slots below a bound. -/
def Below (bound : Nat) (scopes : List Scope) : Prop :=
  ∀ s ∈ scopes, ∀ name sym, s.names.get? name = some sym → sym.isVariable = true → sym.index < bound

theorem Below.mono (hle : bound ≤ bound') (h : Below bound scopes) : Below bound' scopes :=
  fun s hs name sym hget hvar => Nat.lt_of_lt_of_le (h s hs name sym hget hvar) hle

/-- A scope whose slots come after those of the others. -/
theorem Apart.cons {scopes : List Scope} {s : Scope} {low : Nat} (h : Apart scopes) (hb : Below low scopes)
    (hs : s.Numbered low) : Apart (s :: scopes) := by
  have hlow {i : Nat} {s' : Scope} {name : String} {sym : Symbol} (hi : scopes[i]? = some s')
      (hget : s'.names.get? name = some sym) (hvar : sym.isVariable = true) : sym.index < low :=
    hb s' (mem_of_getElem? hi) name sym hget hvar
  intro i j s1 s2 name name' sym sym' hi hj hget hget' hvar hvar' hne heq
  cases i with
  | zero =>
    cases hi
    have hfirst := (hs.range name sym hget hvar).1
    cases j with
    | zero =>
      cases hj
      rcases hne with hne | hne
      · exact hne rfl
      · exact hne (hs.distinct name name' sym sym' hget hget' hvar hvar' heq)
    | succ j =>
      have hlt := hlow hj hget' hvar'
      omega
  | succ i =>
    cases j with
    | zero =>
      cases hj
      have hfirst := (hs.range name' sym' hget' hvar').1
      have hlt := hlow hi hget hvar
      omega
    | succ j =>
      refine h i j s1 s2 name name' sym sym' hi hj hget hget' hvar hvar' ?_ heq
      rcases hne with hne | hne
      · exact .inl fun hij => hne (congrArg (· + 1) hij)
      · exact .inr hne

theorem Below.cons {scopes : List Scope} {s : Scope} {low : Nat} (hb : Below low scopes) (hs : s.Numbered low) :
    Below (low + s.defined) (s :: scopes) := by
  intro s' hs' name sym hget hvar
  rcases mem_cons.mp hs' with rfl | hs'
  · exact (hs.range name sym hget hvar).2
  · have hlt := hb s' hs' name sym hget hvar
    omega

theorem apart_nil : Apart [] := by
  intro i j s s' name name' sym sym' hi
  cases hi

theorem below_nil : Below bound [] := by
  intro s hs
  cases hs

/-! ## Where slots lie -/

/-- The first slot of a scope inside others: a block goes on where the scope around it stopped. -/
def firstSlot (root s : Scope) (rest : List Scope) : Nat := if s.block then nextSlotIn root rest else 0

theorem nextSlotIn_cons (root s : Scope) (rest : List Scope) :
    nextSlotIn root (s :: rest) = firstSlot root s rest + s.defined := by
  unfold firstSlot
  rw [nextSlotIn]
  split <;> omega

/-- The bound on slots that the function of the innermost scope keeps. -/
def peakIn (root : Scope) : List Scope → Nat
  | [] => root.peak
  | s :: rest => if s.block then peakIn root rest else s.peak

/-- **The slots of all open scopes are where they belong**, and below the bound of their function. -/
def Stacked (root : Scope) : List Scope → Prop
  | [] => root.Numbered 0 ∧ root.defined ≤ root.peak
  | s :: rest => s.Numbered (firstSlot root s rest) ∧ nextSlotIn root (s :: rest) ≤ peakIn root (s :: rest) ∧
    Stacked root rest

/-- What is known of the frames of stacked scopes: of the innermost one, and of the others. -/
structure Framed (root : Scope) (ss : List Scope) (f : Frame) (fs : List Frame) : Prop where
  peak : f.base.peak = peakIn root ss
  apart : Apart f.scopes
  below : Below (nextSlotIn root ss) f.scopes
  outer : ∀ f' ∈ fs, Apart f'.scopes ∧ Below f'.base.peak f'.scopes

theorem Stacked.next_le_peak {root : Scope} (h : Stacked root ss) : nextSlotIn root ss ≤ peakIn root ss := by
  cases ss with
  | nil => exact h.2
  | cons s rest => exact h.2.1

theorem Framed.all {root : Scope} (h : Framed root ss f fs) (ht : Stacked root ss) :
    ∀ f' ∈ f :: fs, Apart f'.scopes ∧ Below f'.base.peak f'.scopes := by
  intro f' hf'
  rcases mem_cons.mp hf' with rfl | hf'
  · refine ⟨h.apart, h.below.mono ?_⟩
    rw [h.peak]
    exact ht.next_le_peak
  · exact h.outer f' hf'

/-- **The frames of stacked scopes.** -/
theorem Stacked.framed {root : Scope} (h : Stacked root ss) :
    ∃ f fs, framesIn root ss = f :: fs ∧ Framed root ss f fs := by
  induction ss with
  | nil =>
    have hapart : Apart [root] := apart_nil.cons below_nil h.1
    have hbelow : Below (0 + root.defined) [root] := below_nil.cons h.1
    rw [Nat.zero_add] at hbelow
    exact ⟨_, _, rfl, rfl, hapart, hbelow, nofun⟩
  | cons s rest ih =>
    obtain ⟨hs, hle, hrest⟩ := h
    obtain ⟨f, fs, hf, hframed⟩ := ih hrest
    rw [framesIn, hf, stack]
    cases hb : s.block with
    | true =>
      have hfirst : firstSlot root s rest = nextSlotIn root rest := if_pos hb
      rw [hfirst] at hs
      have hbelow := hframed.below.cons hs
      rw [← hfirst, ← nextSlotIn_cons] at hbelow
      refine ⟨_, _, if_pos rfl, ?_, hframed.apart.cons hframed.below hs, hbelow, hframed.outer⟩
      rw [peakIn, if_pos hb]
      exact hframed.peak
    | false =>
      have hfirst : firstSlot root s rest = 0 := if_neg (by simp [hb])
      have hbelow := below_nil.cons (hfirst ▸ hs)
      have hnext : 0 + s.defined = nextSlotIn root (s :: rest) := by rw [nextSlotIn_cons, hfirst]
      rw [hnext] at hbelow
      refine ⟨_, _, if_neg (by simp), ?_, apart_nil.cons below_nil (hfirst ▸ hs), hbelow, hframed.all hrest⟩
      rw [peakIn, if_neg (by simp [hb])]

/-! ## Bounds -/

/-- The bounds of the open functions, innermost first, and of the root. -/
def peaks (root : Scope) : List Scope → List Nat
  | [] => [root.peak]
  | s :: rest => if s.block then peaks root rest else s.peak :: peaks root rest

theorem peaks_eq_cons (root : Scope) (ss : List Scope) : ∃ ps, peaks root ss = peakIn root ss :: ps := by
  induction ss with
  | nil => exact ⟨[], rfl⟩
  | cons s rest ih =>
    unfold peaks peakIn
    split
    · exact ih
    · exact ⟨_, rfl⟩

theorem peaks_eq_append (root : Scope) (ss : List Scope) : ∃ ps, peaks root ss = ps ++ [root.peak] := by
  induction ss with
  | nil => exact ⟨[], rfl⟩
  | cons s rest ih =>
    obtain ⟨ps, hps⟩ := ih
    unfold peaks
    split
    · exact ⟨ps, hps⟩
    · exact ⟨s.peak :: ps, by rw [hps, cons_append]⟩

theorem peaks_congr_root {root root' : Scope} (h : root'.peak = root.peak) (ss : List Scope) :
    peaks root' ss = peaks root ss := by
  induction ss with
  | nil => rw [peaks, peaks, h]
  | cons s rest ih => rw [peaks, peaks, ih]

/-- Every open function has a frame, and so has the root. -/
theorem map_peak_framesIn {root : Scope} (h : Stacked root ss) :
    (framesIn root ss).map (·.base.peak) = peaks root ss := by
  induction ss with
  | nil => rfl
  | cons s rest ih =>
    obtain ⟨f, fs, hf, -⟩ := h.2.2.framed
    have hrest := ih h.2.2
    rw [hf] at hrest
    rw [framesIn, hf, stack, peaks]
    split
    · exact hrest
    · rw [← hrest]
      rfl

/-! ## Steps that take no slot -/

section Steady

variable {root root' : Scope} {ss ss' : List Scope}

theorem nextSlotIn_steady (hroot : root.Steady root') (h : Forall₂ Scope.Steady ss ss') :
    nextSlotIn root' ss' = nextSlotIn root ss := by
  induction h with
  | nil => exact hroot.defined
  | cons hs _ ih => simp only [nextSlotIn, hs.block, hs.defined, ih]

theorem peakIn_steady (hroot : root.Steady root') (h : Forall₂ Scope.Steady ss ss') :
    peakIn root ss ≤ peakIn root' ss' := by
  induction h with
  | nil => exact hroot.peak
  | cons hs _ ih =>
    simp only [peakIn, hs.block]
    split
    · exact ih
    · exact hs.peak

theorem Stacked.steady (ht : Stacked root ss) (hroot : root.Steady root') (h : Forall₂ Scope.Steady ss ss') :
    Stacked root' ss' := by
  induction h with
  | nil =>
    refine ⟨ht.1.steady hroot, ?_⟩
    rw [hroot.defined]
    exact Nat.le_trans ht.2 hroot.peak
  | @cons s s' rest rest' hs hrest ih =>
    obtain ⟨hnumbered, hle, ht⟩ := ht
    have hfirst : firstSlot root' s' rest' = firstSlot root s rest := by
      unfold firstSlot
      rw [hs.block, nextSlotIn_steady hroot hrest]
    refine ⟨?_, ?_, ih ht⟩
    · rw [hfirst]
      exact hnumbered.steady hs
    · rw [nextSlotIn_steady hroot (.cons hs hrest)]
      exact Nat.le_trans hle (peakIn_steady hroot (.cons hs hrest))

theorem peaks_steady (hroot : root.Steady root') (h : Forall₂ Scope.Steady ss ss') :
    Forall₂ (· ≤ ·) (peaks root ss) (peaks root' ss') := by
  induction h with
  | nil => exact .cons hroot.peak .nil
  | cons hs _ ih =>
    simp only [peaks, hs.block]
    split
    · exact ih
    · exact .cons hs.peak ih

theorem steady_all : Forall₂ Scope.Steady ss ss := forall₂_same.mpr fun s _ => Scope.Steady.refl s

theorem raiseIn_steady : root.Steady (raiseIn n root ss).2 ∧ Forall₂ Scope.Steady ss (raiseIn n root ss).1 := by
  induction ss with
  | nil => exact ⟨.raise root n, .nil⟩
  | cons s rest ih =>
    unfold raiseIn
    split
    · exact ⟨ih.1, .cons (.raise s n) ih.2⟩
    · exact ⟨.refl root, .cons (.raise s n) steady_all⟩

theorem peaks_raiseIn : ∃ ps, peaks root ss = peakIn root ss :: ps ∧
      peaks (raiseIn n root ss).2 (raiseIn n root ss).1 = max (peakIn root ss) n :: ps := by
  induction ss with
  | nil => exact ⟨[], rfl, rfl⟩
  | cons s rest ih =>
    unfold raiseIn
    cases hb : s.block with
    | true => simpa [peaks, peakIn, Scope.raise, hb] using ih
    | false => simp [peaks, peakIn, Scope.raise, hb]

theorem peakIn_raiseIn : peakIn (raiseIn n root ss).2 (raiseIn n root ss).1 = max (peakIn root ss) n := by
  obtain ⟨ps, -, hraised⟩ := peaks_raiseIn
  obtain ⟨qs, hqs⟩ := peaks_eq_cons (raiseIn n root ss).2 (raiseIn n root ss).1
  rw [hqs] at hraised
  exact (cons.inj hraised).1

/-- A look-up leaves captured variables behind, which have no slot. -/
theorem Resolves.steady (h : Resolves name root ss sym ss') : Forall₂ Scope.Steady ss ss' := by
  induction h with
  | root _ => exact .nil
  | here _ => exact steady_all
  | pass _ _ _ ih => exact .cons (.refl _) ih
  | @capture s _ _ sym _ _ _ _ ih =>
    have hcapture : s.Steady (s.capture sym).2 := .insert (s.capture sym).1 rfl rfl
    exact .cons hcapture ih

end Steady

/-! ## The steps of a table -/

variable {t : SymbolTable}

theorem Stacked.define (h : Stacked t.root t.inner) (name : String) :
    Stacked (t.define name).2.root (t.define name).2.inner := by
  -- the bound is raised first, and then the slot is taken
  have heq : (t.define name).2 = (t.raise (t.nextSlot + 1)).bindTop (t.define name).1 1 :=
    raise_bindTop t (t.define name).1 1 (t.nextSlot + 1)
  obtain ⟨hroot, hinner⟩ := raiseIn_steady
  have hnext : nextSlotIn (t.raise (t.nextSlot + 1)).root (t.raise (t.nextSlot + 1)).inner = t.nextSlot :=
    nextSlotIn_steady hroot hinner
  have hpeak : t.nextSlot + 1 ≤ peakIn (t.raise (t.nextSlot + 1)).root (t.raise (t.nextSlot + 1)).inner := by
    show _ ≤ peakIn (raiseIn (t.nextSlot + 1) t.root t.inner).2 (raiseIn (t.nextSlot + 1) t.root t.inner).1
    rw [peakIn_raiseIn]
    exact Nat.le_max_right ..
  have hstacked : Stacked (t.raise (t.nextSlot + 1)).root (t.raise (t.nextSlot + 1)).inner := h.steady hroot hinner
  have hindex : (t.define name).1.index = t.nextSlot := rfl
  rw [heq]
  generalize t.raise (t.nextSlot + 1) = u at hnext hpeak hstacked ⊢
  obtain ⟨inner, root, builtins⟩ := u
  cases inner with
  | nil =>
    refine ⟨hstacked.1.bind ?_, ?_⟩
    · rw [hindex, ← hnext, Nat.zero_add]
      rfl
    · rw [← hnext] at hpeak
      exact hpeak
  | cons s rest =>
    obtain ⟨hs, -, hrest⟩ := hstacked
    have hslot : t.nextSlot = firstSlot root s rest + s.defined := by rw [← hnext, nextSlotIn_cons]
    refine ⟨hs.bind (hindex.trans hslot), ?_, hrest⟩
    rw [nextSlotIn_cons]
    show firstSlot root s rest + (s.defined + 1) ≤ _
    rw [← Nat.add_assoc, ← hslot]
    exact hpeak

theorem peaks_define : ∃ ps, peaks t.root t.inner = peakIn t.root t.inner :: ps ∧
      peaks (t.define name).2.root (t.define name).2.inner = max (peakIn t.root t.inner) (t.nextSlot + 1) :: ps := by
  have heq : (t.define name).2 = (t.raise (t.nextSlot + 1)).bindTop (t.define name).1 1 :=
    raise_bindTop t (t.define name).1 1 (t.nextSlot + 1)
  have hbind (u : SymbolTable) (sym : Symbol) :
      peaks (u.bindTop sym 1).root (u.bindTop sym 1).inner = peaks u.root u.inner := by
    obtain ⟨inner, root, builtins⟩ := u
    cases inner <;> rfl
  rw [heq, hbind]
  exact peaks_raiseIn

theorem defineFunction_steady : t.root.Steady (t.defineFunction name).2.root ∧
      Forall₂ Scope.Steady t.inner (t.defineFunction name).2.inner := by
  obtain ⟨inner, root, builtins⟩ := t
  cases inner with
  | nil => exact ⟨.insert ⟨name, .self, 0⟩ rfl rfl, .nil⟩
  | cons s rest => exact ⟨.refl root, .cons (.insert ⟨name, .self, 0⟩ rfl rfl) steady_all⟩

theorem Stacked.enter (h : Stacked t.root t.inner) (block : Bool) : Stacked t.root ({ block } :: t.inner) := by
  refine ⟨.fresh _ block, ?_, h⟩
  cases block with
  | true => exact h.next_le_peak
  | false => exact Nat.le_refl 0

theorem Stacked.leave (h : Stacked t.root t.inner) : Stacked t.leave.2.root t.leave.2.inner := by
  obtain ⟨inner, root, builtins⟩ := t
  cases inner with
  | nil => exact h
  | cons s rest =>
    obtain ⟨-, -, hrest⟩ := h
    unfold leave
    dsimp only
    split
    · -- a block of the root ends: its slots count as taken from now on
      next hlast =>
      obtain ⟨-, hempty⟩ : s.block = true ∧ rest = [] := by simpa using hlast
      subst hempty
      obtain ⟨hroot, hle⟩ := hrest
      exact ⟨hroot.widen (Nat.le_max_left ..), Nat.max_le.mpr ⟨hle, Nat.le_refl _⟩⟩
    · exact hrest

end SymbolTable

/-! ## Ledgers -/

open SymbolTable

/-- What can be asked of a table, with the way back to a smaller number of scopes. -/
inductive TableCommand
  | step (a : TableStep)
  | truncate (depth : Nat)
  deriving DecidableEq, Repr

/-- **A table and the slots that have been handed out**: one list for each open function, innermost first, and one for
the root. The slots of a block are those of its function. -/
structure Ledger where
  table : SymbolTable
  issued : List (List Nat) := [[]]

namespace Ledger

def note (slot : Nat) : List (List Nat) → List (List Nat)
  | [] => []
  | slots :: outer => (slot :: slots) :: outer

/-- What is left of the records when some scopes have ended. -/
def keep (ended : List Scope) (issued : List (List Nat)) : List (List Nat) := issued.drop (functionsIn ended)

def step (l : Ledger) : TableCommand → Ledger
  | .step (.enter block) => ⟨l.table.enter block, if block then l.issued else [] :: l.issued⟩
  | .step (.define name) => ⟨(l.table.define name).2, note (l.table.define name).1.index l.issued⟩
  | .step (.defineFunction name) => ⟨(l.table.defineFunction name).2, l.issued⟩
  | .step (.resolve name) => ⟨((l.table.resolve name).map (·.2.2)).getD l.table, l.issued⟩
  | .step .leave => ⟨l.table.leave.2, keep (l.table.inner.take 1) l.issued⟩
  | .truncate depth =>
    ⟨l.table.truncate depth, keep (l.table.inner.take (l.table.depth - max depth 1)) l.issued⟩

def run (l : Ledger) (commands : List TableCommand) : Ledger := commands.foldl step l

/-- A fresh table, with built-ins registered. No slot has been handed out. -/
def start (builtins : List (Nat × String)) : Ledger where
  table := builtins.foldl (fun t b => (t.defineBuiltin b.1 b.2).2) {}

/-- All slots that a function has handed out are below its bound. -/
def Covers (slots : List Nat) (peak : Nat) : Prop := ∀ i ∈ slots, i < peak

/-- **The slots of the open scopes are stacked, and every function covers what it has handed out.** -/
structure Sound (l : Ledger) : Prop where
  stacked : Stacked l.table.root l.table.inner
  covers : Forall₂ Covers l.issued (peaks l.table.root l.table.inner)

variable {l : Ledger}

theorem covers_mono {issued : List (List Nat)} (h : Forall₂ Covers issued ps)
    (hle : Forall₂ (· ≤ ·) ps ps') : Forall₂ Covers issued ps' := by
  induction h generalizing ps' with
  | nil =>
    cases hle
    exact .nil
  | cons hfirst _ ih =>
    cases hle with
    | cons hle hrest => exact .cons (fun i hi => Nat.lt_of_lt_of_le (hfirst i hi) hle) (ih hrest)

theorem Sound.steady (h : l.Sound) (hroot : l.table.root.Steady t.root)
    (hinner : Forall₂ Scope.Steady l.table.inner t.inner) : Sound ⟨t, l.issued⟩ where
  stacked := h.stacked.steady hroot hinner
  covers := covers_mono h.covers (peaks_steady hroot hinner)

theorem Sound.define (h : l.Sound) (name : String) : (l.step (.step (.define name))).Sound where
  stacked := h.stacked.define name
  covers := by
    obtain ⟨ps, hps, hps'⟩ := peaks_define
    have hcovers := h.covers
    rw [hps] at hcovers
    unfold step
    rw [hps']
    cases hissued : l.issued with
    | nil =>
      rw [hissued] at hcovers
      cases hcovers
    | cons slots outer =>
      rw [hissued] at hcovers
      cases hcovers with
      | cons hfirst hrest =>
        refine .cons ?_ hrest
        intro i hi
        rcases mem_cons.mp hi with rfl | hi
        · exact Nat.lt_of_lt_of_le (Nat.lt_succ_self l.table.nextSlot) (Nat.le_max_right ..)
        · exact Nat.lt_of_lt_of_le (hfirst i hi) (Nat.le_max_left ..)

theorem Sound.enter (h : l.Sound) (block : Bool) : (l.step (.step (.enter block))).Sound where
  stacked := h.stacked.enter block
  covers := by
    cases block with
    | true => exact h.covers
    | false => exact .cons nofun h.covers

theorem Sound.leave (h : l.Sound) : Sound ⟨l.table.leave.2, keep (l.table.inner.take 1) l.issued⟩ := by
  refine ⟨h.stacked.leave, ?_⟩
  obtain ⟨⟨inner, root, builtins⟩, issued⟩ := l
  cases inner with
  | nil => exact h.covers
  | cons s rest =>
    have hcovers : Forall₂ Covers issued (peaks root (s :: rest)) := h.covers
    have hpeaks : peaks (leave ⟨s :: rest, root, builtins⟩).2.root rest = peaks root rest := by
      refine peaks_congr_root ?_ rest
      unfold leave
      dsimp only
      split <;> rfl
    show Forall₂ Covers _ (peaks (leave ⟨s :: rest, root, builtins⟩).2.root rest)
    rw [hpeaks]
    cases hb : s.block with
    | true =>
      rw [peaks] at hcovers
      simpa [keep, functionsIn, hb] using hcovers
    | false =>
      rw [peaks, if_neg (by simp [hb])] at hcovers
      cases hcovers with
      | cons _ hrest => simpa [keep, functionsIn, hb] using hrest

theorem keep_succ (ss : List Scope) (n : Nat) (issued : List (List Nat)) :
    keep (ss.take (n + 1)) issued = keep (ss.tail.take n) (keep (ss.take 1) issued) := by
  cases ss with
  | nil => simp [keep, functionsIn]
  | cons s rest =>
    unfold keep
    rw [drop_drop]
    congr 1
    simp only [functionsIn, take_succ_cons, take_zero, tail_cons, countP_cons, countP_nil]
    omega

theorem Sound.leaveMany (h : l.Sound) (n : Nat) :
    Sound ⟨l.table.leaveMany n, keep (l.table.inner.take n) l.issued⟩ := by
  induction n generalizing l with
  | zero => exact h
  | succ n ih =>
    have hinner : l.table.leave.2.inner = l.table.inner.tail := by
      obtain ⟨⟨inner, root, builtins⟩, issued⟩ := l
      cases inner <;> rfl
    have hrest := ih h.leave
    rw [hinner, ← keep_succ] at hrest
    exact hrest

/-- **Every command keeps the ledger sound.** -/
theorem Sound.step (h : l.Sound) (c : TableCommand) : (l.step c).Sound := by
  cases c with
  | truncate depth => exact h.leaveMany _
  | step a =>
    cases a with
    | enter block => exact h.enter block
    | define name => exact h.define name
    | defineFunction name =>
      obtain ⟨hroot, hinner⟩ := defineFunction_steady
      exact h.steady hroot hinner
    | resolve name =>
      show Sound ⟨((l.table.resolve name).map (·.2.2)).getD l.table, l.issued⟩
      cases hfound : resolveIn name l.table.root l.table.inner with
      | none =>
        rw [resolve, hfound]
        exact h
      | some found =>
        rw [resolve, hfound]
        exact h.steady (.refl _) (resolves hfound).steady
    | leave => exact h.leave

theorem Sound.run (h : l.Sound) (commands : List TableCommand) : (l.run commands).Sound := by
  induction commands generalizing l with
  | nil => exact h
  | cons c commands ih => exact ih (h.step c)

theorem sound_start (builtins : List (Nat × String)) : (start builtins).Sound := by
  have hfold (t : SymbolTable) (h : Sound ⟨t, [[]]⟩) (hinner : t.inner = []) :
      Sound ⟨builtins.foldl (fun t b => (t.defineBuiltin b.1 b.2).2) t, [[]]⟩ := by
    induction builtins generalizing t with
    | nil => exact h
    | cons b builtins ih =>
      refine ih (t.defineBuiltin b.1 b.2).2 ?_ hinner
      refine h.steady (.insert ⟨b.2, .builtin, b.1⟩ rfl rfl) ?_
      exact steady_all
  refine hfold {} ⟨⟨.fresh 0 false, Nat.le_refl _⟩, ?_⟩ rfl
  exact .cons nofun .nil

/-! ## What follows -/

/-- **Slots in use never clash and always fit.** -/
structure KeepsSlots (l : Ledger) : Prop where
  /-- The variables that the open scopes of a function hold have different slots. -/
  apart : ∀ f ∈ l.table.frames, Apart f.scopes
  /-- They are below the bound of the function. -/
  below : ∀ f ∈ l.table.frames, Below f.base.peak f.scopes
  /-- There is a record for every open function, and for the root. -/
  records : l.issued.length = l.table.frames.length
  /-- A function that ends reports more slots than were ever handed out in it or in its blocks. -/
  locals : ∀ s rest slots outer, l.table.inner = s :: rest → s.block = false → l.issued = slots :: outer →
    ∀ i ∈ slots, i < l.table.leave.1.locals
  /-- The number of global slots is above all that were handed out outside every function. -/
  globals : ∀ slots, l.issued.getLast? = some slots → ∀ i ∈ slots, i < l.table.globalSlots

theorem Sound.keepsSlots (h : l.Sound) : l.KeepsSlots := by
  obtain ⟨f, fs, hf, hframed⟩ := h.stacked.framed
  have hall := hframed.all h.stacked
  rw [← hf] at hall
  constructor
  case apart => exact fun f' hf' => (hall f' hf').1
  case below => exact fun f' hf' => (hall f' hf').2
  case records =>
    rw [h.covers.length_eq, ← map_peak_framesIn h.stacked, length_map]
    rfl
  case locals =>
    intro s rest slots outer hinner hblock hissued
    have hcovers := h.covers
    have hlocals : l.table.leave.1.locals = s.peak := by
      obtain ⟨⟨inner, root, builtins⟩, issued⟩ := l
      cases hinner
      rfl
    rw [hinner, hissued, peaks, if_neg (by simp [hblock])] at hcovers
    rw [hlocals]
    cases hcovers with
    | cons hfirst _ => exact hfirst
  case globals =>
    intro slots hlast
    have hcovers := h.covers
    obtain ⟨ps, hps⟩ := peaks_eq_append l.table.root l.table.inner
    obtain ⟨outer, houter⟩ := getLast?_eq_some_iff.mp hlast
    rw [hps, houter] at hcovers
    -- the root comes last on both sides
    have hreverse := forall₂_reverse_iff.mpr hcovers
    rw [reverse_append, reverse_append] at hreverse
    cases hreverse with
    | cons hroot _ => exact hroot

/-- **Variable slots never clash while they are in scope, and always fit**, whatever is done with a table. -/
theorem run_keepsSlots (builtins : List (Nat × String)) (commands : List TableCommand) :
    ((start builtins).run commands).KeepsSlots :=
  ((sound_start builtins).run commands).keepsSlots

/-- Two blocks of a function share a slot; the block in the root keeps its own. -/
example : ((start []).run [.step (.define "a"), .step (.enter true), .step (.define "b"), .step .leave,
    .step (.define "c"), .step (.enter false), .step (.enter true), .step (.define "d"), .truncate 2,
    .step (.enter true), .step (.define "e")]).issued = [[0, 0], [2, 1, 0]] := by decide

end Ledger

end Scripting
