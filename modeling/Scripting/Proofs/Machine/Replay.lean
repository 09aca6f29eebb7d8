import Scripting.Proofs.Machine.Reflection
/-!
# `Proofs.Machine.Replay` — one program on two heaps

A program that is run twice, on heaps and global variables that correspond, ends alike both times: with the
same outcome, the same places in its error trace and global variables that correspond (`run_replays`). All it
takes is that the constants of the program correspond to themselves.
-/

namespace Scripting

open Code Machine

variable {ρ : Renaming}

/-- Every place corresponds to itself. -/
def Mirror.same : Mirror where
  place r o s o' := s = r ∧ o' = o
  stop _ _ := False

/-- **A renaming for one program**: it keeps compiled functions, and the constants correspond to themselves. -/
structure Renaming.Fits (ρ : Renaming) (p : Program) : Prop where
  body : ∀ {k r s}, ρ.body k r s ↔ s = r
  routines : ρ.right.routines = ρ.left.routines
  constants : ∀ v ∈ p.constants, Renamed ρ v v

theorem Renaming.Fits.routineAt (h : ρ.Fits p) (r : Ref) : ρ.right.routineAt r = ρ.left.routineAt r := by
  simp only [Heap.routineAt, h.routines]

theorem fetchedAlike_self (h : ρ.Fits p) (henv : env.constants = p.constants)
    : FetchedAlike ρ .same env env r r o o (fetchAt code o) (fetchAt code o) := by
  have hconst {i : Nat} {v : Value} (hv : env.constants[i]? = some v) : Renamed ρ v v :=
    h.constants v (henv ▸ Array.mem_of_getElem? hv)
  have hoperands (op : Opcode) : OperandsAlike ρ .same env env r r op code o code o := by
    cases op with
    | constant =>
      cases hi : env.constants[readU16 code (o + 1)]? with
      | none => exact .missing hi hi rfl
      | some v => exact .found hi hi (hconst hi)
    | closure =>
      refine ⟨rfl, ?_⟩
      cases hi : env.constants[readU16 code (o + 1)]? with
      | none => exact .missing hi hi rfl
      | some v =>
        by_cases hf : ∃ q, v = .function q
        · obtain ⟨q, rfl⟩ := hf
          exact .found hi hi (h.body.mpr rfl)
        · have hnot : ∀ q, v ≠ .function q := fun q hq => hf ⟨q, hq⟩
          exact .other hi hi hnot hnot rfl
    | jump | jumpFalsy | andJump | orJump => exact ⟨rfl, rfl⟩
    | _ => rfl
  unfold fetchAt
  split
  · split
    · exact .broken _
    · split
      · exact .broken _
      · exact .instruction _ ⟨rfl, rfl⟩ (hoperands _)
  · exact .nothing

theorem Mirror.same_sound (h : ρ.Fits p) (henv : env.constants = p.constants) :
    Mirror.same.Sound ρ env env where
  limits := rfl
  host := rfl
  start := by
    intro k r s hb
    rw [h.body.mp hb, h.routineAt]
    exact ⟨⟨rfl, rfl⟩, rfl, rfl, rfl⟩
  code := by
    rintro r o s o' ⟨rfl, rfl⟩ -
    rw [h.routineAt]
    exact fetchedAlike_self h henv

theorem Onward.trace_eq (h : ρ.Fits p) (hm : Onward ρ .same m n) (files : FileSet) :
    n.trace files = m.trace files := by
  obtain ⟨ρ', r, s, hg, hm⟩ := hm
  have hroutines (q : Ref) : n.heap.routineAt q = m.heap.routineAt q := by
    rw [hm.routineAt_left, hm.routineAt_right, hg.left, hg.right]
    exact h.routineAt q
  have hplace {f g : Frame} (hfg : Frame.Renamed ρ' .same f g) :
      (n.heap.routineAt g.routine).positions.find g.current =
        (m.heap.routineAt f.routine).positions.find f.current := by
    obtain ⟨hr, ho⟩ := hfg.current
    rw [hr, ho, hroutines]
  have hframes := List.Forall₂.cons hm.frame (List.rel_reverse hm.callers)
  have hpositions : n.positions = m.positions := map_eq_of_rel (fun _ _ => hplace) hframes
  rw [Machine.trace, Machine.trace, hpositions]

theorem start_mirrored (h : ρ.Fits p) (limits : Limits.Run) {globals globals' : Array Value}
    {heap heap' : Heap} (hj : ρ.Joins heap heap') (hg : RenamedAll ρ globals.toList globals'.toList) :
    Onward ρ .same (start p.main limits globals heap) (start p.main limits globals' heap') :=
  Mirrored.onward (r := p.main) (s := p.main) {
    left := rfl
    right := rfl
    heap := hj
    globals := hg
    stack := .nil
    locals := .nil
    captures := .nil
    captured := by simp [start]
    frame := {
      next := ⟨rfl, rfl⟩
      current := ⟨rfl, rfl⟩
      closure := .none
      callee := .function (h.body.mpr rfl)
      localsBase := rfl
      stackBase := rfl }
    callers := .nil
    steps := rfl
    allocations := rfl }

/-- **A program on two heaps that correspond.** -/
theorem run_replays (h : ρ.Fits p) (limits : Limits.Run) {host : String → List Value → Action Value}
    (hhost : ParametricHost host) {globals globals' : Array Value} {heap heap' : Heap}
    (hj : ρ.Joins heap heap') (hg : RenamedAll ρ globals.toList globals'.toList) (fuel : Nat) :
    let result := p.run limits host globals heap fuel
    let result' := p.run limits host globals' heap' fuel
    result'.outcome = result.outcome ∧
      ∃ ρ', ρ.Growth ρ' ∧ ρ'.Joins result.heap result'.heap ∧
        RenamedAll ρ' result.globals.toList result'.globals.toList := by
  intro result result'
  let env : Env := { constants := p.constants, limits, host }
  have hs : Mirror.same.Sound ρ env env := Mirror.same_sound h rfl
  have hrun := runFor_reflects hs hhost (fun _ _ => id) p.files p.files fuel (start_mirrored h limits hj hg)
  have hmachines {m n : Machine} (hm : Onward ρ .same m n) :
      ∃ ρ', ρ.Growth ρ' ∧ ρ'.Joins m.heap n.heap ∧ RenamedAll ρ' m.globals.toList n.globals.toList := by
    obtain ⟨ρ', _, _, hg, hm⟩ := hm
    exact ⟨ρ', hg, hm.heap, hm.globals⟩
  show (runFor env p.files fuel (start p.main limits globals' heap')).1 =
      (runFor env p.files fuel (start p.main limits globals heap)).1 ∧
    ∃ ρ', ρ.Growth ρ' ∧ ρ'.Joins (runFor env p.files fuel (start p.main limits globals heap)).2.heap
        (runFor env p.files fuel (start p.main limits globals' heap')).2.heap ∧
      RenamedAll ρ' (runFor env p.files fuel (start p.main limits globals heap)).2.globals.toList
        (runFor env p.files fuel (start p.main limits globals' heap')).2.globals.toList
  generalize runFor env p.files fuel (start p.main limits globals heap) = x,
    runFor env p.files fuel (start p.main limits globals' heap') = y at hrun ⊢
  cases hrun with
  | finished hm => exact ⟨rfl, hmachines hm⟩
  | failed hm =>
    rw [hm.trace_eq h]
    exact ⟨rfl, hmachines hm⟩
  | unfinished hm => exact ⟨rfl, hmachines hm⟩

end Scripting
