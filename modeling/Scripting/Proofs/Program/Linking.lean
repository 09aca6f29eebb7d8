import Scripting.Proofs.Compile.Stream
import Scripting.Proofs.Machine.Lockstep
/-!
# `Proofs.Program.Linking` — programs with typed functions can be linked

A program is *checked* if the code of each of its functions is a typed fragment (`Checked`). From typed
fragments come the shapes at all offsets, so that a checked program can be linked with a version of itself
that has its constants in other places (`Checked.linked`), and the machine that starts such a program
satisfies the invariant of a run (`Linked.starts`), as a twin of the one that starts the other version
(`World.starts`).
-/

namespace Scripting

open Code Fragment Machine Generator

/-! ## Checked programs -/

/-- What the code of a function may refer to, in a program with these constants whose functions are those
in `B`, by the number of variables that they capture. -/
def constantSig (constants : Array Value) (B : Nat → Ref → Prop) (locals free : Nat) : Sig where
  locals := locals
  free := free
  constant k κ := ∃ v, constants[k]? = some v ∧ κ.Has v ∧ ∀ r, v = .function r → B 0 r
  closure k n := ∃ r, constants[k]? = some (.function r) ∧ B n r

/-- **A program whose functions are all typed.** -/
structure Checked (constants : Array Value) (routines : Array Routine) (B : Nat → Ref → Prop) : Prop where
  free : ∀ {n r}, B n r → (routines.getD r {}).free.length = n
  code : ∀ {n r}, B n r → ∃ f, Assembled f (routines.getD r {}).code ∧
    Typed (constantSig constants B (routines.getD r {}).locals n) f .empty .empty

/-- A routine and a version of it with its constants in other places. -/
structure Routine.Renumbered (π : Nat → Nat) (f g : Routine) : Prop where
  alike : Routine.Alike f g
  code : ∀ {a}, Assembled a f.code → Assembled (a.renumber π) g.code

theorem Routine.Renumbered.refl (f : Routine) : Routine.Renumbered id f f :=
  ⟨⟨rfl, rfl, rfl, rfl⟩, fun h => by rw [renumber_id]; exact h⟩

/-! ## Shapes -/

/-- **The code of a typed function has a shape wherever control can be.** -/
theorem shapes_of_typed (ht : Typed Λ a .empty .empty) (hf : Assembled a f.code)
    (hg : Assembled (a.renumber π) g.code) :
    ∃ shape : Nat → Option Shape, shape 0 = some .empty ∧ ∀ o σ, shape o = some σ → Placed Λ π f g shape o σ := by
  obtain ⟨S, hR, hstart⟩ := ht.laysOut (A := fun o σ => o = 0 + a.size ∧ σ = .empty) hf.laid
    hg.laid ⟨rfl, rfl⟩ fun x hx => by rw [hf.closed x] at hx; cases hx
  rw [Nat.zero_add] at hR hstart
  -- the end of the code is an offset, too
  let shape : Nat → Option Shape := fun o => if o = a.size then some .empty else S o
  have hreaches (o : Nat) (σ : Shape) (h : Reaches S (fun o σ => o = a.size ∧ σ = .empty) o σ) :
      shape o = some σ := by
    rcases h with h | ⟨rfl, rfl⟩
    · have := (hR.sound o σ h).2.1
      simp only [shape, Nat.ne_of_lt this]
      exact h
    · simp [shape]
  refine ⟨shape, hreaches 0 .empty (hstart.reaches ⟨rfl, rfl⟩), fun o σ ho => ?_⟩
  simp only [shape] at ho
  split at ho
  · rename_i heq
    cases ho
    exact .done (heq ▸ hf.size) (by rw [hg.size, size_renumber, heq])
  · obtain ⟨-, -, i, hi, hi', hc⟩ := hR.sound o σ ho
    exact .code hi hi' (hc.mono hreaches)

/-! ## Linking -/

variable {W : World} {π : Nat → Nat} {env env' : Env} {B : Nat → Ref → Prop}

/-- What stands in the place of a constant, in a version of the program with other functions. -/
structure Replaces (W : World) (B : Nat → Ref → Prop) (v w : Value) : Prop where
  function : ∀ r, v = .function r → ∃ s, w = .function s ∧ ∀ n, B n r → W.body n r s
  other : (∀ r, v ≠ .function r) → Related W v w

/-- **A checked program is linked with a version of itself.** -/
theorem Checked.linked (hc : Checked env.constants W.left B) (hlimits : env'.limits = env.limits)
    (hhost : env'.host = env.host) (hu : UniformHost env.host)
    (hone : ∀ {n n' r s s'}, W.body n r s → W.body n' r s' → s = s')
    (hbody : ∀ {n r s}, W.body n r s → B n r ∧ Routine.Renumbered π (W.left.getD r {}) (W.right.getD s {}))
    (hconst : ∀ {k : Nat} {v : Value}, env.constants[k]? = some v →
      ∃ w, env'.constants[π k]? = some w ∧ Replaces W B v w) :
    ∃ shape, Linked W π env env' shape := by
  have hle {locals n : Nat} : (constantSig env.constants B locals n).Le
      (W.sig π env.constants env'.constants locals n) := by
    refine ⟨Nat.le_refl _, Nat.le_refl _, ?_, ?_⟩
    · rintro k κ ⟨v, hv, hκ, hfun⟩
      obtain ⟨w, hw, hrep⟩ := hconst hv
      refine ⟨v, w, hv, hw, ?_, hκ⟩
      by_cases hf : ∃ r, v = .function r
      · obtain ⟨r, rfl⟩ := hf
        obtain ⟨s, rfl, hb⟩ := hrep.function r rfl
        exact .function (hb 0 (hfun r rfl))
      · exact hrep.other fun r hr => hf ⟨r, hr⟩
    · rintro k n ⟨r, hr, hb⟩
      obtain ⟨w, hw, hrep⟩ := hconst hr
      obtain ⟨s, rfl, hbs⟩ := hrep.function r rfl
      exact ⟨r, s, hr, hw, hbs n hb⟩
  -- the shapes of one function, whatever it is linked with
  have hshape (r : Ref) : ∃ shape : Nat → Option Shape, ∀ {n s}, W.body n r s → shape 0 = some .empty ∧
      ∀ o σ, shape o = some σ → Placed (W.sig π env.constants env'.constants (W.left.getD r {}).locals n) π
        (W.left.getD r {}) (W.right.getD s {}) shape o σ := by
    by_cases hex : ∃ n s, W.body n r s
    · obtain ⟨n, s, hb⟩ := hex
      obtain ⟨hB, hren⟩ := hbody hb
      obtain ⟨a, hasm, ht⟩ := hc.code hB
      obtain ⟨shape, hs⟩ := shapes_of_typed (ht.mono hle) hasm (hren.code hasm)
      refine ⟨shape, fun {n' s'} hb' => ?_⟩
      have hn : n' = n := (hc.free (hbody hb').1).symm.trans (hc.free hB)
      rw [hn, ← hone hb hb']
      exact hs
    · exact ⟨fun _ => none, fun {n s} hb => absurd ⟨n, s, hb⟩ hex⟩
  choose shape hs using hshape
  exact ⟨shape, ⟨fun {n r s} hb => (hbody hb).2.alike, hlimits, hhost, hu, fun hb => (hs _ hb).1,
    fun hb ho => (hs _ hb).2 _ _ ho⟩⟩

def Site.outermost (main : Ref) : Site := ⟨{ routine := main }, #[], 0, []⟩

/-- **The machines that start linked programs are twins.** -/
theorem World.starts (W : World) (shape : Ref → Nat → Option Shape) (limits : Limits.Run)
    {globals globals' : Array Value} (hmain : W.body 0 main main') (hheap : Heap.Related W h k)
    (hglobals : RelatedAll W globals.toList globals'.toList) :
    Twins W (W.mirror shape) (Machine.start main limits globals h) (Machine.start main' limits globals' k) where
  heap := hheap
  parts := by
    rw [RelatedAll, ← renamed_eq_related W h k] at hglobals
    have hplace : (W.mirror shape).place main 0 main' 0 := ⟨rfl, 0, hmain⟩
    exact ⟨main, main', {
      left := rfl, right := rfl, heap := hheap.joins, globals := hglobals, stack := .nil, locals := .nil
      captures := .nil, captured := fun _ hc => by simp [Machine.start] at hc
      frame := ⟨hplace, hplace, .none, .function hmain, rfl, rfl⟩
      callers := .nil, steps := rfl, allocations := rfl }⟩

/-- **The machine that starts a linked program satisfies the invariant of a run.** -/
theorem Linked.starts (hL : Linked W π env env' shape) (limits : Limits.Run) (globals : Array Value)
    (hmain : W.body 0 main main') (hlocals : (W.left.getD main {}).locals = 0) (h : Heap) :
    Running W shape (Site.outermost main) .empty (Machine.start main limits globals h) where
  place := ⟨trivial, rfl, rfl, rfl, rfl, [], rfl, .nil⟩
  shaped := hL.start hmain
  sound := by
    refine ⟨rfl, by simpa [Site.outermost] using hlocals, .nil, fun f hf => ?_⟩
    rcases Array.mem_push.mp hf with hf | rfl
    · exact absurd hf (Array.not_mem_empty f)
    · exact ⟨0, main', hmain, rfl⟩

end Scripting
