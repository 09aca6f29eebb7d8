import Scripting.Builtin.Call
import Scripting.Proofs.Value.Operation
/-!
# `Proofs.Value.Variables` — operations on values leave variables alone

Variables that closures have captured are cells of the heap, and closures say which cells they hold.
Both lie in tables of their own. No operation on values and no built-in function looks into these two
tables or changes them: to put other cells and closures into the heap (`Heap.withCells`) and then work
on values is to work on values first. So how variables are kept does not matter to values.

The property is `Commutes g x` with `g` the change of the two tables. It is proved for each operation
from the parts it is made of.
-/

namespace Scripting

open Heap

/-! ## Computations that do not depend on a part of the state -/

section

variable {ε σ α β : Type} {g : σ → σ}

/-- The same result with another state. -/
def onState (g : σ → σ) : EStateM.Result ε σ α → EStateM.Result ε σ α
  | .ok a s => .ok a (g s)
  | .error e s => .error e (g s)

theorem onState_ite [Decidable c] (hx : x = onState g x') (hy : y = onState g y') :
    (if c then x else y) = onState g (if c then x' else y') := by
  by_cases hc : c
  · rw [if_pos hc, if_pos hc, hx]
  · rw [if_neg hc, if_neg hc, hy]

/-- **What `g` changes in the state is of no matter**: the computation neither reads nor changes it. -/
def Commutes (g : σ → σ) (x : EStateM ε σ α) : Prop := ∀ s, x (g s) = onState g (x s)

namespace Commutes

theorem pure (a : α) : Commutes g (pure a : EStateM ε σ α) := fun _ => rfl

theorem throw (e : ε) : Commutes g (throw e : EStateM ε σ α) := fun _ => rfl

theorem bind (hx : Commutes g x) (hf : ∀ a, Commutes g (f a)) : Commutes g (x >>= f) := by
  intro s
  show EStateM.bind x f (g s) = onState g (EStateM.bind x f s)
  unfold EStateM.bind
  rw [hx s]
  cases x s with
  | ok a s => exact hf a s
  | error e s => rfl

theorem discard (hx : Commutes g x) : Commutes g (Functor.discard x) :=
  hx.bind (f := fun _ => Pure.pure ()) fun _ => pure ()

theorem mapM (hf : ∀ a, Commutes g (f a)) (xs : List α) : Commutes g (xs.mapM f) := by
  induction xs with
  | nil => exact pure []
  | cons a xs ih =>
    rw [List.mapM_cons]
    exact bind (hf a) fun b => bind ih fun bs => pure (b :: bs)

end Commutes

end

def Heap.withCells (cells : Array Value) (closures : Array Closure) (h : Heap) : Heap := { h with cells, closures }

variable {cells : Array Value} {closures : Array Closure}

/-! ## Reading -/

namespace Value

theorem slicePart_withCells : slicePart (h.withCells cells closures) = slicePart h := rfl

theorem equalsTo_withCells (h : Heap) (depth : Nat) (a b : Value) :
    equalsTo (h.withCells cells closures) depth a b = equalsTo h depth a b := by
  induction depth generalizing a b with
  | zero => rfl
  | succ depth ih =>
    have hdepth : equalsTo (h.withCells cells closures) depth = equalsTo h depth := by
      funext a b
      exact ih a b
    unfold equalsTo
    rw [hdepth]
    rfl

theorem equals_withCells (h : Heap) (a b : Value) : equals (h.withCells cells closures) a b = equals h a b :=
  equalsTo_withCells h _ a b

theorem textAt_withCells (h : Heap) (fuel depth : Nat) (v : Value) :
    textAt (h.withCells cells closures) fuel depth v = textAt h fuel depth v := by
  induction fuel generalizing depth v with
  | zero => rfl
  | succ fuel ih =>
    have hfuel : textAt (h.withCells cells closures) fuel = textAt h fuel := by
      funext depth v
      exact ih depth v
    unfold textAt
    rw [hfuel]
    rfl

theorem plain_withCells : plain (h.withCells cells closures) = plain h := by
  funext v
  cases v with
  | str s => rfl
  | _ => exact textAt_withCells h ..

end Value

namespace Format

theorem render_withCells : render (h.withCells cells closures) spec verb arg = render h spec verb arg := by
  unfold render misfit body?
  rw [Value.plain_withCells]
  rfl

theorem fillDirective_withCells :
    fillDirective (h.withCells cells closures) spec verb args = fillDirective h spec verb args := by
  cases args with
  | nil => rfl
  | cons arg args =>
    show (render _ spec verb arg, args) = (render h spec verb arg, args)
    rw [render_withCells]

theorem fill_withCells (h : Heap) (ps : List Piece) (args : List Value) (out : String) :
    fill (h.withCells cells closures) ps args out = fill h ps args out := by
  induction ps generalizing args out with
  | nil => rfl
  | cons p ps ih =>
    cases p with
    | directive spec verb =>
      unfold fill
      rw [fillDirective_withCells]
      simp only [ih]
    | char c => exact ih args (out.push c)
    | percent => exact ih args (out.push '%')
    | noVerb => exact ih args (out ++ "%!(NOVERB)")

theorem format_withCells : format (h.withCells cells closures) template args = format h template args := by
  unfold format surplus
  rw [fill_withCells, Value.plain_withCells]
  rfl

end Format

/-! ## Actions -/

namespace Commutes

theorem read (hf : ∀ h : Heap, f (h.withCells cells closures) = f h) :
    Commutes (withCells cells closures) (Action.read f) := by
  intro h
  show EStateM.Result.ok (f (h.withCells cells closures)) _ = EStateM.Result.ok (f h) _
  rw [hf]

theorem newBytes (bs : Array UInt8) : Commutes (withCells cells closures) (Action.newBytes bs) := fun _ => rfl

theorem newArray (xs : Array Value) : Commutes (withCells cells closures) (Action.newArray xs) := fun _ => rfl

theorem newMap (d : Dict Value) : Commutes (withCells cells closures) (Action.newMap d) := fun _ => rfl

theorem newError (v : Value) : Commutes (withCells cells closures) (Action.newError v) := fun _ => rfl

theorem ofExcept (x : Except ValueError α) : Commutes (withCells cells closures) (Action.ofExcept x) := by
  cases x with
  | ok a => exact pure a
  | error e => exact throw e

end Commutes

namespace Value

theorem binary_commutes (op : Operator) (a b : Value) : Commutes (withCells cells closures) (a.binary op b) := by
  intro h
  unfold binary
  split
  · exact onState_ite rfl rfl
  · rfl
  · exact Commutes.ofExcept _ h

theorem indexSet_commutes (target key value : Value) :
    Commutes (withCells cells closures) (target.indexSet key value) := by
  intro h
  unfold indexSet
  split
  · split
    · split
      · exact onState_ite rfl rfl
      · rfl
    · rfl
  · split
    · rfl
    · rfl
  · rfl

theorem slice_commutes (target low high : Value) :
    Commutes (withCells cells closures) (target.slice low high) := by
  intro h
  unfold slice
  rw [slicePart_withCells]
  cases slicePart h target low high with
  | ok s => cases s <;> rfl
  | error e => rfl

theorem freeze_commutes (v : Value) : Commutes (withCells cells closures) v.freeze := by
  intro h
  unfold freeze
  split <;> rfl

theorem copyTo_commutes (depth : Nat) (v : Value) : Commutes (withCells cells closures) (v.copyTo depth) := by
  induction depth generalizing v with
  | zero => exact Commutes.pure v
  | succ depth ih =>
    cases v with
    | bytes r => exact (Commutes.read fun _ => rfl).bind Commutes.newBytes
    | array kind r =>
      refine (Commutes.read fun _ => rfl).bind fun items => ?_
      rw [array_mapM, bind_assoc]
      refine (Commutes.mapM ih _).bind fun copies => ?_
      exact (Commutes.pure _).bind Commutes.newArray
    | map kind r =>
      refine (Commutes.read fun _ => rfl).bind fun d => ?_
      exact (Commutes.mapM ih _).bind fun copies => Commutes.newMap _
    | error r =>
      refine (Commutes.read fun _ => rfl).bind fun payload => ?_
      exact (ih payload).bind Commutes.newError
    | iterator r => exact (Commutes.read fun _ => rfl).bind fun _ _ => rfl
    | _ => exact Commutes.pure _

theorem iterate?_commutes (v : Value) : Commutes (withCells cells closures) v.iterate? := by
  intro h
  cases v <;> rfl

theorem iterNext_commutes (v : Value) : Commutes (withCells cells closures) v.iterNext := by
  intro h
  cases v <;> rfl

end Value

/-! ## Built-in functions -/

namespace Builtin

theorem badArgument_commutes :
    Commutes (withCells cells closures) (badArgument place expected v : Action α) := fun _ => rfl

theorem intArgument_commutes : Commutes (withCells cells closures) (intArgument place v) := by
  cases v with
  | int n => exact Commutes.pure n
  | _ => exact badArgument_commutes

theorem lengthOf_commutes : Commutes (withCells cells closures) (lengthOf v) := by
  intro h
  cases v <;> rfl

theorem appendTo_commutes : Commutes (withCells cells closures) (appendTo v more) := by
  intro h
  cases v <;> rfl

theorem deleteFrom_commutes : Commutes (withCells cells closures) (deleteFrom v key) := by
  cases v with
  | map kind r =>
    cases kind with
    | frozen => exact badArgument_commutes
    | mutable =>
      cases key with
      | str k => exact fun _ => rfl
      | _ => exact badArgument_commutes
  | _ => exact badArgument_commutes

theorem spliceStart_commutes : Commutes (withCells cells closures) (spliceStart length o) := by
  cases o with
  | none => exact Commutes.pure 0
  | some v =>
    refine intArgument_commutes.bind fun n => ?_
    split
    · exact Commutes.pure _
    · exact Commutes.throw _

theorem spliceCount_commutes : Commutes (withCells cells closures) (spliceCount rest o) := by
  cases o with
  | none => exact Commutes.pure rest
  | some v =>
    refine intArgument_commutes.bind fun n => ?_
    split
    · exact Commutes.pure _
    · exact Commutes.throw _

theorem spliceArray_commutes : Commutes (withCells cells closures) (spliceArray v args) := by
  unfold spliceArray
  split
  · refine (Commutes.read fun _ => rfl).bind fun items => ?_
    refine spliceStart_commutes.bind fun start => ?_
    refine spliceCount_commutes.bind fun count => ?_
    exact Commutes.bind (fun _ => rfl) fun _ => Commutes.newArray _
  · exact badArgument_commutes

theorem rangeOf_commutes : Commutes (withCells cells closures) (rangeOf start stop step) := by
  unfold rangeOf
  split
  · exact Commutes.throw _
  · dsimp only
    split
    · exact Commutes.throw _
    · exact Commutes.newArray _

theorem rangeArguments_commutes : Commutes (withCells cells closures) (rangeArguments start stop step) := by
  refine intArgument_commutes.bind fun start => ?_
  refine intArgument_commutes.bind fun stop => ?_
  cases step with
  | none => exact rangeOf_commutes
  | some step => exact intArgument_commutes.bind fun _ => rangeOf_commutes

theorem bytesOf_commutes : Commutes (withCells cells closures) (bytesOf v fallback) := by
  unfold bytesOf
  split
  · split
    · exact Commutes.throw _
    · split
      · exact Commutes.throw _
      · exact Commutes.newBytes _
  · exact Commutes.pure _
  · exact Commutes.newBytes _
  · exact Commutes.pure _

theorem convert_commutes : Commutes (withCells cells closures) (convert b v fallback) := by
  intro h
  unfold convert
  rw [Value.plain_withCells]
  split
  · split <;> rfl
  · rfl
  · rfl
  · rfl
  · rfl
  · exact bytesOf_commutes h

theorem formatOf_commutes : Commutes (withCells cells closures) (formatOf v args) := by
  cases v with
  | str t =>
    intro h
    cases args with
    | nil => rfl
    | cons a args =>
      show Action.ofExcept ((Format.format _ t (a :: args)).map Value.str) _ = _
      rw [Format.format_withCells]
      exact Commutes.ofExcept _ h
  | _ => exact badArgument_commutes

/-- **No built-in function looks at variables.** -/
theorem call_commutes (b : Builtin) (args : List Value) : Commutes (withCells cells closures) (b.call args) := by
  unfold call
  -- every case of the table is one of the functions above
  split
  all_goals first
    | exact lengthOf_commutes
    | exact Value.copyTo_commutes _ _
    | exact appendTo_commutes
    | exact deleteFrom_commutes
    | exact spliceArray_commutes
    | exact convert_commutes
    | exact formatOf_commutes
    | exact rangeArguments_commutes
    | exact Commutes.read fun _ => rfl
    | exact Commutes.pure _
    | exact Commutes.throw _

end Builtin

end Scripting
