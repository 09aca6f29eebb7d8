import Scripting.Operator
import Scripting.Proofs.Code.Fragment
import Scripting.Value
/-!
# `Proofs.Code.Shape` — the operand stack before each instruction

The *shape* of a frame is the height of its operand stack, with a note on the values that are known to be
texts, and the number of cells that wait for the next closure. `Effect` says how an instruction changes
the shape and what it needs: enough operands, and only variables and constants that exist. `Typed` puts
the effects of a fragment together.

A typed fragment assigns one shape to every instruction of its layout, and every way control can go from
an instruction leads to an offset with the shape that the instruction leaves (`Typed.laysOut`). The code
may come in two versions with different numbers for the constants; the shapes are the same.
-/

namespace Scripting

open Code

/-! ## Shapes -/

/-- What is known about a value on the operand stack. -/
inductive Kind
  | any
  | text
  deriving DecidableEq, Repr

/-- What a kind says about a value. -/
def Kind.Has (κ : Kind) (v : Value) : Prop := κ = .text → ∃ s, v = .str s

theorem Kind.any_has (v : Value) : Kind.any.Has v := by
  rintro ⟨⟩

/-- The operand stack of a frame, topmost first, and the number of cells that wait for a closure. -/
structure Shape where
  slots : List Kind := []
  pending : Nat := 0
  deriving DecidableEq, Repr

/-- The shape between statements. -/
def Shape.empty : Shape := {}

/-- What the code of a function may refer to. -/
structure Sig where
  locals : Nat
  free : Nat
  /-- The constants that may be pushed, and what is known about them. -/
  constant : Nat → Kind → Prop
  /-- The constants that are functions with a number of captured variables. -/
  closure : Nat → Nat → Prop

/-- Everything that one signature allows, the other one allows. -/
structure Sig.Le (Λ Λ' : Sig) : Prop where
  locals : Λ.locals ≤ Λ'.locals
  free : Λ.free ≤ Λ'.free
  constant : ∀ {k κ}, Λ.constant k κ → Λ'.constant k κ
  closure : ∀ {k n}, Λ.closure k n → Λ'.closure k n

/-- The keys and values of a map literal on top of a stack. -/
def entrySlots : Nat → List Kind → List Kind
  | 0, σ => σ
  | n + 1, σ => .any :: .text :: entrySlots n σ

/-- The number of operands of an instruction that replaces them by one result and needs nothing else. -/
def Opcode.takes? : Opcode → Option Nat
  | .true | .false | .null | .currentFunc => some 0
  | .minus | .complement | .not | .error | .immutable | .iterInit | .iterNext | .iterKey | .iterValue =>
    some 1
  | .equal | .notEqual | .index => some 2
  | .slice => some 3
  | _ => none

/-- The instructions that push a variable or a built-in function. -/
def Sig.Loads (Λ : Sig) : Instruction → Prop
  | ⟨.getGlobal, [_]⟩ => True
  | ⟨.getLocal, [i]⟩ => i < Λ.locals
  | ⟨.getFree, [i]⟩ => i < Λ.free
  | ⟨.getBuiltin, [i]⟩ => (Builtin.ofIndex? i).isSome
  | _ => False

/-- The instructions that pop a value into a variable. -/
def Sig.Stores (Λ : Sig) : Instruction → Prop
  | ⟨.setGlobal, [_]⟩ => True
  | ⟨.setLocal, [i]⟩ | ⟨.defineLocal, [i]⟩ => i < Λ.locals
  | ⟨.setFree, [i]⟩ => i < Λ.free
  | _ => False

/-- The instructions that assign to a part of a variable, by the number of selectors. -/
def Sig.StoresPart (Λ : Sig) : Instruction → Nat → Prop
  | ⟨.setSelGlobal, [_, n]⟩, m => n = m ∧ 0 < n
  | ⟨.setSelLocal, [i, n]⟩, m => i < Λ.locals ∧ n = m ∧ 0 < n
  | ⟨.setSelFree, [i, n]⟩, m => i < Λ.free ∧ n = m ∧ 0 < n
  | _, _ => False

/-- The instructions that take a cell for the next closure. -/
def Sig.Captures (Λ : Sig) : Instruction → Prop
  | ⟨.getLocalPtr, [i]⟩ => i < Λ.locals
  | ⟨.getFreePtr, [i]⟩ => i < Λ.free
  | ⟨.currentFuncPtr, []⟩ => True
  | _ => False

/-- **What an instruction needs and leaves.** -/
inductive Effect (Λ : Sig) : Instruction → Shape → Shape → Prop
  | operation {op xs σ} (h : op.takes? = some xs.length) : Effect Λ ⟨op, []⟩ ⟨xs ++ σ, 0⟩ ⟨.any :: σ, 0⟩
  | pop {κ σ} : Effect Λ ⟨.pop, []⟩ ⟨κ :: σ, 0⟩ ⟨σ, 0⟩
  | constant {k κ σ} (h : Λ.constant k κ) : Effect Λ ⟨.constant, [k]⟩ ⟨σ, 0⟩ ⟨κ :: σ, 0⟩
  | load {i σ} (h : Λ.Loads i) : Effect Λ i ⟨σ, 0⟩ ⟨.any :: σ, 0⟩
  | store {i κ σ} (h : Λ.Stores i) : Effect Λ i ⟨κ :: σ, 0⟩ ⟨σ, 0⟩
  | storePart {i κ xs σ} (h : Λ.StoresPart i xs.length) : Effect Λ i ⟨xs ++ κ :: σ, 0⟩ ⟨σ, 0⟩
  | binary {c κ κ' σ} (h : (Operator.ofCode? c).isSome) : Effect Λ ⟨.binaryOp, [c]⟩ ⟨κ :: κ' :: σ, 0⟩ ⟨.any :: σ, 0⟩
  | array {xs σ} : Effect Λ ⟨.array, [xs.length]⟩ ⟨xs ++ σ, 0⟩ ⟨.any :: σ, 0⟩
  | map {n σ} : Effect Λ ⟨.map, [n * 2]⟩ ⟨entrySlots n σ, 0⟩ ⟨.any :: σ, 0⟩
  | call {spread κ xs σ} : Effect Λ ⟨.call, [xs.length, spread]⟩ ⟨xs ++ κ :: σ, 0⟩ ⟨.any :: σ, 0⟩
  | capture {i σ n} (h : Λ.Captures i) : Effect Λ i ⟨σ, n⟩ ⟨σ, n + 1⟩
  | closure {k n σ} (h : Λ.closure k n) : Effect Λ ⟨.closure, [k, n]⟩ ⟨σ, n⟩ ⟨.any :: σ, 0⟩

/-- **What a fragment needs and leaves.** Code that control never reaches the end of is typed as if it
left the empty stack, which is what all code after it starts with. -/
inductive Typed (Λ : Sig) : Fragment → Shape → Shape → Prop
  | nil {σ} : Typed Λ .nil σ σ
  | op {i σ τ} (h : Effect Λ i σ τ) : Typed Λ (.op i) σ τ
  | ret {σ} : Typed Λ (.op ⟨.ret, [0]⟩) ⟨σ, 0⟩ .empty
  | retValue {κ σ} : Typed Λ (.op ⟨.ret, [1]⟩) ⟨κ :: σ, 0⟩ .empty
  | suspend : Typed Λ (.op ⟨.suspend, []⟩) .empty .empty
  | seq {a b σ τ υ} (ha : Typed Λ a σ τ) (hb : Typed Λ b τ υ) : Typed Λ (.seq a b) σ υ
  | skip {body κ σ} (hb : Typed Λ body ⟨σ, 0⟩ ⟨σ, 0⟩) : Typed Λ (.skip .falsy body) ⟨κ :: σ, 0⟩ ⟨σ, 0⟩
  | decide {kind body κ σ} (hk : kind ≠ .falsy)
    (hb : Typed Λ body ⟨σ, 0⟩ ⟨.any :: σ, 0⟩) : Typed Λ (.skip kind body) ⟨κ :: σ, 0⟩ ⟨.any :: σ, 0⟩
  | fork {yes no join κ σ τ} (hj : join = false → τ = σ)
    (hy : Typed Λ yes ⟨σ, 0⟩ ⟨τ, 0⟩) (hn : Typed Λ no ⟨σ, 0⟩ ⟨τ, 0⟩) :
    Typed Λ (.fork yes join no) ⟨κ :: σ, 0⟩ ⟨τ, 0⟩
  | loop {tested back test body post κ}
    (ht : tested = true → Typed Λ test .empty ⟨[κ], 0⟩) (hb : Typed Λ body .empty .empty)
    (hp : back = true → Typed Λ post .empty .empty) :
    Typed Λ (.loop tested test body back post) .empty .empty
  | exit {e} : Typed Λ (.exit e) .empty .empty

theorem Effect.mono (hle : Λ.Le Λ') (h : Effect Λ i σ τ) : Effect Λ' i σ τ := by
  have hl := hle.locals
  have hf := hle.free
  cases h with
  | operation h => exact .operation h
  | pop => exact .pop
  | constant h => exact .constant (hle.constant h)
  | load h =>
    refine .load ?_
    unfold Sig.Loads at h ⊢
    split at h <;> first | exact h | omega
  | store h =>
    refine .store ?_
    unfold Sig.Stores at h ⊢
    split at h <;> first | exact h | omega
  | storePart h =>
    refine .storePart ?_
    unfold Sig.StoresPart at h ⊢
    split at h <;> first | exact h | omega
  | binary h => exact .binary h
  | array => exact .array
  | map => exact .map
  | call => exact .call
  | capture h =>
    refine .capture ?_
    unfold Sig.Captures at h ⊢
    split at h <;> first | exact h | omega
  | closure h => exact .closure (hle.closure h)

theorem Typed.mono (hle : Λ.Le Λ') (h : Typed Λ f σ τ) : Typed Λ' f σ τ := by
  induction h with
  | nil => exact .nil
  | op h => exact .op (h.mono hle)
  | ret => exact .ret
  | retValue => exact .retValue
  | suspend => exact .suspend
  | seq _ _ iha ihb => exact .seq iha ihb
  | skip _ ih => exact .skip ih
  | decide hk _ ih => exact .decide hk ih
  | fork hj _ _ ihy ihn => exact .fork hj ihy ihn
  | loop _ _ _ iht ihb ihp => exact .loop iht ihb ihp
  | exit => exact .exit

end Scripting
