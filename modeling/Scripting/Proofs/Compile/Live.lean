import Scripting.Proofs.Compile.Acceptance
/-!
# `Proofs.Compile.Live` — the live parts of a program

A program is more than its main code: an import stands for the code of a module, and what comes after a statement
that exits is dropped. `Piece.parts` gives what lies directly inside a piece of code, and `Within` everything that
is compiled with it. All of it is valid in some setting if the whole is (`Sound.within`).
-/

namespace Scripting

open Relation List

/-- A piece of code. -/
inductive Piece
  | expr (e : Expr)
  | stmt (s : Stmt)
  | body (b : List Stmt)

namespace Piece

def ofModule : Option Module → List Piece
  | some (.source b) => [body b]
  | _ => []

def ofExpr (M : ModuleMap) : Expr → List Piece
  | .ident .. | .int .. | .float .. | .char .. | .str .. | .bool .. | .undefined _ => []
  | .array _ items => items.map expr
  | .map _ entries => entries.map fun entry => expr entry.2
  | .binary _ _ x y | .index _ x y => [expr x, expr y]
  | .unary _ _ x | .selector _ x _ | .error _ x | .immutable _ x => [expr x]
  | .cond _ x y z => [expr x, expr y, expr z]
  | .slice _ x low high => expr x :: (low.toList ++ high.toList).map expr
  | .call _ x args _ => expr x :: args.map expr
  | .func _ _ _ b => [body b]
  | .load _ name => ofModule (M.get? name)

/-- The parts of a statement. A name that is defined is no expression. -/
def ofStmt : Stmt → List Piece
  | .expr _ x | .step _ x _ | .exportValue _ x => [expr x]
  | .assign _ targets op values => ((if op = .define then [] else targets) ++ values).map expr
  | .block _ b => [body b]
  | .branch _ init test b other => init.toList.map stmt ++ expr test :: body b :: other.toList.map stmt
  | .loop _ init test post b => init.toList.map stmt ++ test.toList.map expr ++
    body b :: (if (bodyWays b).goesOn then post.toList.map stmt else [])
  | .forIn _ _ _ x b => [expr x, body b]
  | .ret _ x => x.toList.map expr
  | .breakLoop _ | .continueLoop _ | .empty _ => []

/-- **What lies directly inside a piece of code** and is not dropped. -/
def parts (M : ModuleMap) : Piece → List Piece
  | expr e => ofExpr M e
  | stmt s => ofStmt s
  | body [] => []
  | body (s :: rest) => stmt s :: if s.ways.exits then [] else [body rest]

/-- **All that is compiled with a piece of code**, at any depth. -/
def Within (M : ModuleMap) : Piece → Piece → Prop := ReflTransGen fun p q => q ∈ p.parts M

def Valid (R : String → Prop) (c : Setting) : Piece → Prop
  | expr e => ∃ own, e.Valid R c own
  | stmt s => s.Valid R c
  | body b => ValidBody R c b

/-- **A piece of code that is valid somewhere**, where all modules that it imports can be imported. -/
def Sound (M : ModuleMap) (p : Piece) : Prop :=
  ∃ (R : String → Prop) (c : Setting), (∀ m, R m → Importable M [] m) ∧ p.Valid R c

end Piece

open Piece

variable {M : ModuleMap} {R : String → Prop} {c : Setting} {busy : List String} {p q : Piece}

theorem validExprs_iff : ValidExprs R c es ↔ ∀ e ∈ es, e.Valid R c none := by
  induction es with
  | nil => simp [ValidExprs]
  | cons e es ih => simp [ValidExprs, ih]

theorem validEntries_iff : ValidEntries R c entries ↔ ∀ entry ∈ entries, entry.2.Valid R c none := by
  induction entries with
  | nil => simp [ValidEntries]
  | cons entry rest ih => simp [ValidEntries, ih]

theorem validOption_iff : ValidOption R c o ↔ ∀ e ∈ o.toList, e.Valid R c none := by
  cases o <;> simp [ValidOption]

theorem validSimple_iff : ValidSimple R c o ↔ ∀ s ∈ o.toList, s.Valid R c := by
  cases o <;> simp [ValidSimple]

theorem Importable.mono (h : Importable M busy name) : Importable M [] name := by
  induction h with
  | builtin hne hget => exact .builtin hne hget
  | source R hne hget _ _ hvalid ih => exact .source R hne hget not_mem_nil ih hvalid

namespace Piece

theorem Valid.sound (hR : ∀ m, R m → Importable M [] m) (h : q.Valid R c) : Sound M q := ⟨R, c, hR, h⟩

theorem sound_ofExpr (hR : ∀ m, R m → Importable M [] m) (h : e.Valid R c own) : ∀ q ∈ ofExpr M e, Sound M q := by
  have hexpr {e : Expr} (he : e.Valid R c none) : Sound M (expr e) := Valid.sound hR ⟨none, he⟩
  cases e with
  | load pos name =>
    cases hget : M.get? name with
    | none => simp [ofExpr, hget, ofModule]
    | some m =>
      cases m with
      | builtin attributes => simp [ofExpr, hget, ofModule]
      | source b =>
        obtain ⟨-, R', hR', hvalid⟩ := (hR name h).valid hget
        simp only [ofExpr, hget, ofModule, mem_singleton, forall_eq]
        exact ⟨R', _, fun m hm => (hR' m hm).mono, hvalid⟩
  | func pos params variadic b =>
    simp only [ofExpr, mem_singleton, forall_eq]
    exact Valid.sound (q := body b) hR h.2.2
  | _ =>
    simp only [Expr.Valid, validExprs_iff, validEntries_iff, validOption_iff] at h
    simp only [ofExpr, mem_cons, mem_map, mem_append]
    grind

theorem sound_ofStmt (hR : ∀ m, R m → Importable M [] m) (h : s.Valid R c) : ∀ q ∈ ofStmt s, Sound M q := by
  have hexpr {c : Setting} {own : Option String} {e : Expr} (he : e.Valid R c own) : Sound M (expr e) :=
    Valid.sound hR ⟨own, he⟩
  have hstmt {c : Setting} {s : Stmt} (hs : s.Valid R c) : Sound M (stmt s) := Valid.sound (q := stmt s) hR hs
  have hbody {c : Setting} {b : List Stmt} (hb : ValidBody R c b) : Sound M (body b) := Valid.sound (q := body b) hR hb
  cases s with
  | assign pos targets op values =>
    match targets, values with
    | [target], [value] =>
      by_cases hop : op = .define
      · simp only [hop] at h
        obtain ⟨_, _, _, _, hvalue⟩ := h
        simpa [ofStmt, hop] using hexpr hvalue
      · simp only [Stmt.Valid, hop] at h
        simpa [ofStmt, hop] using ⟨hexpr h.2.1, hexpr h.2.2⟩
    | [], _ | _ :: _ :: _, _ | [_], [] | [_], _ :: _ :: _ => simp [Stmt.Valid] at h
  | loop pos init test post b =>
    simp only [Stmt.Valid, validSimple_iff, validOption_iff] at h
    simp only [ofStmt]
    split <;> grind
  | _ =>
    simp only [Stmt.Valid, validSimple_iff, validOption_iff] at h
    simp only [ofStmt, mem_cons, mem_map, mem_append]
    grind

/-- **The step lemma**: what is valid has valid parts. -/
theorem Sound.parts (h : Sound M p) : ∀ q ∈ p.parts M, Sound M q := by
  obtain ⟨R, c, hR, hp⟩ := h
  cases p with
  | expr e =>
    obtain ⟨own, he⟩ := hp
    exact sound_ofExpr hR he
  | stmt s => exact sound_ofStmt hR hp
  | body b =>
    cases b with
    | nil => exact forall_mem_nil _
    | cons s rest =>
      obtain ⟨hs, hrest⟩ : s.Valid R c ∧ (s.ways.exits = false → ValidBody R (c.defining s.defines) rest) := by
        simpa only [Valid, ValidBody] using hp
      refine forall_mem_cons.mpr ⟨⟨R, c, hR, hs⟩, fun q hq => ?_⟩
      by_cases hexits : s.ways.exits = true
      · rw [if_pos hexits] at hq
        cases hq
      · rw [if_neg hexits, mem_singleton] at hq
        subst hq
        exact ⟨R, _, hR, hrest (Bool.not_eq_true _ ▸ hexits)⟩

/-- **All that is compiled with a valid piece of code is valid somewhere.** -/
theorem Sound.within (h : Sound M p) (hq : Within M p q) : Sound M q := by
  induction hq with
  | refl => exact h
  | tail _ hstep ih => exact ih.parts _ hstep

end Piece

end Scripting
