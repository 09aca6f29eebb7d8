import Scripting.Compile.Unit
/-!
# `Proofs.Compile.Validity` — the static rules of the language

Which programs are valid, said of the syntax tree alone: no code, no slots, no captured variables.

* **names** — a `Setting` says where a piece of code stands: what the visible names stand for, which of them
  the innermost scope has defined, and whether there is a loop, a function or a function literal around it;
* **dead code** — `Stmt.ways` says how control leaves a statement. Statements after one that exits are never
  reached, and the rules do not apply to them;
* **rules** — `Expr.Valid`, `Stmt.Valid` and `ValidBody`, by recursion on the tree. A module can be imported
  (`Importable`) if its code is valid and imports nothing but modules that can be imported. The predicate is
  the least one with this property, so that no module imports itself, not even through others.
-/

namespace Scripting

/-! ## Where code stands -/

/-- What a visible name stands for. -/
inductive Role
  | builtin
  | var
  /-- The function literal whose body is at hand. -/
  | own
  deriving DecidableEq, Repr

/-- The role of a name inside a function literal: the own name of a literal around it is a variable like any
other. -/
def Role.inward : Role → Role
  | builtin => builtin
  | var | own => var

/-- Where a piece of code stands. -/
structure Setting where
  /-- What the visible names stand for. -/
  role : String → Option Role
  /-- The variables that the innermost scope has defined. -/
  here : List String := []
  /-- Inside the body of a loop of the function at hand. -/
  inLoop : Bool := false
  /-- Inside a function literal or a module. -/
  inFunction : Bool := false
  inLiteral : Bool := false

namespace Setting

/-- The setting after the innermost scope has defined some variables. -/
def defining (c : Setting) (names : List String) : Setting := { c with
  role := fun name => if name ∈ names then some .var else c.role name
  here := names ++ c.here }

def block (c : Setting) : Setting := { c with here := [] }

def loop (c : Setting) : Setting := { c with inLoop := true }

/-- The body of a function literal, which knows the name it is about to get unless a parameter has it. -/
def literal (c : Setting) (params : List String) (own : Option String) : Setting where
  role name :=
    if name ∈ params then some .var
    else if own = some name then some .own
    else (c.role name).map .inward
  inFunction := true
  inLiteral := true

/-- The body of a loop over the elements of a value. An iteration variable called `_` is not defined. -/
def iteration (c : Setting) (key : String) (value : Option String) : Setting :=
  (c.block.defining ((key :: value.toList).filter (· ≠ "_") ++ [Generator.iteratorName])).loop

def ofProgram : Setting where
  role name := if name ∈ Builtin.all.map (·.name) then some .builtin else none

/-- The code of a module, which sees nothing of the program that imports it. -/
def ofModule : Setting := { ofProgram with inFunction := true }

end Setting

/-! ## Dead code -/

/-- The jumps out of the innermost loop. -/
structure Jumps where
  continues : Bool := false
  breaks : Bool := false
  deriving DecidableEq, Repr

instance : Union Jumps := ⟨fun a b => ⟨a.continues || b.continues, a.breaks || b.breaks⟩⟩

/-- How control leaves a statement. -/
structure Ways where
  /-- It never reaches the code after the statement. -/
  exits : Bool := false
  jumps : Jumps := {}
  deriving DecidableEq, Repr

/-- The code between two rounds of a loop is reached only if a round can come to its end. -/
def Ways.goesOn (body : Ways) : Bool := !body.exits || body.jumps.continues

mutual

/-- How control leaves a statement. Only `break` ends a loop without a test. -/
def Stmt.ways : Stmt → Ways
  | .expr .. | .assign .. | .step .. | .empty _ => {}
  | .block _ body => bodyWays body
  | .branch _ init _ body other =>
    { exits := (bodyWays body).exits && (optionWays other).exits
      jumps := (optionWays init).jumps ∪ ((bodyWays body).jumps ∪ (optionWays other).jumps) }
  | .loop _ init test post body =>
    { exits := test.isNone && !(bodyWays body).jumps.breaks
      jumps := (optionWays init).jumps ∪
        (if (bodyWays body).goesOn then (optionWays post).jumps else {}) }
  | .forIn .. => {}
  | .breakLoop _ => { exits := true, jumps := { breaks := true } }
  | .continueLoop _ => { exits := true, jumps := { continues := true } }
  | .ret .. | .exportValue .. => { exits := true }

/-- How control leaves statements in a row: those after one that exits do not count. -/
def bodyWays : List Stmt → Ways
  | [] => {}
  | s :: rest =>
    if s.ways.exits then s.ways
    else { exits := (bodyWays rest).exits, jumps := s.ways.jumps ∪ (bodyWays rest).jumps }

/-- How control leaves a statement that may be missing. -/
def optionWays : Option Stmt → Ways
  | none => {}
  | some s => s.ways

end

/-! ## Rules -/

def Operator.isBinary : Operator → Bool
  | arith _ | order _ | equal | notEqual | logicalAnd | logicalOr => true
  | update _ | increment | decrement | assign | not | define => false

def Operator.isUnary : Operator → Bool
  | not | arith .sub | arith .xor | arith .add => true
  | _ => false

/-- The name at the start of a chain of indexing and selectors. -/
def Expr.base? : Expr → Option String
  | .ident _ name => some name
  | .index _ target _ | .selector _ target _ => target.base?
  | _ => none

/-- May code here assign to what an expression denotes? -/
def Setting.CanAssign (c : Setting) (target : Expr) : Prop :=
  ∃ name, target.base? = some name ∧ c.role name = some .var

/-- The variables that a statement defines in the scope in which it stands. -/
def Stmt.defines : Stmt → List String
  | .assign _ [.ident _ name] .define [_] => [name]
  | _ => []

/-- The variables that a statement defines, if there is one. -/
def optionDefines : Option Stmt → List String
  | none => []
  | some s => s.defines

mutual

/-- **The rules for expressions**, in a setting in which the modules of `R` can be imported. A function literal
that is about to get the name `own` knows it. -/
def Expr.Valid (R : String → Prop) (c : Setting) (own : Option String) : Expr → Prop
  | .ident _ name => (c.role name).isSome
  | .int .. | .float .. | .char .. | .str .. | .bool .. | .undefined _ => True
  | .array _ items => ValidExprs R c items
  | .map _ entries => ValidEntries R c entries
  | .binary _ op lhs rhs => op.isBinary ∧ lhs.Valid R c none ∧ rhs.Valid R c none
  | .unary _ op operand => op.isUnary ∧ operand.Valid R c none
  | .cond _ test yes no => test.Valid R c none ∧ yes.Valid R c none ∧ no.Valid R c none
  | .index _ target key => target.Valid R c none ∧ key.Valid R c none
  | .slice _ target low high => target.Valid R c none ∧ ValidOption R c low ∧ ValidOption R c high
  | .selector _ target _ => target.Valid R c none
  | .call _ callee args _ => callee.Valid R c none ∧ ValidExprs R c args
  | .func _ params variadic body =>
    (params.map (·.text)).Nodup ∧ (variadic → params ≠ []) ∧
      ValidBody R (c.literal (params.map (·.text)) own) body
  | .load _ name => R name
  | .error _ operand | .immutable _ operand => operand.Valid R c none

def ValidExprs (R : String → Prop) (c : Setting) : List Expr → Prop
  | [] => True
  | e :: es => e.Valid R c none ∧ ValidExprs R c es

def ValidEntries (R : String → Prop) (c : Setting) : List (String × Expr) → Prop
  | [] => True
  | (_, e) :: rest => e.Valid R c none ∧ ValidEntries R c rest

def ValidOption (R : String → Prop) (c : Setting) : Option Expr → Prop
  | none => True
  | some e => e.Valid R c none

/-- **The rules for statements.** -/
def Stmt.Valid (R : String → Prop) (c : Setting) : Stmt → Prop
  | .expr _ value => value.Valid R c none
  | .assign _ [target] op [value] =>
    if op = .define then ∃ pos name, target = .ident pos name ∧ name ∉ c.here ∧ value.Valid R c (some name)
    else c.CanAssign target ∧ target.Valid R c none ∧ value.Valid R c none
  | .assign .. => False
  | .step _ target _ => c.CanAssign target ∧ target.Valid R c none
  | .block _ body => ValidBody R c.block body
  | .branch _ init test body other =>
    ValidSimple R c.block init ∧ test.Valid R (c.block.defining (optionDefines init)) none ∧
      ValidBody R (c.block.defining (optionDefines init)).block body ∧
      ValidSimple R (c.block.defining (optionDefines init)) other
  | .loop _ init test post body =>
    ValidSimple R c.block init ∧ ValidOption R (c.block.defining (optionDefines init)) test ∧
      ValidBody R (c.block.defining (optionDefines init)).loop.block body ∧
      ((bodyWays body).goesOn → ValidSimple R (c.block.defining (optionDefines init)) post)
  | .forIn _ key value iterable body =>
    iterable.Valid R c.block none ∧ ValidBody R (c.iteration key.text (value.map (·.text))).block body
  | .breakLoop _ | .continueLoop _ => c.inLoop
  | .ret _ value => c.inFunction ∧ ValidOption R c value
  | .exportValue _ value => ¬c.inLiteral ∧ value.Valid R c none
  | .empty _ => True

/-- **The rules for statements in a row**: each is valid where the ones before have left it, as far as control
gets. -/
def ValidBody (R : String → Prop) (c : Setting) : List Stmt → Prop
  | [] => True
  | s :: rest => s.Valid R c ∧ (s.ways.exits = false → ValidBody R (c.defining s.defines) rest)

def ValidSimple (R : String → Prop) (c : Setting) : Option Stmt → Prop
  | none => True
  | some s => s.Valid R c

end

/-! ## Modules and programs -/

/-- **The modules that can be imported**, none of `busy` among them: those that are built in, and those whose
code is valid where only such modules are imported. -/
inductive Importable (modules : ModuleMap) (busy : List String) : String → Prop
  | builtin {name attributes} : name ≠ "" →
    modules.get? name = some (.builtin attributes) → Importable modules busy name
  | source {name body} (R : String → Prop) : name ≠ "" →
    modules.get? name = some (.source body) → name ∉ busy → (∀ m, R m → Importable modules busy m) →
    ValidBody R .ofModule body → Importable modules busy name

/-- The code of a module is valid where only modules are imported that can be imported without it. -/
private def StandsAlone (modules : ModuleMap) (busy : List String) (name : String) (body : List Stmt) : Prop :=
  ∃ R : String → Prop, (∀ m, R m → Importable modules (name :: busy) m) ∧ ValidBody R .ofModule body

variable {modules : ModuleMap} {busy : List String} {name : String} {body : List Stmt}

/-- A module is imported without going through another one, unless that one has valid code by itself. -/
private theorem Importable.without (hget : modules.get? name = some (.source body))
    (hnot : ¬StandsAlone modules busy name body) (h : Importable modules busy m) :
    Importable modules (name :: busy) m := by
  induction h with
  | builtin hne hm => exact .builtin hne hm
  | source R hne hm hbusy _ hvalid ih =>
    refine .source R hne hm (fun hmem => ?_) ih hvalid
    rcases List.mem_cons.mp hmem with rfl | hmem
    · rw [hget] at hm
      cases hm
      exact hnot ⟨R, ih, hvalid⟩
    · exact hbusy hmem

/-- **A module that can be imported has valid code**, and the modules that it imports can be imported without it. -/
theorem Importable.valid (h : Importable modules busy name) (hget : modules.get? name = some (.source body)) :
    name ∉ busy ∧ ∃ R : String → Prop, (∀ m, R m → Importable modules (name :: busy) m) ∧
      ValidBody R .ofModule body := by
  constructor
  · cases h with
    | builtin _ hm =>
      rw [hget] at hm
      cases hm
    | source _ _ _ hbusy => exact hbusy
  · refine Classical.byContradiction fun hnot => ?_
    cases h.without hget hnot with
    | builtin _ hm =>
      rw [hget] at hm
      cases hm
    | source _ _ _ hbusy => exact hbusy List.mem_cons_self

/-- **The valid programs.** -/
def ValidProgram (modules : ModuleMap) (body : List Stmt) : Prop :=
  ValidBody (Importable modules []) .ofProgram body

end Scripting
