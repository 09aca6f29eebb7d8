import Scripting.Compile.Generator
import Scripting.Module
/-!
# `Compile.Construct` — the code of each construct

One step for every construct that needs more than a few instructions. The steps that compile the
parts of a construct are arguments, so each definition here shows how the code of a construct is laid
out around the code of its parts and nothing else.

Steps for statements answer whether the statement *exits*: control never reaches the code after it.
-/

namespace Scripting

namespace Generator

/-! ## Conditions -/

/-- `test ? yes : no` -/
def conditional (pos : Pos) (test yes no : Gen Unit) : Gen Unit := do
  test
  let toNo ← emit pos .jumpFalsy [0]
  yes
  let toEnd ← emit pos .jump [0]
  patchHere pos toNo
  no
  patchHere pos toEnd

/-- `lhs && rhs` and `lhs || rhs`: the jump skips the right operand. -/
def shortCircuit (pos : Pos) (jumpOp : Opcode) (lhs rhs : Gen Unit) : Gen Unit := do
  lhs
  let toEnd ← emit pos jumpOp [0]
  rhs
  patchHere pos toEnd

/-- A binary operation. Comparing with `<` and `<=` evaluates the right operand first and compares the
other way round. -/
def binary (pos : Pos) (op : Operator) (lhs rhs : Gen Unit) : Gen Unit :=
  match op with
  | .logicalAnd => shortCircuit pos .andJump lhs rhs
  | .logicalOr => shortCircuit pos .orJump lhs rhs
  | .order .less => do
    rhs
    lhs
    emit_ pos .binaryOp [(Operator.order .greater).code]
  | .order .lessEq => do
    rhs
    lhs
    emit_ pos .binaryOp [(Operator.order .greaterEq).code]
  | .equal => do
    lhs
    rhs
    emit_ pos .equal
  | .notEqual => do
    lhs
    rhs
    emit_ pos .notEqual
  | .arith _ | .order .greater | .order .greaterEq => do
    lhs
    rhs
    emit_ pos .binaryOp [op.code]
  | _ => throw { cause := .invalidBinary op, pos }

/-- A unary operation on the value on top of the stack. -/
def unary (pos : Pos) : Operator → Gen Unit
  | .not => emit_ pos .not
  | .arith .sub => emit_ pos .minus
  | .arith .xor => emit_ pos .complement
  | .arith .add => pure ()
  | op => throw { cause := .invalidUnary op, pos }

/-- `if init; test { body } else other`. There is no jump over the `else` part when the body exits. -/
def branch (pos : Pos) (init test : Gen Unit) (body : Gen Bool) (other : Option (Gen Bool)) :
    Gen Bool := inBlock do
  init
  test
  let toOther ← emit pos .jumpFalsy [0]
  let exits ← inBlock body
  match other with
  | none =>
    patchHere pos toOther
    return false
  | some other =>
    let toEnd ← if exits then pure none else some <$> emit pos .jump [0]
    patchHere pos toOther
    let otherExits ← other
    toEnd.forM (patchHere pos)
    return exits && otherExits

/-! ## Loops -/

/-- `for init; test; post { body }`. Without a test, only `break` ends the loop. -/
def loop (pos : Pos) (init : Gen Unit) (test : Option (Gen Unit)) (post : Gen Unit)
    (body : Gen Bool) : Gen Bool := inBlock do
  init
  let start ← here
  let toEnd ← test.mapM fun test => do
    test
    emit pos .jumpFalsy [0]
  let (exits, jumps) ← inLoop (inBlock body)
  let next ← here
  if !exits || !jumps.continues.isEmpty then
    post
    emit_ pos .jump [start]
  let done ← here
  toEnd.forM fun jump => patchJump pos jump done
  patchLoop pos jumps next done
  return test.isNone && jumps.breaks.isEmpty

/-- Give an iteration variable its value for this round, unless it is called `_`. -/
def bindIteration (pos : Pos) (iterator : Symbol) (read : Opcode) (name : String) : Gen Unit := do
  if name != "_" then
    let sym ← define name
    emitLoad pos iterator
    emit_ pos read
    emitDefine pos sym

/-- The name of the variable that holds the iterator of a loop. No program can write such a name. -/
def iteratorName : String := ":it"

/-- `for key, value in iterable { body }` -/
def forIn (pos : Pos) (key : String) (value : Option String) (iterable : Gen Unit)
    (body : Gen Bool) : Gen Bool := inBlock do
  iterable
  emit_ pos .iterInit
  let iterator ← define iteratorName
  emitDefine pos iterator
  let start ← here
  emitLoad pos iterator
  emit_ pos .iterNext
  let toEnd ← emit pos .jumpFalsy [0]
  let (exits, jumps) ← inLoop do
    bindIteration pos iterator .iterKey key
    value.forM (bindIteration pos iterator .iterValue)
    inBlock body
  let next ← here
  if !exits || !jumps.continues.isEmpty then
    emit_ pos .jump [start]
  let done ← here
  patchJump pos toEnd done
  patchLoop pos jumps next done
  return false

/-! ## Assignments -/

/-- The variable that an assignment changes, and how many selectors lead from it to the place that is
changed. -/
def assignTarget : Expr → Option (String × Nat)
  | .ident _ name => some (name, 0)
  | .index _ target _ | .selector _ target _ =>
    (assignTarget target).map fun (name, n) => (name, n + 1)
  | _ => none

/-- May `:=` define a name that stands for this in the innermost scope? -/
def isShadowable : Option Symbol → Bool
  | none => true
  | some sym => sym.kind = .builtin || sym.kind = .self

/-- The variable that an assignment changes, or `none` for one that it will define. -/
def assignVariable (pos : Pos) (op : Operator) (name : String) : Gen (Option Symbol) := do
  if op = .define then
    if isShadowable (← resolveTop? name) then return none
    throw { cause := .redeclared name, pos }
  match ← resolve? name with
  | none => throw { cause := .unresolved name, pos }
  | some sym =>
    match sym.kind with
    | .builtin => throw { cause := .assignBuiltin name, pos }
    | .self => throw { cause := .assignSelf name, pos }
    | _ => return some sym

/-- Pop a value into a variable, or into the place to which `selectors` selectors lead from it. -/
def emitStore (pos : Pos) (op : Operator) (sym : Symbol) (selectors : Nat) : Gen Unit :=
  match sym.kind, selectors with
  | .globalVar, 0 => emit_ pos .setGlobal [sym.index]
  | .globalVar, n => emit_ pos .setSelGlobal [sym.index, n]
  | .localVar, 0 => emit_ pos (if op = .define then .defineLocal else .setLocal) [sym.index]
  | .localVar, n => emit_ pos .setSelLocal [sym.index, n]
  | .captured, 0 => emit_ pos .setFree [sym.index]
  | .captured, n => emit_ pos .setSelFree [sym.index, n]
  | kind, _ => throw { cause := .unassignable kind, pos }

/-- `target op value`. A compound assignment reads the target first; the selectors are evaluated after
the value. A function that `:=` defines knows its own name. -/
def assign (pos : Pos) (op : Operator) (target : Expr) (read selectors : Gen Unit)
    (value : Option String → Gen Unit) : Gen Unit := do
  let some (name, n) := assignTarget target | throw { cause := .invalidTarget, pos }
  if op = .define && n != 0 then throw { cause := .defineWithSelector, pos }
  let existing? ← assignVariable pos op name
  if op.updates?.isSome then read
  value (if op = .define then some name else none)
  let sym ← match existing? with
    | some sym => pure sym
    | none => define name
  op.updates?.forM fun arith => emit_ pos .binaryOp [(Operator.arith arith).code]
  selectors
  emitStore pos op sym n

/-! ## Functions -/

def defineParams : List Name → Gen Unit
  | [] => pure ()
  | p :: ps => do
    if (← resolveTop? p.text).isSome then throw { cause := .redeclared p.text, pos := p.pos }
    discard (define p.text)
    defineParams ps

/-- Let the body of a function refer to the function by name, unless a parameter has the name. -/
def defineSelf (name : String) : Gen Unit := do
  if (← resolveTop? name).isNone then
    modify fun g => { g with table := (g.table.defineFunction name).2 }

def emitCaptures (pos : Pos) : List Symbol → Gen Unit
  | [] => pure ()
  | sym :: rest => do
    match sym.kind with
    | .localVar => emit_ pos .getLocalPtr [sym.index]
    | .captured => emit_ pos .getFreePtr [sym.index]
    | .self => emit_ pos .currentFuncPtr
    | kind => throw { cause := .uncapturable kind sym.name, pos }
    emitCaptures pos rest

/-- End code that may run off its end with a return. -/
def emitFinalReturn (exits : Bool) : Gen Unit :=
  if exits then pure () else emit_ Pos.none .ret [0]

def function (pos : Pos) (params : List Name) (variadic : Bool) (self : Option String)
    (body : Gen Bool) : Gen Unit := do
  if Code.maxOperand 1 < params.length then
    throw { cause := .limit .parameters (Code.maxOperand 1), pos }
  if variadic && params.isEmpty then throw { cause := .variadicWithoutParameter, pos }
  openFunction
  defineParams params
  self.forM defineSelf
  emitFinalReturn (← inBlock body)
  let (scope, summary) ← closeFunction
  if Code.maxOperand 2 < scope.code.size then
    throw { cause := .limit .instructionBytes (Code.maxOperand 2), pos }
  let routine ← newRoutine {
    code := scope.code
    locals := summary.locals
    params := params.length
    variadic
    free := summary.captures.map (·.name)
    positions := scope.positions }
  let constant ← addConstant (.function routine)
  if summary.captures.isEmpty then emit_ pos .constant [constant]
  else
    emitCaptures pos summary.captures
    emit_ pos .closure [constant, summary.captures.length]

/-! ## Modules -/

/-- Run a step with the symbol table, the code and the unit depth of a fresh module, and go back to
those of the importing code whether the step fails or not. Gives the code of the module and the number
of its local variables. -/
def inModule (name : String) (step : Gen Unit) : Gen (CodeScope × Nat) := fun g =>
  let outerTable := g.table
  let outerUnit := g.unitDepth
  let inside := { g with
    table := (SymbolTable.ofBuiltins g.table.builtins).enter false
    scope := {}
    outer := g.scope :: g.outer
    unitDepth := g.outer.length + 1
    importing := name :: g.importing }
  let finish (g : Generator) : CodeScope × Nat × Generator :=
    let locals := g.table.leave.1.locals
    let g := g.unwind g.unitDepth
    let (scope, outer) : CodeScope × List CodeScope :=
      match g.outer with
      | s :: rest => (s, rest)
      | [] => ({}, [])
    (g.scope, locals, { g with
      table := outerTable, scope, outer, unitDepth := outerUnit, importing := g.importing.tail })
  match step inside with
  | .ok _ g =>
    let (scope, locals, g) := finish g
    .ok (scope, locals) g
  | .error e g => .error e (finish g).2.2

/-- Compile a source module to a function without parameters. A module that compiled without errors
is compiled once. -/
def moduleFunction (pos : Pos) (name : String) (body : Gen Bool) : Gen Ref := do
  if (← get).importing.contains name then throw { cause := .cyclicImport name, pos }
  match (← get).modules.get? name with
  | some routine => return routine
  | none =>
    let errorsBefore := (← get).errors.size
    let (scope, locals) ← inModule name do emitFinalReturn (← body)
    let routine ← newRoutine { code := scope.code, locals, positions := scope.positions }
    if (← get).errors.size = errorsBefore then
      modify fun g => { g with modules := g.modules.insert name routine }
    return routine

end Generator

end Scripting
