import Scripting.Compile.Construct
/-!
# `Compile.Tree` — compiling expressions and statements

The walk over the syntax tree. An expression leaves its value on the stack; a statement leaves the
stack as it was and answers whether it exits.
-/

namespace Scripting

open Generator

/-- What the code of a program can import. Modules contain statements, so compiling one is up to the
caller. -/
structure Importer where
  modules : ModuleMap := .empty
  /-- Compile a source module that is imported at a position. -/
  compile : Pos → String → List Stmt → Gen Ref

/-- Import a module: the attributes of a built-in module are a constant, a source module is called. -/
def Importer.load (imports : Importer) (pos : Pos) (name : String) : Gen Unit :=
  if name.isEmpty then throw { cause := .emptyModuleName, pos }
  else
    match imports.modules.get? name with
    | none => throw { cause := .moduleNotFound name, pos }
    | some (.builtin attributes) => do emitConstant pos (← newFrozenMap attributes)
    | some (.source body) => do
      emitConstant pos (.function (← imports.compile pos name body))
      emit_ pos .call [0, 0]

mutual

/-- Compile an expression. A function literal that is about to get a name is compiled with
`self`. -/
def compileExpr (imports : Importer) (self : Option String) : Expr → Gen Unit
  | .ident pos name => do
    match ← resolve? name with
    | none => throw { cause := .unresolved name, pos }
    | some sym => emitLoad pos sym
  | .int pos v => emitConstant pos (.int v)
  | .float pos v => emitConstant pos (.float v)
  | .char pos v => emitConstant pos (.char v)
  | .str pos v =>
    if Limits.textSize < v.utf8ByteSize then throw { cause := .textTooLong, pos }
    else emitConstant pos (.str v)
  | .bool pos v => emit_ pos (if v then .true else .false)
  | .undefined pos => emit_ pos .null
  | .array pos items => do
    compileExprs imports items
    emit_ pos .array [items.length]
  | .map pos entries => do
    compileEntries imports pos entries
    emit_ pos .map [entries.length * 2]
  | .binary pos op lhs rhs =>
    binary pos op (compileExpr imports none lhs) (compileExpr imports none rhs)
  | .unary pos op operand => do
    compileExpr imports none operand
    unary pos op
  | .cond pos test yes no =>
    conditional pos (compileExpr imports none test) (compileExpr imports none yes)
      (compileExpr imports none no)
  | .index pos target key => do
    compileExpr imports none target
    compileExpr imports none key
    emit_ pos .index
  | .slice pos target low high => do
    compileExpr imports none target
    compileBound imports pos low
    compileBound imports pos high
    emit_ pos .slice
  | .selector pos target name => do
    compileExpr imports none target
    emitConstant pos (.str name)
    emit_ pos .index
  | .call pos callee args spread => do
    compileExpr imports none callee
    compileExprs imports args
    emit_ pos .call [args.length, spread.toNat]
  | .func pos params variadic body =>
    function pos params variadic self (compileStmts imports body)
  | .load pos name => imports.load pos name
  | .error pos payload => do
    compileExpr imports none payload
    emit_ pos .error
  | .immutable pos operand => do
    compileExpr imports none operand
    emit_ pos .immutable

def compileExprs (imports : Importer) : List Expr → Gen Unit
  | [] => pure ()
  | e :: es => do
    compileExpr imports none e
    compileExprs imports es

/-- Compile the entries of a map literal: each key, then its value. -/
def compileEntries (imports : Importer) (pos : Pos) : List (String × Expr) → Gen Unit
  | [] => pure ()
  | (key, value) :: rest => do
    emitConstant pos (.str key)
    compileExpr imports none value
    compileEntries imports pos rest

/-- Compile a bound of a slice; an omitted one is undefined. -/
def compileBound (imports : Importer) (pos : Pos) : Option Expr → Gen Unit
  | none => emit_ pos .null
  | some e => compileExpr imports none e

/-- Compile the selectors of an assignment target, the last one first. -/
def compileSelectors (imports : Importer) : Expr → Gen Unit
  | .index _ target key => do
    compileExpr imports none key
    compileSelectors imports target
  | .selector pos target name => do
    if Limits.textSize < name.utf8ByteSize then throw { cause := .textTooLong, pos }
    emitConstant pos (.str name)
    compileSelectors imports target
  | _ => pure ()

def compileTest (imports : Importer) : Option Expr → Option (Gen Unit)
  | none => none
  | some e => some (compileExpr imports none e)

/-- Compile the value of a return statement; gives the number of values returned. -/
def compileResult (imports : Importer) : Option Expr → Gen Nat
  | none => pure 0
  | some e => do
    compileExpr imports none e
    return 1

def compileStmt (imports : Importer) : Stmt → Gen Bool
  | .expr pos value => do
    compileExpr imports none value
    emit_ pos .pop
    return false
  | .assign pos [target] op [value] => do
    assign pos op target (compileExpr imports none target) (compileSelectors imports target)
      fun self => compileExpr imports self value
    return false
  | .assign pos _ _ _ => throw { cause := .tupleAssignment, pos }
  | .step pos target op => do
    assign pos (.update (if op = .increment then .add else .sub)) target
      (compileExpr imports none target) (compileSelectors imports target)
      fun _ => emitConstant pos (.int 1)
    return false
  | .block _ body => inBlock (compileStmts imports body)
  | .branch pos init test body other =>
    branch pos (compileSimple imports init) (compileExpr imports none test)
      (compileStmts imports body) (compileOther imports other)
  | .loop pos init test post body =>
    loop pos (compileSimple imports init) (compileTest imports test) (compileSimple imports post)
      (compileStmts imports body)
  | .forIn pos key value iterable body =>
    forIn pos key.text (value.map (·.text)) (compileExpr imports none iterable)
      (compileStmts imports body)
  | .breakLoop pos => do
    emitLoopJump pos .breakOutsideLoop fun jump l => { l with breaks := jump :: l.breaks }
    return true
  | .continueLoop pos => do
    emitLoopJump pos .continueOutsideLoop fun jump l => { l with continues := jump :: l.continues }
    return true
  | .ret pos value => do
    if (← get).table.inGlobal then throw { cause := .returnOutsideFunction, pos }
    let n ← compileResult imports value
    emit_ pos .ret [n]
    return true
  | .exportValue pos value => do
    let g ← get
    if g.outer.length != g.unitDepth then throw { cause := .exportInsideFunction, pos }
    compileExpr imports none value
    emit_ pos .immutable
    emit_ pos .ret [1]
    return true
  | .empty _ => return false

/-- Compile statements in order, up to the first that exits: code after it is never reached. A
statement that fails is recorded and skipped. -/
def compileStmts (imports : Importer) : List Stmt → Gen Bool
  | [] => return false
  | s :: rest => fun g =>
    let mark := g.mark
    match compileStmt imports s g with
    | .ok true g => .ok true g
    | .ok false g => compileStmts imports rest g
    | .error e g =>
      match recover mark e g with
      | .ok _ g => compileStmts imports rest g
      | .error e g => .error e g

/-- Compile a statement before or between the rounds of another one, if there is one. -/
def compileSimple (imports : Importer) : Option Stmt → Gen Unit
  | none => pure ()
  | some s => discard (compileStmt imports s)

def compileOther (imports : Importer) : Option Stmt → Option (Gen Bool)
  | none => none
  | some s => some (compileStmt imports s)

end

end Scripting
