import Scripting.Diagnostic
import Scripting.Operator
import Scripting.SymbolTable
/-!
# `Compile.Error` — why a program does not compile
-/

namespace Scripting

/-- What there can be too much of for one instruction. -/
inductive Resource
  | constants | freeVariables | globalVariables | localVariables | selectors | arguments | elements
  | instructionBytes | parameters | operands
  deriving DecidableEq, Repr

def Resource.text : Resource → String
  | constants => "constants"
  | freeVariables => "free variables"
  | globalVariables => "global variables"
  | localVariables => "local variables"
  | selectors => "selectors"
  | arguments => "arguments"
  | elements => "elements"
  | instructionBytes => "instruction bytes"
  | parameters => "parameters"
  | operands => "operands"

inductive CompileCause
  | breakOutsideLoop
  | continueOutsideLoop
  | returnOutsideFunction
  | exportInsideFunction
  | tupleAssignment
  | invalidTarget
  | defineWithSelector
  | redeclared (name : String)
  | unresolved (name : String)
  | assignBuiltin (name : String)
  /-- A function assigns to its own name. -/
  | assignSelf (name : String)
  | unassignable (kind : SymbolKind)
  | textTooLong
  | invalidUnary (op : Operator)
  | invalidBinary (op : Operator)
  | variadicWithoutParameter
  | uncapturable (kind : SymbolKind) (name : String)
  | emptyModuleName
  | moduleNotFound (name : String)
  | cyclicImport (name : String)
  | limit (what : Resource) (max : Nat)
  deriving DecidableEq, Repr

def CompileCause.message : CompileCause → String
  | breakOutsideLoop => "break not allowed outside loop"
  | continueOutsideLoop => "continue not allowed outside loop"
  | returnOutsideFunction => "return not allowed outside function"
  | exportInsideFunction => "export not allowed inside function"
  | tupleAssignment => "tuple assignment not allowed"
  | invalidTarget => "invalid assignment target"
  | defineWithSelector => "operator ':=' not allowed with selector"
  | redeclared name => "'" ++ name ++ "' redeclared in this block"
  | unresolved name => "unresolved reference '" ++ name ++ "'"
  | assignBuiltin name => "cannot assign to builtin function '" ++ name ++ "'"
  | assignSelf name => "cannot assign to '" ++ name ++ "' inside its own body"
  | unassignable kind => "invalid assignment variable scope: " ++ kind.text
  | textTooLong => "string length exceeds the limit"
  | invalidUnary op => "invalid unary operator: " ++ op.text
  | invalidBinary op => "invalid binary operator: " ++ op.text
  | variadicWithoutParameter => "variadic function needs a parameter"
  | uncapturable kind name => "cannot capture " ++ kind.text ++ " variable '" ++ name ++ "'"
  | emptyModuleName => "empty module name"
  | moduleNotFound name => "module '" ++ name ++ "' not found"
  | cyclicImport name => "cyclic module import: " ++ name
  | limit what max => "too many " ++ what.text ++ " (max " ++ max.repr ++ ")"

structure CompileError where
  cause : CompileCause
  pos : Pos
  deriving DecidableEq, Repr

def CompileError.diagnostic (files : FileSet) (e : CompileError) : Except Overflow Diagnostic :=
  return { message := e.cause.message, location := ← files.locate e.pos }

end Scripting
