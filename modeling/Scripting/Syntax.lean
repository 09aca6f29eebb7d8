import Scripting.Operator
import Scripting.Source
import Scripting.Flonum
/-!
# `Syntax` — syntax trees

Programs are handed over as trees of expressions and statements. Every node carries the position of
its first character, so that compile errors and run-time errors can point back at the source; a node
made without one has the unknown position.
-/

namespace Scripting

/-- A name with its position: a parameter or an iteration variable. -/
structure Name where
  pos : Pos := Pos.none
  text : String
  deriving DecidableEq, Repr

mutual

inductive Expr
  | ident (pos : Pos) (name : String)
  | int (pos : Pos) (value : Int64)
  | float (pos : Pos) (value : Flonum)
  | char (pos : Pos) (value : Char)
  | str (pos : Pos) (value : String)
  | bool (pos : Pos) (value : Bool)
  | undefined (pos : Pos)
  | array (pos : Pos) (items : List Expr)
  | map (pos : Pos) (entries : List (String × Expr))
  | binary (pos : Pos) (op : Operator) (lhs rhs : Expr)
  /-- `-x`, `!x`, `^x`, `+x` -/
  | unary (pos : Pos) (op : Operator) (operand : Expr)
  /-- `c ? a : b` -/
  | cond (pos : Pos) (test yes no : Expr)
  | index (pos : Pos) (target key : Expr)
  /-- `x[low:high]`, both bounds optional -/
  | slice (pos : Pos) (target : Expr) (low high : Option Expr)
  /-- `x.name`: indexing with the name as a text -/
  | selector (pos : Pos) (target : Expr) (name : String)
  /-- A call; with `spread` the items of the last argument are arguments of their own. -/
  | call (pos : Pos) (callee : Expr) (args : List Expr) (spread : Bool)
  /-- A function literal; with `variadic` the last parameter collects the remaining arguments. -/
  | func (pos : Pos) (params : List Name) (variadic : Bool) (body : List Stmt)
  | load (pos : Pos) (name : String)
  | error (pos : Pos) (payload : Expr)
  | immutable (pos : Pos) (operand : Expr)

inductive Stmt
  | expr (pos : Pos) (value : Expr)
  /-- `targets op values`, with `:=`, `=` or a compound assignment -/
  | assign (pos : Pos) (targets : List Expr) (op : Operator) (values : List Expr)
  /-- `x++` and `x--` -/
  | step (pos : Pos) (target : Expr) (op : Operator)
  | block (pos : Pos) (body : List Stmt)
  | branch (pos : Pos) (init : Option Stmt) (test : Expr) (body : List Stmt) (other : Option Stmt)
  | loop (pos : Pos) (init : Option Stmt) (test : Option Expr) (post : Option Stmt)
      (body : List Stmt)
  | forIn (pos : Pos) (key : Name) (value : Option Name) (iterable : Expr) (body : List Stmt)
  | breakLoop (pos : Pos)
  | continueLoop (pos : Pos)
  | ret (pos : Pos) (value : Option Expr)
  /-- End a module with this value. -/
  | exportValue (pos : Pos) (value : Expr)
  | empty (pos : Pos)

end

namespace Expr

def pos : Expr → Pos
  | ident p _ | int p _ | float p _ | char p _ | str p _ | bool p _ | undefined p | array p _
  | map p _ | binary p _ _ _ | unary p _ _ | cond p _ _ _ | index p _ _ | slice p _ _ _
  | selector p _ _ | call p _ _ _ | func p _ _ _ | load p _ | error p _ | immutable p _ => p

def withPos (p : Pos) : Expr → Expr
  | ident _ n => ident p n
  | int _ v => int p v
  | float _ v => float p v
  | char _ v => char p v
  | str _ v => str p v
  | bool _ v => bool p v
  | undefined _ => undefined p
  | array _ xs => array p xs
  | map _ es => map p es
  | binary _ op l r => binary p op l r
  | unary _ op x => unary p op x
  | cond _ c a b => cond p c a b
  | index _ x i => index p x i
  | slice _ x l h => slice p x l h
  | selector _ x n => selector p x n
  | call _ f as s => call p f as s
  | func _ ps v b => func p ps v b
  | load _ n => load p n
  | error _ x => error p x
  | immutable _ x => immutable p x

end Expr

namespace Stmt

def withPos (p : Pos) : Stmt → Stmt
  | expr _ x => expr p x
  | assign _ ts op vs => assign p ts op vs
  | step _ x op => step p x op
  | block _ b => block p b
  | branch _ i t b o => branch p i t b o
  | loop _ i t q b => loop p i t q b
  | forIn _ k v x b => forIn p k v x b
  | breakLoop _ => breakLoop p
  | continueLoop _ => continueLoop p
  | ret _ x => ret p x
  | exportValue _ x => exportValue p x
  | empty _ => empty p

end Stmt

end Scripting
