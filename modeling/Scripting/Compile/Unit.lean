import Scripting.Compile.Tree
import Scripting.Program
/-!
# `Compile.Unit` — compiling programs and modules

Modules may import modules. The modules that are being compiled are all different
(`Generator.moduleFunction` refuses a module that is), so imports nest no deeper than there are
modules, and `compileModule` counts down from that number.
-/

namespace Scripting

open Generator

/-- Compile a source module, with imports nested at most `depth` deep inside it. -/
def compileModule (modules : ModuleMap) : Nat → Pos → String → List Stmt → Gen Ref
  | 0, pos, name, _ => throw { cause := .cyclicImport name, pos }
  | depth + 1, pos, name, body =>
    moduleFunction pos name (compileStmts { modules, compile := compileModule modules depth } body)

/-- The importer for programs that can import these modules. -/
def Importer.ofModules (modules : ModuleMap) : Importer :=
  { modules, compile := compileModule modules (modules.size + 1) }

namespace Generator

/-- Ready for the next program: only the symbol table and the heap stay. -/
def fresh (g : Generator) : Generator := { table := g.table, heap := g.heap }

def program (imports : Importer) (body : List Stmt) : Gen Unit := do
  discard (compileStmts imports body)
  if (← get).errors.isEmpty then emit_ Pos.none .suspend

/-- **Compile a program.** Either all errors, in the order they were found, or the program. Global
variables keep their slots from one program to the next. -/
def compile (files : FileSet) (modules : ModuleMap) (body : List Stmt) (g : Generator) :
    Except (List CompileError) Program × Generator :=
  match program (Importer.ofModules modules) body g.fresh with
  | .ok _ g | .error _ g =>
    if g.errors.isEmpty then
      let (main, heap) := g.heap.newFunction
        { code := g.scope.code, positions := g.scope.positions }
      (.ok { files, main, constants := g.constants }, { g with heap })
    else (.error g.errors.toList, g)

end Generator

end Scripting
