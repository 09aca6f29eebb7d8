import Scripting.Proofs.Compile.Live
import Scripting.Script
/-!
# `Proofs.Compile.OwnName` — a function does not assign to its own name

In `f := func(..) { .. }` the body knows the function as `f`, and `f` is no variable there: an assignment to it is
refused, however deep in blocks it stands (`own_name_is_refused`). A function literal inside the body sees `f` as a
variable that it captures. There an assignment is accepted, and changes a copy that nobody else sees
(`nested_literal_assigns`).
-/

namespace Scripting

open Relation List

namespace Piece

/-! ## Assignments -/

/-- The names that a loop over the elements of a value defines. -/
def iterationNames (key : Name) (value : Option Name) : List String :=
  (key.text :: (value.map (·.text)).toList).filter (· ≠ "_") ++ [Generator.iteratorName]

/-- The live parts of a piece of code in which a name means what it means before it. Function literals are left
out. -/
def sharing (name : String) : Piece → List Piece
  | stmt (.block _ b) => [body b]
  | stmt (.branch _ init _ b other) => init.toList.map stmt ++
    if name ∈ optionDefines init then [] else body b :: other.toList.map stmt
  | stmt (.loop _ init _ post b) => init.toList.map stmt ++
    if name ∈ optionDefines init then [] else body b :: if (bodyWays b).goesOn then post.toList.map stmt else []
  | stmt (.forIn _ key value _ b) => if name ∈ iterationNames key value then [] else [body b]
  | body (s :: rest) => stmt s :: if s.ways.exits ∨ name ∈ s.defines then [] else [body rest]
  | _ => []

/-- An assignment to a name: plain, compound, `++` or `--`, to all of it or to a part. -/
def IsAssignment (name : String) : Piece → Prop
  | stmt (.assign _ [target] op _) => op ≠ .define ∧ target.base? = some name
  | stmt (.step _ target _) => target.base? = some name
  | _ => False

/-- **A live assignment to a name**, at any depth of blocks and with no definition of the name in between. -/
def Assigns (name : String) (p : Piece) : Prop :=
  ∃ q, ReflTransGen (fun p q => q ∈ p.sharing name) p q ∧ q.IsAssignment name

/-- A piece of code that is valid where a function has the name. -/
def InOwnBody (R : String → Prop) (name : String) (p : Piece) : Prop :=
  ∃ c : Setting, c.role name = some .own ∧ p.Valid R c

variable {R : String → Prop} {c : Setting} {name : String} {p q : Piece}

theorem role_defining (h : name ∉ names) (hown : c.role name = some .own) :
    (c.defining names).role name = some .own := (if_neg h).trans hown

/-- **The step lemma**: the function keeps its name in the parts. -/
theorem InOwnBody.sharing (h : InOwnBody R name p) : ∀ q ∈ p.sharing name, InOwnBody R name q := by
  obtain ⟨c, hown, hp⟩ := h
  have hstmt {c : Setting} {s : Stmt} (hs : s.Valid R c) (hown : c.role name = some .own) : InOwnBody R name (stmt s) :=
    ⟨c, hown, hs⟩
  have hbody {c : Setting} {b : List Stmt} (hb : ValidBody R c b) (hown : c.role name = some .own) :
      InOwnBody R name (body b) := ⟨c, hown, hb⟩
  have hblock : c.block.role name = some .own := hown
  -- parts behind a definition of the name are not shared, so the definitions before a part leave its role alone
  cases p with
  | expr e => exact forall_mem_nil _
  | stmt s =>
    have hs : s.Valid R c := hp
    cases s with
    | block pos b =>
      exact forall_mem_singleton.mpr (hbody hs hown)
    | branch pos init test b other =>
      simp only [Stmt.Valid, validSimple_iff] at hs
      simp only [Piece.sharing]
      split
      · grind
      · have hrole := role_defining ‹_› hblock
        have hb := hbody hs.2.2.1 hrole
        grind
    | loop pos init test post b =>
      simp only [Stmt.Valid, validSimple_iff] at hs
      simp only [Piece.sharing]
      split
      · grind
      · have hrole := role_defining ‹_› hblock
        have hb := hbody hs.2.2.1 hrole
        grind
    | forIn pos key value x b =>
      simp only [Piece.sharing]
      split
      · exact forall_mem_nil _
      · exact forall_mem_singleton.mpr (hbody hs.2 (role_defining ‹_› hblock))
    | _ => exact forall_mem_nil _
  | body b =>
    cases b with
    | nil => exact forall_mem_nil _
    | cons s rest =>
      refine forall_mem_cons.mpr ⟨hstmt hp.1 hown, ?_⟩
      split
      · exact forall_mem_nil _
      · rename_i hneither
        obtain ⟨hgoes, hdef⟩ := not_or.mp hneither
        exact forall_mem_singleton.mpr (hbody (hp.2 (by simpa using hgoes)) (role_defining hdef hown))

theorem InOwnBody.not_isAssignment (h : InOwnBody R name p) : ¬ p.IsAssignment name := by
  obtain ⟨c, hown, hp⟩ := h
  have hbase {target : Expr} (h : c.CanAssign target) : target.base? ≠ some name := by
    obtain ⟨base, hb, hrole⟩ := h
    intro hname
    cases hb.symm.trans hname
    cases hown.symm.trans hrole
  unfold IsAssignment
  split
  · rename_i values
    rintro ⟨hop, hname⟩
    match values with
    | [value] =>
      simp only [Piece.Valid, Stmt.Valid, if_neg hop] at hp
      exact hbase hp.1 hname
    | [] | _ :: _ :: _ => simp [Piece.Valid, Stmt.Valid] at hp
  · exact hbase hp.1
  · exact not_false

/-- **Valid code assigns to no own name.** -/
theorem InOwnBody.not_assigns (h : InOwnBody R name p) : ¬ p.Assigns name := by
  rintro ⟨q, hreach, hq⟩
  have hvalid : InOwnBody R name q := by
    clear hq
    induction hreach with
    | refl => exact h
    | tail _ hstep ih => exact ih.sharing _ hstep
  exact hvalid.not_isAssignment hq

end Piece

/-! ## Programs -/

namespace Generator

variable {files : FileSet} {M : ModuleMap} {body : List Stmt} {heap : Heap}

/-- A compiler that knows the variables of a host. -/
def knowing (vars : List String) (heap : Heap) : Generator :=
  { table := (Script.defineAll vars SymbolTable.withBuiltins).2, heap }

theorem shows_defineAll : ∀ (vars : List String) {c : Setting} {t : SymbolTable}, t.Shows c →
    ∃ c' : Setting, (Script.defineAll vars t).2.Shows c' ∧ c'.inLiteral = c.inLiteral ∧ c'.inLoop = c.inLoop
  | [], c, _, h => ⟨c, h, rfl, rfl⟩
  | var :: vars, c, t, h => by
    obtain ⟨c', h', hsame⟩ := shows_defineAll vars (h.binds (.define t var) (h.sane.define var))
    exact ⟨c', h', hsame⟩

theorem sound_of_compile (h : (compile files M body (knowing vars heap)).1.isOk) :
    Piece.Sound M (.body body) := by
  have hserves : Serves ⟨M, []⟩ (Importer.ofModules M) :=
    serves_compileModule M (M.size + 1) .nil (nil_subset _) (by simp)
  obtain ⟨c, hshows, hliteral, hloop⟩ := shows_defineAll vars SymbolTable.Shows.program
  have hstands : InSetting ⟨M, []⟩ c (knowing vars heap).fresh := {
    table := hshows
    unit := Nat.le_refl _
    inLiteral := hliteral.symm
    inLoop := by rw [hloop]; rfl
    importing := rfl
    known := fun _ _ h => by cases h }
  have hjudged := (judges_stmts hserves c body).judged (knowing vars heap).fresh rfl hstands
  rcases hjudged with ⟨_, _, _, _, hvalid, _⟩ | ⟨e, he, -⟩
  · exact ⟨_, c, fun _ hm => hm, hvalid⟩
  · obtain ⟨rest, herr⟩ : ∃ rest, (compile files M body (knowing vars heap)).1 = .error (e :: rest) :=
      compile_of_firstError he
    rw [herr] at h
    cases h

/-- **A function does not assign to its own name.** If anything that is compiled with a program defines a name as a
function literal whose body assigns to the name, at any depth of blocks and with no definition of it in between, then
the program is refused. -/
theorem own_name_is_refused (files : FileSet) (M : ModuleMap) (body : List Stmt) (vars : List String) (heap : Heap)
    {pos namePos funcPos : Pos} {name : String} {params : List Name} {variadic : Bool} {inner : List Stmt}
    (hdefines : Piece.Within M (.body body)
      (.stmt (.assign pos [.ident namePos name] .define [.func funcPos params variadic inner])))
    (hparams : name ∉ params.map (·.text)) (hassigns : Piece.Assigns name (.body inner)) :
    ∃ errors, (compile files M body (knowing vars heap)).1 = .error errors := by
  cases hcompile : (compile files M body (knowing vars heap)).1 with
  | error errors => exact ⟨errors, rfl⟩
  | ok p =>
    have hok : (compile files M body (knowing vars heap)).1.isOk := by rw [hcompile]; rfl
    obtain ⟨R, c, -, hvalid⟩ := (sound_of_compile hok).within hdefines
    obtain ⟨_, known, htarget, -, -, -, hinner⟩ := hvalid
    cases htarget
    have hown : (c.literal (params.map (·.text)) (some name)).role name = some .own := by
      simp only [Setting.literal, if_neg hparams, if_true]
    have hbody : Piece.InOwnBody R name (.body inner) := ⟨_, hown, hinner⟩
    exact absurd hassigns hbody.not_assigns

/-- `f := func() { for { if true { f += 1 } } }` -/
def growingItself : List Stmt := [
  .assign .none [.ident .none "f"] .define [.func .none [] false [
    .loop .none none none none [.branch .none none (.bool .none true)
      [.assign .none [.ident .none "f"] (.update .add) [.int .none 1]] none]]]]

theorem growingItself_is_refused : ∃ errors, (compile {} .empty growingItself (knowing ["x"] {})).1 = .error errors :=
  own_name_is_refused {} .empty growingItself ["x"] {} (.single mem_cons_self) not_mem_nil
    ⟨_, .head mem_cons_self (.head mem_cons_self (.head mem_cons_self (.head mem_cons_self
      (.single mem_cons_self)))), nofun, rfl⟩

/-- `f := func() { g := func() { f = 1 }; g(); return f }` -/
def replacingFromWithin : List Stmt := [
  .assign .none [.ident .none "f"] .define [.func .none [] false [
    .assign .none [.ident .none "g"] .define [.func .none [] false [
      .assign .none [.ident .none "f"] .assign [.int .none 1]]],
    .expr .none (.call .none (.ident .none "g") [] false),
    .ret .none (some (.ident .none "f"))]]]

/-- **A function literal inside the body is not stopped**: the program is accepted. -/
theorem nested_literal_assigns : (compile {} .empty replacingFromWithin {}).1.isOk := by decide +kernel

end Generator

end Scripting
