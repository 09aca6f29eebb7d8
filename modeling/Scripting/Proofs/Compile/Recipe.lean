import Scripting.Proofs.Code.Shape
import Scripting.Proofs.Compile.Nested
/-!
# `Proofs.Compile.Recipe` — the steps of every compilation

Whatever the program, it is compiled by a few kinds of steps: instructions that refer to nothing, constants, loads and
stores of symbols that were resolved or defined, sequences, blocks, conditional jumps, loops, and functions with code
of their own. `Recipe` is the inductive relation with one rule for each. It says of a step

* which symbols it may use, because they are in hand;
* what it takes from the operand stack and what it gives back (`Exchange`);
* whether control can go past the end of its code, by its result.

`recipe_stmts` says that every statement list is compiled by these rules. So what holds of all compilations is proved
by induction on the rules, and the syntax tree is walked here only. A recipe is for a step with any importer, since
compilations that import differently are compared, too.
-/

namespace Scripting

open Code List

/-- The instructions that refer neither to variables nor to constants nor to code. -/
def Opcode.isPlain : Opcode → Bool
  | .complement | .pop | .true | .false | .equal | .notEqual | .minus | .not | .null | .array | .map
  | .error | .immutable | .index | .slice | .call | .iterInit | .iterNext | .iterKey | .iterValue
  | .binaryOp => Bool.true
  | _ => Bool.false

/-- The constants that stand for themselves. -/
def Value.isLiteral : Value → Bool
  | .int _ | .float _ | .char _ | .str _ => true
  | _ => false

/-- **What a step does to the operand stack**: it takes values off and gives others back, on top of any values or, if
it is not `deep`, with nothing below. -/
structure Exchange where
  takes : List Kind
  gives : List Kind
  deep : Bool

/-- An expression pushes its value. -/
abbrev Exchange.value : Exchange := ⟨[], [.any], true⟩

/-- A statement leaves the empty stack as it was. -/
abbrev Exchange.flat : Exchange := ⟨[], [], false⟩

namespace Generator

/-! ## Constructs in terms of others -/

/-- The end of an assignment: the value has been computed. -/
def storeValue (pos : Pos) (op : Operator) (sym : Symbol) (n : Nat) (selectors : Gen Unit) : Gen Unit := do
  op.updates?.forM fun arith => emit_ pos .binaryOp [(Operator.arith arith).code]
  selectors
  emitStore pos op sym n

theorem assign_eq (pos : Pos) (op : Operator) (target : Expr) (read selectors : Gen Unit)
    (value : Option String → Gen Unit) : assign pos op target read selectors value =
      match assignTarget target with
      | none => throw { cause := .invalidTarget, pos }
      | some (name, n) =>
        if op = .define && n != 0 then throw { cause := .defineWithSelector, pos }
        else assignVariable pos op name >>= fun existing? =>
          (if op.updates?.isSome then read else pure ()) >>= fun _ =>
          value (if op = .define then some name else none) >>= fun _ =>
          (match existing? with
            | some sym => pure sym
            | none => define name) >>= fun sym => storeValue pos op sym n selectors := by
  unfold assign
  cases assignTarget target with
  | none => rfl
  | some p =>
    dsimp only
    split
    · rfl
    · refine bind_congr fun existing? => ?_
      split
      · refine bind_congr fun _ => bind_congr fun _ => ?_
        cases existing? <;> rfl
      · refine bind_congr fun _ => ?_
        cases existing? <;> rfl

theorem assignVariable_eq (pos : Pos) (op : Operator) (name : String) : assignVariable pos op name =
    if op = .define then resolveTop? name >>= fun sym =>
      if isShadowable sym then pure none else throw { cause := .redeclared name, pos }
    else resolve? name >>= fun sym => match sym with
      | none => throw { cause := .unresolved name, pos }
      | some sym => match sym.kind with
        | .builtin => throw { cause := .assignBuiltin name, pos }
        | .self => throw { cause := .assignSelf name, pos }
        | _ => pure (some sym) := by
  unfold assignVariable
  split
  · simp only [throw_bind]
  · rfl

/-- A variable that has just been defined gets its value as by an assignment. -/
theorem define_bind_congr {β : Type} {name : String} {k k' : Symbol → Gen β}
    (h : ∀ sym : Symbol, sym.kind = .globalVar ∨ sym.kind = .localVar → k sym = k' sym) :
    (define name >>= k) = define name >>= k' := by
  funext g
  show k (g.table.define name).1 _ = k' (g.table.define name).1 _
  rw [h]
  cases hg : g.table.inGlobal with
  | true => exact .inl (by simp [SymbolTable.define, hg])
  | false => exact .inr (by simp [SymbolTable.define, hg])

theorem emitDefine_eq {pos : Pos} {sym : Symbol} (h : sym.kind = .globalVar ∨ sym.kind = .localVar) :
    emitDefine pos sym = emitStore pos .define sym 0 := by
  unfold emitDefine emitStore
  rcases h with h | h
  · simp only [h]
  · simp only [h, if_true]

theorem bindIteration_eq {pos : Pos}
    (iterator : Symbol) (read : Opcode) (name : String) : bindIteration pos iterator read name =
      if name != "_" then define name >>= fun sym => do
        emitLoad pos iterator
        emit_ pos read
        emitStore pos .define sym 0
      else pure () := by
  unfold bindIteration
  split
  · exact define_bind_congr fun sym h => by rw [emitDefine_eq h]
  · rfl

/-! ## The rules -/

/-- The code of the step goes on at its end. -/
abbrev goesOn {α : Type} (_ : α) : Bool := false

/-- **How compilations go.** `Recipe held e exits x`: with the symbols `held` in hand, the step `x` compiles something
by the rules, whatever the importer is. -/
inductive Recipe : List Symbol → Exchange → {α : Type} → (α → Bool) → (Importer → Gen α) → Prop
  | pure (h : exits a = false) : Recipe held ⟨xs, xs, deep⟩ exits fun _ => pure a
  | throw (error : CompileError) : Recipe held e exits fun _ => throw error
  | bind {x : Importer → Gen α} {k : Importer → α → Gen β} (hx : Recipe held ⟨xs, ys, deep⟩ goesOn x)
    (hk : ∀ a, Recipe held ⟨ys, zs, deep⟩ exits (k · a)) : Recipe held ⟨xs, zs, deep⟩ exits fun I => x I >>= k I
  /-- Other symbols are in hand, too. -/
  | mono (h : held ⊆ held') (hx : Recipe held e exits x) : Recipe held' e exits x
  /-- Other values are on the stack, too. -/
  | frame (zs : List Kind) (hx : Recipe held ⟨xs, ys, true⟩ exits x) : Recipe held ⟨xs ++ zs, ys ++ zs, true⟩ exits x
  | shallow (hx : Recipe held ⟨xs, ys, true⟩ exits x) : Recipe held ⟨xs, ys, false⟩ exits x
  /-- Nobody asks whether control goes past the end. -/
  | discard (hx : Recipe held e exits x) : Recipe held e goesOn fun I => discard (x I)
  | plain (hlen : operands.length = op.widths.length) (h : op.isPlain = true)
    (ht : ∀ Λ ks, Effect Λ ⟨op, operands⟩ ⟨xs ++ ks, 0⟩ ⟨ys ++ ks, 0⟩) :
    Recipe held ⟨xs, ys, true⟩ goesOn fun _ => emit_ pos op operands
  | literal (h : v.isLiteral = true) (hκ : κ.Has v) : Recipe held ⟨[], [κ], true⟩ goesOn fun _ => emitConstant pos v
  | load (h : sym ∈ held) : Recipe held .value goesOn fun _ => emitLoad pos sym
  | store (h : sym ∈ held) (op : Operator) (n : Nat) :
    Recipe held ⟨replicate n .any ++ [.any], [], true⟩ goesOn fun _ => emitStore pos op sym n
  /-- A name is looked up, and its symbol is in hand from then on. -/
  | resolve {k : Importer → Option Symbol → Gen α} (hnone : ∀ I, k I none = throw error)
    (hk : ∀ sym, Recipe (sym :: held) e exits (k · (some sym))) : Recipe held e exits fun I => resolve? name >>= k I
  | resolveTop {k : Importer → Option Symbol → Gen α} (hk : ∀ sym, Recipe held e exits (k · sym)) :
    Recipe held e exits fun I => resolveTop? name >>= k I
  /-- A variable is defined, and its symbol is in hand from then on. -/
  | define {k : Importer → Symbol → Gen α} (hk : ∀ sym, Recipe (sym :: held) e exits (k · sym)) :
    Recipe held e exits fun I => define name >>= k I
  /-- A statement that is refused outside of functions, or inside. -/
  | checked (hp : p = (fun g => g.table.inGlobal) ∨ p = fun g => g.outer.length != g.unitDepth)
    (hx : Recipe held e exits x) :
    Recipe held e exits fun I => (get : Gen Generator) >>= fun g => if p g then throw error else x I
  | inBlock (hx : Recipe held e exits x) : Recipe held e exits fun I => inBlock (x I)
  | conditional (ht : Recipe held .value goesOn test) (hy : Recipe held .value goesOn yes)
    (hn : Recipe held .value goesOn no) : Recipe held .value goesOn fun I => conditional pos (test I) (yes I) (no I)
  | shortCircuit {kind : SkipKind}
    (hk : kind ≠ .falsy) (hl : Recipe held .value goesOn lhs) (hr : Recipe held .value goesOn rhs) :
    Recipe held .value goesOn fun I => shortCircuit pos kind.op (lhs I) (rhs I)
  | arms {β : Type} {other : Option β} {f : Importer → β → Gen Bool} (hb : Recipe held .flat id body)
    (ho : ∀ s, other = some s → Recipe held .flat id (f · s)) :
    Recipe held ⟨[.any], [], false⟩ id fun I => arms pos (body I) (other.map (f I))
  | rounds {β : Type} {test : Option β} {f : Importer → β → Gen Unit}
    (ht : ∀ e, test = some e → Recipe held .value goesOn (f · e)) (hb : Recipe held .flat id body)
    (hp : Recipe held .flat goesOn post) :
    Recipe held .flat id fun I => rounds pos (test.map (f I)) (post I) (body I) >>= fun jumps =>
      pure ((test.map (f I)).isNone && jumps.breaks.isEmpty)
  | exit (cause : CompileCause) (e : Exit) :
    Recipe held .flat id fun _ => emitLoopJump pos cause (pend e) >>= fun _ => pure true
  /-- A return, with or without a value. -/
  | ret (h : xs.length ≤ 1) :
    Recipe held ⟨xs, [], false⟩ id fun _ => emit_ pos .ret [xs.length] >>= fun _ => pure true
  /-- A function literal: no symbol from outside is in hand in its body. -/
  | function (hb : Recipe [] .flat id body) :
    Recipe held .value goesOn fun I => function pos params variadic self (body I)
  | imported (name : String) : Recipe held .value goesOn fun I => I.load pos name
  | andThen (hf : Recipe held .flat id first) (hr : Recipe held .flat id rest) :
    Recipe held .flat id fun I => andThen (first I) (rest I)

variable {pos : Pos} {n spread : Nat}

namespace Recipe

variable {held : List Symbol} {e : Exchange} {α : Type} {exits : α → Bool} {x x' : Importer → Gen α}

/-! ## Derived rules -/

theorem ite {p : Prop} [Decidable p] (hx : p → Recipe held e exits x) (hx' : ¬p → Recipe held e exits x') :
    Recipe held e exits fun I => if p then x I else x' I := by
  by_cases hp : p
  · simpa only [if_pos hp] using hx hp
  · simpa only [if_neg hp] using hx' hp

theorem guarded {p : Prop} [Decidable p] {error : CompileError} (hx : Recipe held e exits x) :
    Recipe held e exits fun I => if p then MonadExcept.throw error else x I := ite (fun _ => throw error) fun _ => hx

theorem weaken (hx : Recipe [] e exits x) : Recipe held e exits x := mono (nil_subset held) hx

theorem done {a : α} (h : exits a = false) : Recipe held .flat exits fun _ => Pure.pure a := pure h

theorem andFlat {β : Type} {exits : β → Bool} {xs : List Kind} {k : Importer → α → Gen β}
    (hx : Recipe held ⟨[], xs, true⟩ goesOn x) (hk : ∀ a, Recipe held ⟨xs, [], false⟩ exits (k · a)) :
    Recipe held .flat exits fun I => x I >>= k I := bind (shallow hx) hk

theorem operation {op : Opcode} {xs : List Kind} (h : op.takes? = some xs.length) (hw : op.widths.length = 0)
    (hplain : op.isPlain = true) : Recipe held ⟨xs, [.any], true⟩ goesOn fun _ => emit_ pos op :=
  plain hw.symm hplain fun _ _ => .operation h

theorem binaryOp {code : Nat} (h : (Operator.ofCode? code).isSome) :
    Recipe held ⟨[.any, .any], [.any], true⟩ goesOn fun _ => emit_ pos .binaryOp [code] :=
  plain rfl rfl fun _ _ => .binary h

theorem str (s : String) : Recipe held .value goesOn fun _ => emitConstant pos (.str s) :=
  literal rfl (Kind.any_has _)

section

variable {lhs rhs last read selectors : Importer → Gen Unit}

theorem pair (hl : Recipe held .value goesOn lhs) (hr : Recipe held .value goesOn rhs)
    (h : Recipe held ⟨[.any, .any], [.any], true⟩ goesOn last) :
    Recipe held .value goesOn fun I => (do lhs I; rhs I; last I) :=
  bind hl fun _ => bind (frame [.any] hr) fun _ => h

theorem binary (op : Operator) (hl : Recipe held .value goesOn lhs) (hr : Recipe held .value goesOn rhs) :
    Recipe held .value goesOn fun I => Generator.binary pos op (lhs I) (rhs I) := by
  cases op with
  | logicalAnd => exact shortCircuit (nofun : SkipKind.andAlso ≠ .falsy) hl hr
  | logicalOr => exact shortCircuit (nofun : SkipKind.orElse ≠ .falsy) hl hr
  | order o =>
    cases o with
    | less | lessEq => exact hr.pair hl (binaryOp rfl)
    | greater | greaterEq => exact hl.pair hr (binaryOp rfl)
  | equal | notEqual => exact hl.pair hr (operation rfl rfl rfl)
  | arith => exact hl.pair hr (binaryOp (by rw [Operator.ofCode?_code_arith]; rfl))
  | _ => exact throw _

theorem unary (op : Operator) : Recipe held ⟨[.any], [.any], true⟩ goesOn fun _ => Generator.unary pos op := by
  unfold Generator.unary
  split
  · exact operation rfl rfl rfl
  · exact operation rfl rfl rfl
  · exact operation rfl rfl rfl
  · exact pure rfl
  · exact throw _

/-! ### Assignments -/

/-- The operands under a value that updates a variable. -/
def updated (op : Operator) : List Kind := if op.updates?.isSome then [.any] else []

theorem storeValue {op : Operator} {sym : Symbol} (h : sym ∈ held) {n : Nat}
    (hs : Recipe [] ⟨[], replicate n .any, true⟩ goesOn selectors) :
    Recipe held ⟨.any :: updated op, [], true⟩ goesOn fun I => storeValue pos op sym n (selectors I) := by
  have hupdate : Recipe held ⟨.any :: updated op, [.any], true⟩ goesOn fun _ =>
      op.updates?.forM fun arith => emit_ pos .binaryOp [(Operator.arith arith).code] := by
    unfold updated
    cases op.updates? with
    | none => exact pure rfl
    | some a => exact binaryOp (by rw [Operator.ofCode?_code_arith]; rfl)
  exact bind hupdate fun _ => bind (frame [.any] hs.weaken) fun _ => store h op n

/-- **An assignment** to a variable that has been looked up, or is defined once the value has been computed. -/
theorem assign {op : Operator} {target : Expr} {value : Importer → Option String → Gen Unit}
    (hr : Recipe [] .value goesOn read) (hv : ∀ self, Recipe [] .value goesOn (value · self))
    (hs : ∀ name n, assignTarget target = some (name, n) →
      Recipe [] ⟨[], replicate n .any, true⟩ goesOn selectors) :
    Recipe held .flat goesOn fun I => Generator.assign pos op target (read I) (selectors I) (value I) := by
  simp only [assign_eq]
  cases ht : assignTarget target with
  | none => exact throw _
  | some p =>
    obtain ⟨name, n⟩ := p
    have hread : Recipe [] ⟨[], updated op, true⟩ goesOn fun I =>
        if op.updates?.isSome then read I else Pure.pure () := by
      unfold updated
      by_cases hop : op.updates?.isSome
      · simpa only [if_pos hop] using hr
      · simpa only [if_neg hop] using pure rfl
    -- the value is computed, then a symbol is in hand
    have hrest {held : List Symbol} {k : Importer → Unit → Gen Unit} (self : Option String)
        (hk : ∀ a, Recipe held ⟨.any :: updated op, [], true⟩ goesOn (k · a)) : Recipe held .flat goesOn fun I =>
          (if op.updates?.isSome then read I else Pure.pure ()) >>= fun _ => value I self >>= k I :=
      shallow (bind hread.weaken fun _ => bind (frame (updated op) (hv self).weaken) hk)
    refine guarded ?_
    simp only [assignVariable_eq]
    by_cases hop : op = .define
    · simp only [if_pos hop, bind_assoc]
      refine resolveTop fun found => ?_
      by_cases hfound : isShadowable found
      · simp only [if_pos hfound]
        exact hrest _ fun _ => define fun sym => storeValue (mem_cons_self ..) (hs name n ht)
      · simp only [if_neg hfound]
        exact throw _
    · simp only [if_neg hop, bind_assoc]
      refine resolve (fun _ => rfl) fun sym => ?_
      have hstore := hrest none fun _ => @storeValue pos _ _ op sym (mem_cons_self (l := held)) n (hs name n ht)
      cases hk : sym.kind with
      | builtin | self =>
        simp only [hk]
        exact throw _
      | globalVar | localVar | captured => simpa only [hk, pure_bind] using hstore

end

/-! ### Branches and loops -/

section

variable {init post iterable : Importer → Gen Unit} {body : Importer → Gen Bool} {β : Type}

theorem tested {test : Importer → Gen Unit} {other : Option β} {f : Importer → β → Gen Bool}
    (hi : Recipe held .flat goesOn init) (ht : Recipe held .value goesOn test) (hb : Recipe held .flat id body)
    (ho : ∀ s, other = some s → Recipe held .flat id (f · s)) :
    Recipe held .flat id fun I => (do
      init I; test I; Generator.arms pos (Generator.inBlock (body I)) (other.map (f I))) :=
  bind hi fun _ => ht.andFlat fun _ => arms (inBlock hb) ho

theorem looped {test : Option β} {f : Importer → β → Gen Unit} (hi : Recipe held .flat goesOn init)
    (ht : ∀ e, test = some e → Recipe held .value goesOn (f · e))
    (hb : Recipe held .flat id body) (hp : Recipe held .flat goesOn post) :
    Recipe held .flat id fun I => init I >>= fun _ =>
      Generator.rounds pos (test.map (f I)) (post I) (Generator.inBlock (body I)) >>= fun jumps =>
        Pure.pure ((test.map (f I)).isNone && jumps.breaks.isEmpty) :=
  bind hi fun _ => rounds ht (inBlock hb) hp

theorem bindIteration {iterator : Symbol} (h : iterator ∈ held) {read : Opcode} (hread : read.takes? = some 1)
    (hw : read.widths.length = 0) (hplain : read.isPlain = true) (name : String) :
    Recipe held .flat goesOn fun _ => Generator.bindIteration pos iterator read name := by
  rw [bindIteration_eq]
  refine ite (fun _ => define fun sym => shallow ?_) fun _ => done rfl
  have hvalue : Recipe (sym :: held) ⟨[.any], [.any], true⟩ goesOn fun _ => emit_ pos read := operation hread hw hplain
  exact bind (load (mem_cons_of_mem _ h)) fun _ => bind hvalue fun _ => store (mem_cons_self ..) .define 0

theorem bindRound {iterator : Symbol} (h : iterator ∈ held) (key : String) (value : Option String) :
    Recipe held .flat goesOn fun _ => Generator.bindRound pos iterator key value := by
  refine bind (bindIteration h rfl rfl rfl key) fun _ => ?_
  cases value with
  | none => exact done rfl
  | some name => exact bindIteration h rfl rfl rfl name

theorem nextIteration {iterator : Symbol} (h : iterator ∈ held) :
    Recipe held .value goesOn fun _ => Generator.nextIteration pos iterator :=
  bind (load h) fun _ => operation rfl rfl rfl

theorem defined {exits : β → Bool} {name : String} {k : Importer → Symbol → Gen β}
    (hk : ∀ sym, Recipe (sym :: held) .flat exits (k · sym)) : Recipe held ⟨[.any], [], false⟩ exits fun I =>
      Generator.define name >>= fun sym => emitDefine pos sym >>= fun _ => k I sym := by
  have heq (I : Importer) : (Generator.define name >>= fun sym => emitDefine pos sym >>= fun _ => k I sym) =
      Generator.define name >>= fun sym => emitStore pos .define sym 0 >>= fun _ => k I sym :=
    define_bind_congr fun sym h => by rw [emitDefine_eq h]
  simp only [heq]
  exact define fun sym => bind (shallow (store (mem_cons_self ..) .define 0)) fun _ => hk sym

/-- **An iteration**, inside of its block. The iterator is a variable of its own. -/
theorem iterated {key : String} {value : Option String} (hi : Recipe [] .value goesOn iterable)
    (hb : Recipe [] .flat id body) : Recipe held .flat id fun I =>
      iterable I >>= fun _ => startIteration pos >>= fun iterator =>
        Generator.rounds pos (some (Generator.nextIteration pos iterator)) (Pure.pure ())
          (Generator.bindRound pos iterator key value >>= fun _ => Generator.inBlock (body I)) >>= fun _ =>
            Pure.pure false := by
  simp only [startIteration_bind]
  refine hi.weaken.andFlat fun _ => (operation rfl rfl rfl).shallow.bind fun _ => defined fun iterator => ?_
  have hmem : iterator ∈ iterator :: held := mem_cons_self ..
  have hnext : ∀ s, some iterator = some s →
      Recipe (iterator :: held) .value goesOn fun _ => Generator.nextIteration pos s := by
    rintro _ ⟨⟩
    exact nextIteration hmem
  exact rounds (f := fun _ => Generator.nextIteration pos) hnext
    (bind (bindRound hmem key value) fun _ => inBlock hb.weaken) (done rfl)

end

end Recipe

/-! ## The syntax tree -/

theorem entrySlots_append : ∀ (n : Nat) (ks : List Kind), entrySlots n ks = entrySlots n [] ++ ks
  | 0, _ => rfl
  | n + 1, ks => by simp only [entrySlots, entrySlots_append n ks, cons_append]

theorem entrySlots_succ : entrySlots (n + 1) [] = entrySlots n [] ++ [.any, .text] := by
  rw [← entrySlots_append]
  induction n with
  | zero => rfl
  | succ n ih =>
    rw [entrySlots, ih]
    rfl

theorem recipe_array : Recipe [] ⟨replicate n .any, [.any], true⟩ goesOn fun _ => emit_ pos .array [n] := by
  refine Recipe.plain rfl rfl fun Λ ks => ?_
  have h := @Effect.array Λ (replicate n .any) ks
  rw [length_replicate] at h
  exact h

theorem recipe_map : Recipe [] ⟨entrySlots n [], [.any], true⟩ goesOn fun _ => emit_ pos .map [n * 2] := by
  refine Recipe.plain rfl rfl fun _ ks => ?_
  rw [← entrySlots_append]
  exact .map

theorem recipe_call : Recipe [] ⟨replicate n .any ++ [.any], [.any], true⟩ goesOn fun _ =>
    emit_ pos .call [n, spread] := by
  refine Recipe.plain rfl rfl fun Λ ks => ?_
  have h := @Effect.call Λ spread .any (replicate n .any) ks
  rw [length_replicate] at h
  rw [append_assoc]
  exact h

theorem compileTest_eq (I : Importer) : ∀ e : Option Expr, compileTest I e = e.map (compileExpr I none)
  | none => by rw [compileTest]; rfl
  | some e => by rw [compileTest]; rfl

theorem compileOther_eq (I : Importer) : ∀ s : Option Stmt, compileOther I s = s.map (compileStmt I)
  | none => by rw [compileOther]; rfl
  | some s => by rw [compileOther]; rfl

mutual

/-- **An expression pushes its value.** -/
theorem recipe_expr (self : Option String) : ∀ e : Expr, Recipe [] .value goesOn (compileExpr · self e)
  | .ident pos name => by
    unfold compileExpr
    exact .resolve (fun _ => rfl) fun sym => .load (mem_cons_self ..)
  | .int pos v | .float pos v | .char pos v => by
    unfold compileExpr
    exact .literal rfl (Kind.any_has _)
  | .str pos v => by
    unfold compileExpr
    exact Recipe.guarded (Recipe.str v)
  | .bool pos true | .bool pos false | .undefined pos => by
    unfold compileExpr
    exact Recipe.operation rfl rfl rfl
  | .array pos items => by
    unfold compileExpr
    exact (recipe_exprs items).bind fun _ => recipe_array
  | .map pos entries => by
    unfold compileExpr
    exact (recipe_entries pos entries).bind fun _ => recipe_map
  | .binary pos op lhs rhs => by
    unfold compileExpr
    exact (recipe_expr none lhs).binary op (recipe_expr none rhs)
  | .unary pos op operand => by
    unfold compileExpr
    exact (recipe_expr none operand).bind fun _ => Recipe.unary op
  | .cond pos test yes no => by
    unfold compileExpr
    exact (recipe_expr none test).conditional (recipe_expr none yes) (recipe_expr none no)
  | .index pos target key => by
    unfold compileExpr
    exact (recipe_expr none target).pair (recipe_expr none key) (Recipe.operation rfl rfl rfl)
  | .slice pos target low high => by
    unfold compileExpr
    exact (recipe_expr none target).bind fun _ => ((recipe_bound pos low).frame [.any]).bind fun _ =>
      ((recipe_bound pos high).frame [.any, .any]).bind fun _ => Recipe.operation rfl rfl rfl
  | .selector pos target name => by
    unfold compileExpr
    exact (recipe_expr none target).pair (Recipe.str name) (Recipe.operation rfl rfl rfl)
  | .call pos callee args spread => by
    unfold compileExpr
    exact (recipe_expr none callee).bind fun _ => ((recipe_exprs args).frame [.any]).bind fun _ =>
      recipe_call
  | .func pos params variadic body => by
    unfold compileExpr
    exact .function (recipe_stmts body)
  | .load pos name => by
    unfold compileExpr
    exact .imported name
  | .error pos operand | .immutable pos operand => by
    unfold compileExpr
    exact (recipe_expr none operand).bind fun _ => Recipe.operation rfl rfl rfl

theorem recipe_exprs : ∀ es : List Expr,
    Recipe [] ⟨[], replicate es.length .any, true⟩ goesOn (compileExprs · es)
  | [] => by
    unfold compileExprs
    exact .pure rfl
  | e :: es => by
    unfold compileExprs
    rw [length_cons, replicate_succ']
    exact (recipe_expr none e).bind fun _ => (recipe_exprs es).frame [.any]

theorem recipe_entries (pos : Pos) : ∀ entries : List (String × Expr),
    Recipe [] ⟨[], entrySlots entries.length [], true⟩ goesOn fun I =>
      compileEntries I pos entries
  | [] => by
    unfold compileEntries
    exact .pure rfl
  | (key, value) :: rest => by
    unfold compileEntries
    rw [length_cons, entrySlots_succ]
    have hkey : Recipe [] ⟨[], [.text], true⟩ goesOn fun _ => emitConstant pos (.str key) :=
      .literal rfl fun _ => ⟨key, rfl⟩
    exact hkey.bind fun _ => ((recipe_expr none value).frame [.text]).bind fun _ =>
      (recipe_entries pos rest).frame [.any, .text]

theorem recipe_bound (pos : Pos) : ∀ e : Option Expr, Recipe [] .value goesOn (compileBound · pos e)
  | none => by
    unfold compileBound
    exact Recipe.operation rfl rfl rfl
  | some e => by
    unfold compileBound
    exact recipe_expr none e

theorem recipe_selectors : ∀ (target : Expr) {name : String} {n : Nat}, assignTarget target = some (name, n) →
    Recipe [] ⟨[], replicate n .any, true⟩ goesOn (compileSelectors · target)
  | .ident pos name', name, n, h => by
    unfold compileSelectors
    cases h
    exact .pure rfl
  | .index pos target key, name, n, h => by
    unfold compileSelectors
    obtain ⟨⟨name', n'⟩, ht, heq⟩ := Option.map_eq_some_iff.mp h
    cases heq
    rw [replicate_succ']
    exact (recipe_expr none key).bind fun _ => (recipe_selectors target ht).frame [.any]
  | .selector pos target field, name, n, h => by
    unfold compileSelectors
    obtain ⟨⟨name', n'⟩, ht, heq⟩ := Option.map_eq_some_iff.mp h
    cases heq
    rw [replicate_succ']
    exact Recipe.guarded ((Recipe.str field).bind fun _ => (recipe_selectors target ht).frame [.any])
  | .int .., _, _, h | .float .., _, _, h | .char .., _, _, h | .str .., _, _, h | .bool .., _, _, h
  | .undefined .., _, _, h | .array .., _, _, h | .map .., _, _, h | .binary .., _, _, h
  | .unary .., _, _, h | .cond .., _, _, h | .slice .., _, _, h | .call .., _, _, h | .func .., _, _, h
  | .load .., _, _, h | .error .., _, _, h | .immutable .., _, _, h => by cases h

theorem recipe_test : ∀ (o : Option Expr) (e : Expr), o = some e → Recipe [] .value goesOn (compileExpr · none e)
  | some e, _, rfl => recipe_expr none e

/-- **A statement leaves the empty stack as it was.** -/
theorem recipe_stmt : ∀ s : Stmt, Recipe [] .flat id (compileStmt · s)
  | .expr pos value => by
    unfold compileStmt
    have hpop : Recipe [] ⟨[.any], [], true⟩ goesOn fun _ => emit_ pos .pop := .plain rfl rfl fun _ _ => .pop
    exact (recipe_expr none value).andFlat fun _ => hpop.shallow.bind fun _ => Recipe.done rfl
  | .assign pos [target] _ [value] => by
    unfold compileStmt
    exact (Recipe.assign (recipe_expr none target) (fun self => recipe_expr self value)
      fun _ _ h => recipe_selectors target h).bind fun _ => Recipe.done rfl
  | .assign _ [] _ _ | .assign _ [_] _ [] | .assign _ [_] _ (_ :: _ :: _) | .assign _ (_ :: _ :: _) _ _ => by
    simp only [compileStmt]
    exact .throw _
  | .step pos target _ => by
    unfold compileStmt
    exact (Recipe.assign (recipe_expr none target) (fun _ => .literal rfl (Kind.any_has _))
      fun _ _ h => recipe_selectors target h).bind fun _ => Recipe.done rfl
  | .block _ body => by
    unfold compileStmt
    exact (recipe_stmts body).inBlock
  | .branch pos init test body other => by
    unfold compileStmt
    simp only [branch_eq, compileOther_eq]
    exact (Recipe.tested (recipe_simple init) (recipe_expr none test) (recipe_stmts body) (recipe_other other)).inBlock
  | .loop pos init test post body => by
    unfold compileStmt
    simp only [loop_eq, compileTest_eq]
    exact (Recipe.looped (recipe_simple init) (recipe_test test) (recipe_stmts body) (recipe_simple post)).inBlock
  | .forIn pos key value iterable body => by
    unfold compileStmt
    simp only [forIn_eq]
    exact (Recipe.iterated (recipe_expr none iterable) (recipe_stmts body)).inBlock
  | .breakLoop pos => by
    unfold compileStmt
    exact .exit .breakOutsideLoop .done
  | .continueLoop pos => by
    unfold compileStmt
    exact .exit .continueOutsideLoop .next
  | .ret pos value => by
    unfold compileStmt
    simp only [throw_bind]
    refine .checked (.inl rfl) ?_
    cases value with
    | none =>
      simp only [compileResult, pure_bind]
      exact .ret (Nat.zero_le _)
    | some e =>
      simp only [compileResult, bind_assoc, pure_bind]
      exact (recipe_expr none e).andFlat fun _ => .ret (Nat.le_refl _)
  | .exportValue pos value => by
    unfold compileStmt
    simp only [throw_bind]
    have hfreeze : Recipe [] ⟨[.any], [.any], true⟩ goesOn fun _ => emit_ pos .immutable :=
      Recipe.operation rfl rfl rfl
    refine .checked (.inr rfl) ?_
    exact (recipe_expr none value).andFlat fun _ => hfreeze.shallow.bind fun _ => .ret (Nat.le_refl _)
  | .empty _ => by
    unfold compileStmt
    exact Recipe.done rfl

/-- **Statements are compiled by the rules.** -/
theorem recipe_stmts : ∀ body : List Stmt, Recipe [] .flat id (compileStmts · body)
  | [] => by
    unfold compileStmts
    exact Recipe.done rfl
  | s :: rest => by
    simp only [compileStmts_cons]
    exact (recipe_stmt s).andThen (recipe_stmts rest)

theorem recipe_simple : ∀ s : Option Stmt, Recipe [] .flat goesOn (compileSimple · s)
  | none => by
    unfold compileSimple
    exact Recipe.done rfl
  | some s => by
    unfold compileSimple
    exact (recipe_stmt s).discard

theorem recipe_other : ∀ (o : Option Stmt) (s : Stmt), o = some s → Recipe [] .flat id (compileStmt · s)
  | some s, _, rfl => recipe_stmt s

end

end Generator

end Scripting
