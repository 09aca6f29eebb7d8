import Scripting.Proofs.Compile.Judgement
/-!
# `Proofs.Compile.Checks` — what each construct checks

For every construct of the language, given that its parts check their rules, the step that compiles it checks its
own (`Judges`): branches and loops, jumps out of loops, assignments, function literals and modules.
-/

namespace Scripting

open List

namespace Generator

variable {B : Backdrop} {c : Setting} {pos : Pos}

/-! ## Expressions -/

section

variable {Pl Pr Pn : (String → Prop) → Prop} {lhs rhs no : Gen Unit}

theorem Asks.conditional (ht : Asks B c Pl lhs) (hy : Asks B c Pr rhs) (hn : Asks B c Pn no) :
    Asks B c (fun R => Pl R ∧ Pr R ∧ Pn R) (conditional pos lhs rhs no) :=
  Asks.bind ht fun _ => (Obeys.emit _ _ _).before fun _ => Asks.bind hy fun _ => (Obeys.emit _ _ _).before fun _ =>
    (Obeys.patchHere _ _).before fun _ => hn.quiet fun _ => Obeys.patchHere _ _

theorem Asks.shortCircuit (hl : Asks B c Pl lhs) (hr : Asks B c Pr rhs) :
    Asks B c (fun R => Pl R ∧ Pr R) (shortCircuit pos op lhs rhs) :=
  Asks.bind hl fun _ => (Obeys.emit _ _ _).before fun _ => hr.quiet fun _ => Obeys.patchHere _ _

theorem Asks.pair (hl : Asks B c Pl lhs) (hr : Asks B c Pr rhs) (h : Quiet last) :
    Asks B c (fun R => Pl R ∧ Pr R) (do lhs; rhs; last) := Asks.bind hl fun _ => hr.quiet fun _ => h

/-- **A binary operation** has an operator that it may have. -/
theorem Asks.binary (op : Operator) (hl : Asks B c Pl lhs) (hr : Asks B c Pr rhs) :
    Asks B c (fun R => op.isBinary ∧ Pl R ∧ Pr R) (binary pos op lhs rhs) := by
  have hswap {x : Gen Unit} (h : Asks B c (fun R => Pr R ∧ Pl R) x) : Asks B c (fun R => Pl R ∧ Pr R) x :=
    h.iff fun _ => and_comm
  have hgood {x : Gen Unit} (hop : op.isBinary = true) (h : Asks B c (fun R => Pl R ∧ Pr R) x) :
      Asks B c (fun R => op.isBinary ∧ Pl R ∧ Pr R) x := h.iff fun _ => (and_iff_right hop).symm
  cases op with
  | logicalAnd | logicalOr => exact hgood rfl (Asks.shortCircuit hl hr)
  | arith _ | equal | notEqual => exact hgood rfl (Asks.pair hl hr (Obeys.emit_ _ _ _))
  | order cmp =>
    cases cmp with
    | less | lessEq => exact hgood rfl (hswap (Asks.pair hr hl (Obeys.emit_ _ _ _)))
    | greater | greaterEq => exact hgood rfl (Asks.pair hl hr (Obeys.emit_ _ _ _))
  | update _ | increment | decrement | assign | not | define => exact .broken fun _ h => Bool.noConfusion h.1

theorem Asks.unary (op : Operator) : Asks B c (fun _ => op.isUnary) (unary pos op) := by
  unfold Generator.unary
  split
  · exact (Obeys.emit_ _ _ _).kept rfl
  · exact (Obeys.emit_ _ _ _).kept rfl
  · exact (Obeys.emit_ _ _ _).kept rfl
  · exact (Obeys.pure _).kept rfl
  · rename_i hnot hsub hxor hadd
    refine .broken fun _ h => ?_
    unfold Operator.isUnary at h
    split at h
    · exact hnot rfl
    · exact hsub rfl
    · exact hxor rfl
    · exact hadd rfl
    · cases h

end

/-! ## Branches -/

section

variable {Pi Pt Pb Po Pp : (String → Prop) → Prop} {init test : Gen Unit} {body : Gen Bool} {exits exits' : Bool}
  {names names' namesb : List String} {ji jb jo jp : Jumps}

/-- **A branch.** The body is a block of its own; a missing `else` part never exits. -/
theorem Judges.branch (hi : Judges B c.block Pi names ji init fun _ => True)
    (ht : Asks B (c.block.defining names) Pt test)
    (hb : Judges B (c.block.defining names).block Pb namesb jb body (· = exits))
    (ho : ∀ x, other = some x → Judges B (c.block.defining names) Po names' jo x (· = exits'))
    (hnone : other = none → (∀ R, Po R) ∧ jo = {} ∧ exits' = false) :
    Judges B c (fun R => Pi R ∧ Pt R ∧ Pb R ∧ Po R) [] (ji ∪ (jb ∪ jo)) (branch pos init test body other)
      (· = (exits && exits')) := by
  rw [branch_eq]
  have harms : Judges B (c.block.defining names) (fun R => Pb R ∧ Po R) (if other.isSome then names' else [])
      (jb ∪ jo) (arms pos (Generator.inBlock body) other) (· = (exits && exits')) := by
    cases other with
    | none =>
      obtain ⟨hPo, rfl, rfl⟩ := hnone rfl
      rw [Jumps.union_empty, Bool.and_false]
      have h : Judges B (c.block.defining names) Pb [] jb (arms pos (Generator.inBlock body) none) (· = false) :=
        (Obeys.emit pos .jumpFalsy [0]).before fun toOther => hb.inBlock.keep (fun _ => Obeys.patchHere pos toOther)
          fun _ _ => rfl
      exact h.iff fun R => (and_iff_left (hPo R)).symm
    | some x =>
      rw [arms_some_eq]
      have hjump (exits : Bool) : Quiet (if exits then Pure.pure none else some <$> Generator.emit pos .jump [0]) :=
        Obeys.ite (Obeys.pure _) (Obeys.emit _ _ _).map
      have hrest (toOther : Nat) (exits : Bool) : Judges B (c.block.defining names) Po names' jo
          ((if exits then Pure.pure none else some <$> Generator.emit pos .jump [0]) >>= fun toEnd =>
            Generator.patchHere pos toOther >>= fun _ => x >>= fun otherExits =>
            toEnd.forM (Generator.patchHere pos) >>= fun _ => Pure.pure (exits && otherExits))
          (· = (exits && exits')) :=
        (hjump exits).before fun toEnd => (Obeys.patchHere _ _).before fun _ => (ho x rfl).keep
          (fun _ => Obeys.option_forM (fun _ => Obeys.patchHere _ _) toEnd) fun _ h => h ▸ rfl
      refine (Obeys.emit pos .jumpFalsy [0]).before fun toOther => hb.inBlock.followed
        (fun exits => (hrest toOther exits).growing) fun a ha => ?_
      subst ha
      exact hrest toOther a
  have h := hi.bind (k := fun _ => test >>= fun _ => arms pos (Generator.inBlock body) other)
    (fun _ => ht.growing.bind fun _ => harms.growing) fun _ _ => Asks.bind ht fun _ => harms
  exact h.inBlock

/-! ## Loops -/

theorem Asks.testJump {test : Option (Gen Unit)} (ht : ∀ x, test = some x → Asks B c Pt x)
    (hnone : test = none → ∀ R, Pt R) : Asks B c Pt (testJump pos test) := by
  cases test with
  | none => exact (Obeys.pure none).kept (hnone rfl _)
  | some t => exact ((ht t rfl).quiet fun _ => Obeys.emit _ _ _).map fun _ _ => trivial

/-- **The rounds of a loop.** The code between two rounds is dropped if the body never comes to its end. -/
theorem Judges.rounds {test : Option (Gen Unit)} {post : Gen Unit} {w : Ways}
    (ht : ∀ x, test = some x → Asks B c Pt x) (hnone : test = none → ∀ R, Pt R)
    (hb : Judges B c.loop Pb namesb w.jumps body (· = w.exits)) (hgrow : Growing post)
    (hp : w.goesOn = true → Judges B (c.defining namesb) Pp names jp post fun _ => True) :
    Judges B c (fun R => Pt R ∧ Pb R ∧ (w.goesOn = true → Pp R)) ((if w.goesOn then names else []) ++ namesb)
      (if w.goesOn then jp else {}) (rounds pos test post body) fun jumps => jumps.jumps = w.jumps := by
  have hback (start : Nat) : Judges B (c.defining namesb) (fun R => w.goesOn = true → Pp R)
      (if w.goesOn then names else []) (if w.goesOn then jp else {}) (wayBack pos start post w.goesOn)
      fun _ => True := by
    unfold wayBack
    cases hw : w.goesOn with
    | true =>
      have h := (hp hw).quiet fun _ => Obeys.emit_ pos .jump [start]
      exact h.iff fun _ => ⟨fun h _ => h, fun h => h rfl⟩
    | false => exact (Obeys.pure ()).kept fun h => by cases h
  have hrest (start : Nat) (toEnd : Option Nat) : ∀ r : Bool × PendingJumps, r.1 = w.exits ∧ r.2.jumps = w.jumps →
      Judges B (c.defining namesb) (fun R => w.goesOn = true → Pp R) (if w.goesOn then names else [])
        (if w.goesOn then jp else {}) (here >>= fun next =>
          wayBack pos start post (!r.1 || !r.2.continues.isEmpty) >>= fun _ =>
          patchRounds pos toEnd r.2 next >>= fun _ => Pure.pure r.2) fun jumps => jumps.jumps = w.jumps := by
    rintro ⟨exits, jumps⟩ ⟨rfl, hj⟩
    have hgoes : (!w.exits || !jumps.continues.isEmpty) = w.goesOn := by
      rw [Ways.goesOn, ← hj]
      rfl
    rw [hgoes]
    exact Obeys.here.before fun next => (hback start).keep (fun _ => Obeys.patchRounds) fun _ _ => hj
  refine Obeys.here.before fun start => Asks.bind (Asks.testJump ht hnone) fun toEnd => ?_
  have h := hb.inLoop.bind (fun _ => ?_) fun r hr => hrest start toEnd r hr
  · rwa [Jumps.empty_union] at h
  · exact Obeys.here.bind fun _ => hgrow.wayBack.bind fun _ => Obeys.patchRounds.bind fun _ => Obeys.pure _

/-- **A loop with a test and code between its rounds.** -/
theorem Judges.loop {test : Option (Gen Unit)} {post : Gen Unit} {w : Ways}
    (hi : Judges B c.block Pi names ji init fun _ => True)
    (ht : ∀ x, test = some x → Asks B (c.block.defining names) Pt x) (hnone : test = none → ∀ R, Pt R)
    (hb : Judges B (c.block.defining names).loop.block Pb namesb w.jumps body (· = w.exits)) (hgrow : Growing post)
    (hp : w.goesOn = true → Judges B (c.block.defining names) Pp names' jp post fun _ => True) :
    Judges B c (fun R => Pi R ∧ Pt R ∧ Pb R ∧ (w.goesOn = true → Pp R)) [] (ji ∪ if w.goesOn then jp else {})
      (loop pos init test post body) (· = (test.isNone && !w.jumps.breaks)) := by
  rw [loop_eq]
  have hrounds : Judges B (c.block.defining names) _ _ _ (Generator.rounds pos test post (Generator.inBlock body)) _ :=
    Judges.rounds ht hnone hb.inBlock hgrow fun hw => by rw [Setting.defining_nil]; exact hp hw
  refine (hi.bind (fun _ => hrounds.growing.bind fun _ => Obeys.pure _) fun _ _ =>
    hrounds.last (fun _ => Obeys.pure _) fun jumps hj _ => .pure ?_).inBlock
  rw [← hj]
  simp [PendingJumps.jumps]

theorem Judges.bindIteration (iterator : Symbol) (read : Opcode) (name : String) :
    Judges B c (fun _ => True) ([name].filter (· ≠ "_")) {} (bindIteration pos iterator read name)
      fun _ => True := by
  unfold Generator.bindIteration
  by_cases hname : name = "_"
  · subst hname
    exact (Obeys.pure ()).asks
  · have hlist : [name].filter (· ≠ "_") = [name] := by simp [hname]
    rw [if_pos (by simpa using hname), hlist]
    exact (Judges.define name).quiet fun sym => (Obeys.emitLoad _ _).bind fun _ =>
      (Obeys.emit_ _ _ _).bind fun _ => Obeys.emitDefine _ _

theorem Judges.bindValue (iterator : Symbol) (value : Option String) :
    Judges B c (fun _ => True) (value.toList.filter (· ≠ "_")) {}
      (value.forM (Generator.bindIteration pos iterator .iterValue)) fun _ => True := by
  cases value with
  | none => exact (Obeys.pure ()).asks
  | some name => exact Judges.bindIteration iterator .iterValue name

/-- **A loop over the elements of a value.** -/
theorem Judges.forIn (hi : Asks B c.block Pi iterable) {w : Ways}
    (hb : Judges B (c.iteration key value).block Pb namesb w.jumps body (· = w.exits)) :
    Judges B c (fun R => Pi R ∧ Pb R) [] {} (Generator.forIn pos key value iterable body) (· = false) := by
  rw [forIn_eq]
  simp only [startIteration_bind]
  have hsetting : (((c.block.defining [iteratorName]).loop.defining ([key].filter (· ≠ "_"))).defining
      (value.toList.filter (· ≠ "_"))).block = (c.iteration key value).block := by
    rw [Setting.defining_defining]
    show ((c.block.defining [iteratorName]).defining _).loop.block = _
    rw [Setting.defining_defining]
    show ((c.block.defining _).block).loop = ((c.block.defining _).block).loop
    congr 1
    refine Setting.block_defining_congr _ fun m => ?_
    simp only [mem_append, mem_filter, mem_cons]
    tauto
  have hbody (iterator : Symbol) : Judges B (c.block.defining [iteratorName]).loop Pb
      ([] ++ value.toList.filter (· ≠ "_") ++ [key].filter (· ≠ "_")) w.jumps
      (bindRound pos iterator key value >>= fun _ => Generator.inBlock body) (· = w.exits) := by
    rw [bindRound, bind_assoc]
    exact (Judges.bindIteration iterator .iterKey key).naming fun _ => (Judges.bindValue iterator value).naming
      fun _ => Judges.inBlock (by rw [hsetting]; exact hb)
  have hnext (iterator : Symbol) : Asks B (c.block.defining [iteratorName]) (fun _ => True)
      (nextIteration pos iterator) := ((Obeys.emitLoad _ _).bind fun _ => Obeys.emit_ _ _ _).asks
  have hrounds (iterator : Symbol) : Judges B (c.block.defining [iteratorName])
      (fun R => True ∧ Pb R ∧ (w.goesOn = true → True)) _ _
      (Generator.rounds pos (some (nextIteration pos iterator)) (Pure.pure ())
        (bindRound pos iterator key value >>= fun _ => Generator.inBlock body)) _ :=
    Judges.rounds (fun x hx => by cases hx; exact hnext iterator) (fun h => by cases h) (hbody iterator)
      (Obeys.pure ()) fun _ => (Obeys.pure ()).asks
  have hloop := (Asks.bind hi fun _ => (Obeys.emit_ pos .iterInit []).before fun _ =>
    (Judges.define iteratorName).naming fun iterator => (Obeys.emitDefine pos iterator).before fun _ =>
      (hrounds iterator).last (fun _ => Obeys.pure false) fun _ _ _ => Judges.pure rfl).inBlock
  rw [ite_self] at hloop
  refine hloop.weaken (fun R => ?_) fun _ h => h.symm
  simp only [implies_true, and_true, true_and]

/-! ## Jumps, returns and exports -/

/-- A rule about where the code stands. -/
theorem Judges.check {p : Generator → Bool} {x : Gen α} (hp : ∀ g, InSetting B c g → (p g = true ↔ ¬q))
    (hx : Judges B c P names j x Q) :
    Judges B c (fun R => q ∧ P R) names j (MonadState.get >>= fun g => if p g then throw e else x) Q where
  growing := Obeys.get.bind fun _ => Obeys.ite (Obeys.throw _) hx.growing
  judged g hc hs := by
    show Judged B _ _ ((if p g then throw e else x : Gen α) g)
    by_cases h : p g = true
    · rw [if_pos h]
      exact .refuse rfl hc fun R _ hq => (hp g hs).mp h hq.1
    · have hq : q := not_not.mp fun hn => h ((hp g hs).mpr hn)
      rw [if_neg h]
      exact (hx.iff fun R => (and_iff_right hq).symm).judged g hc hs

/-- **A jump out of the innermost loop.** -/
theorem Judges.emitLoopJump {cause : CompileCause} (hadd : ∀ n l, (add n l).jumps = l.jumps ∪ j) :
    Judges B c (fun _ => c.inLoop) [] j (emitLoopJump pos cause add) fun _ => True := by
  rw [emitLoopJump_eq]
  have hmodify (jump : Nat) : Judges B c (fun _ => True) [] j (modifyLoop (add jump)) fun _ => True :=
    { growing := Growing.modify fun _ => rfl
      judged := fun g hc _ => by
        refine .accept rfl hc trivial ⟨trivial, .refl _, id, ?_, rfl, rfl, rfl, id⟩
        dsimp only
        cases g.scope.loops with
        | nil => rfl
        | cons l ls => simp only [map_cons, Jumps.addTo, hadd] }
  have hrest : Judges B c (fun _ => True) [] j (Generator.emit pos .jump [0] >>= fun jump => modifyLoop (add jump))
      fun _ => True := (Obeys.emit _ _ _).before fun jump => hmodify jump
  refine (hrest.check fun g hs => ?_).iff fun R => and_iff_left trivial
  rw [hs.inLoop]
  simp

/-! ## Assignments -/

theorem assignTarget_fst : ∀ target : Expr, (assignTarget target).map (·.1) = target.base?
  | .ident .. => rfl
  | .index _ target _ | .selector _ target _ => by
    simp only [assignTarget, Expr.base?, Option.map_map, ← assignTarget_fst target]
    rfl
  | .int .. | .float .. | .char .. | .str .. | .bool .. | .undefined .. | .array .. | .map .. | .binary ..
  | .unary .. | .cond .. | .slice .. | .call .. | .func .. | .load .. | .error .. | .immutable .. => rfl

theorem assignTarget_zero : assignTarget target = some (name, 0) ↔ ∃ pos, target = .ident pos name := by
  cases target <;> simp [assignTarget]

theorem Quiet.emitStore (h : sym.kind.role = .var) (n : Nat) : Quiet (emitStore pos op sym n) := by
  unfold Generator.emitStore
  cases hk : sym.kind with
  | globalVar | localVar | captured => cases n <;> exact Obeys.emit_ _ _ _
  | builtin | self =>
    rw [hk] at h
    cases h

theorem Growing.storeValue (hs : Growing selectors) : Growing (storeValue pos op sym n selectors) := by
  refine (Obeys.option_forM (fun _ => Obeys.emit_ _ _ _) _).bind fun _ => hs.bind fun _ => ?_
  unfold emitStore
  split <;> first | exact Obeys.emit_ _ _ _ | exact Obeys.throw _

theorem Asks.storeValue (hsym : sym.kind.role = .var) (hs : Asks B c Ps selectors) :
    Asks B c Ps (storeValue pos op sym n selectors) :=
  (Obeys.option_forM (fun _ => Obeys.emit_ _ _ _) _).before fun _ => hs.quiet fun _ => Quiet.emitStore hsym n

/-- The end of an assignment: the variable gets its value, and is defined first if there is none. -/
def storeInto (pos : Pos) (op : Operator) (name : String) (n : Nat) (selectors : Gen Unit)
    (existing? : Option Symbol) : Gen Unit :=
  (match existing? with
    | some sym => pure sym
    | none => define name) >>= fun sym => storeValue pos op sym n selectors

theorem Growing.storeInto (hs : Growing selectors) (name : String) (existing? : Option Symbol) :
    Growing (storeInto pos op name n selectors existing?) := by
  refine Obeys.bind ?_ fun _ => hs.storeValue
  cases existing? with
  | none => exact Growing.modifyGet fun _ => rfl
  | some sym => exact Obeys.pure sym

/-- **`:=` finds the name free in the innermost scope.** -/
theorem Judges.assignVariable_define (pos : Pos) (name : String) :
    Judges B c (fun _ => name ∉ c.here) [] {} (assignVariable pos .define name) (· = none) := by
  have hrest (found : Option Symbol) (hfound : isShadowable found = !decide (name ∈ c.here)) :
      Judges B c (fun _ => name ∉ c.here) [] {} (if isShadowable found then Pure.pure none
        else throw { cause := .redeclared name, pos } : Gen (Option Symbol)) (· = none) := by
    rw [hfound]
    by_cases hmem : name ∈ c.here
    · rw [if_neg (by simp [hmem])]
      exact .broken fun _ h => h hmem
    · rw [if_pos (by simp [hmem])]
      exact .kept hmem rfl
  exact (Judges.resolveTop? name).learning (fun _ => Obeys.ite (Obeys.pure _) (Obeys.throw _)) hrest

/-- What an assignment other than `:=` makes of the symbol of its target. -/
def settle (pos : Pos) (name : String) (found : Option Symbol) : Gen (Option Symbol) :=
  match found with
  | none => throw { cause := .unresolved name, pos }
  | some sym =>
    match sym.kind with
    | .builtin => throw { cause := .assignBuiltin name, pos }
    | .self => throw { cause := .assignSelf name, pos }
    | _ => pure (some sym)

theorem Growing.settle (pos : Pos) (name : String) (found : Option Symbol) : Growing (settle pos name found) := by
  unfold Generator.settle
  cases found with
  | none => exact Obeys.throw _
  | some sym =>
    dsimp only
    split <;> first | exact Obeys.throw _ | exact Obeys.pure _

/-- **Other assignments find a variable.** -/
theorem Judges.assignVariable_other (pos : Pos) (hop : op ≠ .define) (name : String) :
    Judges B c (fun _ => c.role name = some .var) [] {} (assignVariable pos op name)
      fun found => ∃ sym, found = some sym ∧ sym.kind.role = .var := by
  rw [assignVariable_eq, if_neg hop]
  have hrest (found : Option Symbol) (hfound : found.map (·.kind.role) = c.role name) :
      Judges B c (fun _ => c.role name = some .var) [] {} (settle pos name found)
        fun found => ∃ sym, found = some sym ∧ sym.kind.role = .var := by
    unfold settle
    cases found with
    | none =>
      refine .broken fun _ h => ?_
      rw [h] at hfound
      cases hfound
    | some sym =>
      rw [Option.map_some] at hfound
      dsimp only
      cases hk : sym.kind with
      | builtin | self =>
        refine .broken fun _ h => ?_
        rw [h, hk] at hfound
        cases hfound
      | globalVar | localVar | captured =>
        rw [hk] at hfound
        exact .kept hfound.symm ⟨sym, rfl, by rw [hk]; rfl⟩
  exact (Judges.resolve? name).learning (Growing.settle pos name) hrest

section

variable {Pr Ps Px : (String → Prop) → Prop} {op : Operator} {target : Expr} {read selectors : Gen Unit}
  {value : Option String → Gen Unit} {Pv : Option String → (String → Prop) → Prop}

/-- **`:=`** has a plain name as its target that the innermost scope has not defined. -/
theorem Judges.assign_define (hs : ∀ p name, target = .ident p name → Quiet selectors)
    (hgrow : Growing selectors) (hv : ∀ own, Asks B c (Pv own) (value own))
    (hnames : ∀ p name, target = .ident p name → names = [name]) :
    Judges B c (fun R => ∃ p name, target = .ident p name ∧ name ∉ c.here ∧ Pv (some name) R) names {}
      (assign pos .define target read selectors value) fun _ => True := by
  rw [assign_eq]
  cases ht : assignTarget target with
  | none =>
    refine .broken fun R => ?_
    rintro ⟨p, name, rfl, -⟩
    cases ht
  | some found =>
    obtain ⟨name, n⟩ := found
    dsimp only
    cases n with
    | succ n =>
      refine .broken fun R => ?_
      rintro ⟨p, name, rfl, -⟩
      cases ht
    | zero =>
      obtain ⟨p, rfl⟩ := assignTarget_zero.mp ht
      rw [hnames p name rfl]
      have hstore (sym : Symbol) (hsym : sym.kind.isDefined = true) (c : Setting) :
          Asks B c (fun _ => True) (storeValue pos .define sym 0 selectors) :=
        Asks.storeValue (by cases hk : sym.kind <;> simp_all [SymbolKind.isDefined, SymbolKind.role])
          (hs p name rfl).asks
      have hgo (existing? : Option Symbol) (h : existing? = none) :
          Judges B c (fun R => Pv (some name) R ∧ True) [name] {}
            (value (some name) >>= fun _ => storeInto pos .define name 0 selectors existing?) fun _ => True := by
        subst h
        exact Asks.bind (hv (some name)) fun _ => (Judges.define name).last (fun _ => hgrow.storeValue) hstore
      have h := (Judges.assignVariable_define pos name).followed
        (fun existing? => (hv (some name)).growing.bind fun _ => hgrow.storeInto name existing?) hgo
      have hmissing : Operator.define.updates?.isSome = false := rfl
      refine h.iff fun R => ⟨?_, ?_⟩
      · rintro ⟨hn, hp, -⟩
        exact ⟨p, name, rfl, hn, hp⟩
      · rintro ⟨_, _, ⟨rfl, rfl⟩, hn, hp⟩
        exact ⟨hn, hp, trivial⟩

/-- **Any other assignment** has a target that starts with a variable. Its selectors, and its value if that is
read first, follow the rules for expressions. -/
theorem Judges.assign_other (hop : op ≠ .define) (hr : Asks B c Pr read) (hs : Asks B c Ps selectors)
    (hv : Asks B c Px (value none)) (hsame : ∀ R, c.CanAssign target → (Pr R ↔ Ps R)) :
    Asks B c (fun R => c.CanAssign target ∧ Pr R ∧ Px R) (assign pos op target read selectors value) := by
  rw [assign_eq]
  have hbase := assignTarget_fst target
  cases ht : assignTarget target with
  | none =>
    refine .broken fun R => ?_
    rintro ⟨⟨name, hname, -⟩, -⟩
    rw [← hbase, ht] at hname
    cases hname
  | some found =>
    obtain ⟨name, n⟩ := found
    rw [ht, Option.map_some] at hbase
    have hcan : c.CanAssign target ↔ c.role name = some .var := by
      simp only [Setting.CanAssign, ← hbase, Option.some.injEq, exists_eq_left']
    dsimp only
    rw [if_neg (by simp [hop])]
    simp only [if_neg hop]
    have hread : Asks B c (fun R => op.updates?.isSome → Pr R)
        (if op.updates?.isSome then read else Pure.pure ()) := by
      split
      · exact hr.iff fun R => ⟨fun h _ => h, fun h => h ‹_›⟩
      · exact (Obeys.pure ()).kept fun h => absurd h ‹_›
    have hstore (sym : Symbol) (hsym : sym.kind.role = .var) :
        Asks B c Ps (storeInto pos op name n selectors (some sym)) := by
      unfold storeInto
      exact Asks.storeValue hsym hs
    have hgo (existing? : Option Symbol) (h : ∃ sym, existing? = some sym ∧ sym.kind.role = .var) :
        Asks B c (fun R => (op.updates?.isSome → Pr R) ∧ Px R ∧ Ps R)
          ((if op.updates?.isSome then read else Pure.pure ()) >>= fun _ => value none >>= fun _ =>
            storeInto pos op name n selectors existing?) := by
      obtain ⟨sym, rfl, hsym⟩ := h
      exact hread.bind fun _ => hv.bind fun _ => hstore sym hsym
    have h := (Judges.assignVariable_other pos hop name).followed
      (fun existing? => hread.growing.bind fun _ => hv.growing.bind fun _ => hs.growing.storeInto name existing?) hgo
    refine h.iff fun R => ?_
    rw [← hcan]
    constructor
    · rintro ⟨hvar, -, hpv, hps⟩
      exact ⟨hvar, (hsame R hvar).mpr hps, hpv⟩
    · rintro ⟨hvar, hpr, hpv⟩
      exact ⟨hvar, fun _ => hpr, hpv, (hsame R hvar).mp hpr⟩

end

/-! ## Function literals -/

/-- **Parameters have different names**, and none that the innermost scope knows. -/
theorem defineParams_cases : ∀ (params : List Name) (g : Generator),
    ((params.map (·.text)).Nodup ∧ (∀ p ∈ params, g.table.resolveTop? p.text = none) ∧
      defineParams params g = .ok () { g with table := withParams g.table params }) ∨
    (¬((params.map (·.text)).Nodup ∧ ∀ p ∈ params, g.table.resolveTop? p.text = none) ∧
      ∃ e t, defineParams params g = .error e { g with table := t })
  | [], g => .inl ⟨.nil, by simp, rfl⟩
  | p :: ps, g => by
    have hstep : defineParams (p :: ps) g = if (g.table.resolveTop? p.text).isSome then
        .error { cause := .redeclared p.text, pos := p.pos } g
        else defineParams ps { g with table := (g.table.define p.text).2 } := by
      show (if (g.table.resolveTop? p.text).isSome = true then _ else _ : Gen Unit) g = _
      split <;> rfl
    rw [hstep]
    cases htop : g.table.resolveTop? p.text with
    | some sym =>
      refine .inr ⟨fun h => ?_, _, g.table, rfl⟩
      rw [h.2 p (by simp)] at htop
      cases htop
    | none =>
      have hfree : (∀ q ∈ ps, (g.table.define p.text).2.resolveTop? q.text = none) ↔
          p.text ∉ ps.map (·.text) ∧ ∀ q ∈ ps, g.table.resolveTop? q.text = none := by
        simp only [SymbolTable.resolveTop?_define, mem_map, not_exists, not_and]
        constructor
        · intro h
          refine ⟨fun q hq heq => ?_, fun q hq => ?_⟩
          · have := h q hq
            rw [if_pos heq] at this
            cases this
          · by_cases heq : q.text = p.text
            · rw [heq, htop]
            · rw [← h q hq, if_neg heq]
        · rintro ⟨hne, h⟩ q hq
          rw [if_neg (hne q hq), h q hq]
      have hall : ((p :: ps).map (·.text)).Nodup ∧ (∀ q ∈ p :: ps, g.table.resolveTop? q.text = none) ↔
          (ps.map (·.text)).Nodup ∧ ∀ q ∈ ps, (g.table.define p.text).2.resolveTop? q.text = none := by
        rw [map_cons, nodup_cons, forall_mem_cons]
        tauto
      rw [← and_assoc, hall]
      rcases defineParams_cases ps { g with table := (g.table.define p.text).2 } with ⟨hn, hf, hr⟩ | h
      · exact .inl ⟨⟨hn, hf⟩, hr⟩
      · exact .inr h

theorem forM_defineSelf (own : Option String) (g : Generator) :
    own.forM defineSelf g = .ok () { g with table := withSelf g.table own } := by
  cases own with
  | none => rfl
  | some name =>
    show defineSelf name g = .ok () { g with
      table := if (g.table.resolveTop? name).isNone then (g.table.defineFunction name).2 else g.table }
    unfold defineSelf
    show (if (g.table.resolveTop? name).isNone = true then _ else _ : Gen Unit) g = _
    split <;> rfl

/-- The state in which the body of a function literal is compiled, but for the block around it. -/
def intoLiteral (g : Generator) (params : List Name) (own : Option String) : Generator := { g with
  scope := {}
  outer := g.scope :: g.outer
  table := withSelf (withParams (g.table.enter false) params) own }

/-- What a function captures can be captured. -/
def Capturable (captures : List Symbol) : Prop := ∀ sym ∈ captures, sym.isEverywhere = false

section

variable {P : (String → Prop) → Prop} {names : List String} {j : Jumps} {body : Gen Bool} {params : List Name}
  {own : Option String} {Q : Bool → Prop}

theorem InSetting.literal (hs : InSetting B c g) (params : List Name) (own : Option String) :
    InSetting B (c.literal (params.map (·.text)) own)
      { g.intoLiteral params own with table := (g.intoLiteral params own).table.enter true } where
  table := hs.table.literal params own
  unit := Nat.le_succ_of_le hs.unit
  inLiteral := by
    have := hs.unit
    simp [intoLiteral, Setting.literal]
    omega
  inLoop := rfl
  importing := hs.importing
  known := hs.known

/-- **The body of a function literal** stands in a setting of its own; around the literal nothing changes. -/
theorem Judges.literalBody (hb : Judges B (c.literal (params.map (·.text)) own) P names j body Q)
    (hc : Clean g) (hs : InSetting B c g) :
    Judged B P (fun r g' => Capturable r.2.captures ∧ Goes B [] {} g g')
      ((Generator.inBlock body >>= fun exits => emitFinalReturn exits >>= fun _ => closeFunction)
        (g.intoLiteral params own)) := by
  have hgrow (exits : Bool) : Growing (emitFinalReturn exits >>= fun _ => closeFunction) :=
    (Obeys.emitFinalReturn exits).bind fun _ => Growing.closeFunction
  rcases hb.judged { g.intoLiteral params own with table := (g.intoLiteral params own).table.enter true } hc
    (hs.literal params own) with ⟨exits, g1, hr, hc1, hp, -, hg⟩ | ⟨e, he, hwhy⟩
  · rw [bind_apply, show Generator.inBlock body (g.intoLiteral params own) =
      .ok exits { g1 with table := g1.table.leave.2 } by rw [Generator.inBlock, hr]]
    dsimp only
    rw [bind_apply]
    have hsane : g1.table.Sane := hg.sane (hs.literal params own).table.sane
    have hclean : Clean { g1 with table := g1.table.leave.2 } := hc1
    rcases (Obeys.emitFinalReturn exits).runs hclean with ⟨u, g2, hr2, hc2, hi⟩ | ⟨e, g2, hr2, hc2, he⟩
    · rw [hr2]
      simp only [frame, Prod.mk.injEq] at hi
      obtain ⟨htable, -, houter, hunit, himporting, hmodules, -⟩ := hi
      refine .accept (closeFunction_apply (houter.trans hg.outer)) hc2 hp ⟨?_, ?_, ?_, ?_, rfl, ?_, ?_, ?_⟩
      · show Capturable g2.table.leave.1.captures
        rw [htable]
        exact hsane.leave.captures
      · show g.table.Binds [] g2.table.leave.2
        rw [htable]
        exact .literal hg.table
      · show _ → g2.table.leave.2.Sane
        rw [htable]
        exact fun _ => hsane.leave.leave
      · exact (Jumps.empty_addTo _).symm
      · exact hunit.trans hg.unitDepth
      · exact himporting.trans hg.importing
      · intro hknown name r hget
        exact hg.known hknown name r (by rw [← hget]; exact congrArg (·.get? name) hmodules.symm)
    · rw [hr2]
      exact .limit rfl hc2 he
  · exact .inr ⟨e, firstError_bind ((firstError_inBlock body _).trans he) hgrow, hwhy⟩

theorem Judges.enclosed (hb : Judges B (c.literal (params.map (·.text)) own) P names j body Q) :
    Judges B c (fun R => (params.map (·.text)).Nodup ∧ P R) [] {} (enclosed do
        defineParams params
        own.forM defineSelf
        Generator.inBlock body >>= fun exits => emitFinalReturn exits)
      fun r => Capturable r.2.captures where
  growing := by
    refine Growing.openFunction.bind fun _ => Obeys.bind ?_ fun _ => Growing.closeFunction
    exact (Emits.defineParams params).growing.bind fun _ => (Emits.defineSelf own).growing.bind fun _ =>
      hb.growing.inBlock.bind Obeys.emitFinalReturn
  judged g hc hs := by
    unfold Generator.enclosed
    simp only [bind_assoc]
    show Judged B _ _ ((defineParams params >>= fun _ => own.forM defineSelf >>= fun _ => Generator.inBlock body >>=
      fun exits => emitFinalReturn exits >>= fun _ => closeFunction)
      { g with scope := {}, outer := g.scope :: g.outer, table := g.table.enter false })
    rw [bind_apply]
    rcases defineParams_cases params { g with scope := {}, outer := g.scope :: g.outer, table := g.table.enter false }
      with ⟨hnodup, -, hr⟩ | ⟨hbad, e, t, hr⟩
    · rw [hr]
      dsimp only
      rw [bind_apply, forM_defineSelf]
      rcases hb.literalBody hc hs with ⟨r, g', hr', hc', hp, hq⟩ | ⟨e, he, hwhy⟩
      · exact .accept hr' hc' ⟨hnodup, hp⟩ hq
      · exact .inr ⟨e, he, hwhy.imp_right fun hn R hR h => hn R hR h.2⟩
    · rw [hr]
      exact .refuse rfl hc fun R _ h => hbad ⟨h.1, fun _ _ => rfl⟩

theorem Quiet.emitCaptures : ∀ {syms : List Symbol}, Capturable syms → Quiet (emitCaptures pos syms)
  | [], _ => Obeys.pure _
  | sym :: rest, h => by
    rw [emitCaptures_cons]
    refine Obeys.bind ?_ fun _ => Quiet.emitCaptures fun s hs => h s (mem_cons_of_mem _ hs)
    have hsym := h sym mem_cons_self
    unfold emitCapture
    cases hk : sym.kind with
    | localVar | captured | self => exact Obeys.emit_ _ _ _
    | globalVar | builtin => simp [Symbol.isEverywhere, hk] at hsym

theorem Quiet.makeFunction (h : Capturable captures) : Quiet (makeFunction pos r captures) :=
  (Obeys.newRoutine r).bind fun _ => (Obeys.addConstant _).bind fun _ =>
    Obeys.ite (Obeys.emit_ _ _ _) ((Quiet.emitCaptures h).bind fun _ => Obeys.emit_ _ _ _)

/-- **A function literal** has parameters with different names, and one if it is variadic. -/
theorem Judges.function {variadic : Bool} (hb : Judges B (c.literal (params.map (·.text)) own) P names j body Q) :
    Asks B c (fun R => (params.map (·.text)).Nodup ∧ (variadic → params ≠ []) ∧ P R)
      (function pos params variadic own body) := by
  rw [function_eq]
  have hmake (r : CodeScope × ScopeSummary) (h : Capturable r.2.captures) :
      Quiet (if Code.maxOperand 2 < r.1.code.size then
        throw { cause := .limit .instructionBytes (Code.maxOperand 2), pos }
        else Generator.makeFunction pos (literalRoutine params variadic r.1 r.2) r.2.captures) :=
    Obeys.ite (Obeys.exceeded rfl) (Quiet.makeFunction h)
  have hrest := (Judges.enclosed hb).last
    (fun r => Obeys.ite (Obeys.throw _)
      (Emits.makeFunction pos (literalRoutine params variadic r.1 r.2) r.2.captures).growing)
    fun r h c => (hmake r h).asks
  refine Judges.unlessExceeded rfl ((Judges.unless hrest).iff fun R => ?_)
  have hvariadic : ¬(variadic && params.isEmpty) = true ↔ (variadic → params ≠ []) := by
    simp [List.isEmpty_iff]
  rw [hvariadic]
  tauto

end

/-! ## Modules -/

theorem firstError_inModule :
    firstError (inModule name x g) = firstError (x (g.intoModule name)) := by
  rw [inModule_apply]
  cases x (g.intoModule name) <;> rfl

theorem InSetting.intoModule (hs : InSetting B c g) (name : String) :
    InSetting ⟨B.modules, name :: B.busy⟩ .ofModule (g.intoModule name) where
  table := by
    show SymbolTable.Shows _ ((SymbolTable.ofBuiltins g.table.builtins).enter false)
    rw [hs.table.builtins]
    exact .module
  unit := Nat.le_refl _
  inLiteral := by simp [Generator.intoModule, Setting.ofModule, Setting.ofProgram]
  inLoop := rfl
  importing := congrArg (name :: ·) hs.importing
  known := hs.known

/-- **The code of a module**, around which nothing changes. -/
theorem Goes.outOfModule (h : Goes ⟨B.modules, busy⟩ names j (g.intoModule name) g1) :
    Goes B [] {} g (g.outOfModule g1) := by
  have houter : g1.outer = g.scope :: g.outer := h.outer
  have hunit : g1.unitDepth = g.outer.length + 1 := h.unitDepth
  have hunwound : (g1.unwind g1.unitDepth).outer = g.scope :: g.outer := by
    simp [unwind, houter, hunit]
  refine ⟨.refl _, id, ?_, ?_, rfl, ?_, h.known⟩
  · show ((g1.unwind g1.unitDepth).outer.headD {}).loops.map (·.jumps) = _
    rw [hunwound]
    exact (Jumps.empty_addTo _).symm
  · show (g1.unwind g1.unitDepth).outer.tail = _
    rw [hunwound]
    rfl
  · show g1.importing.tail = _
    rw [h.importing]
    rfl

/-- Keep the routine of a module, unless compiling it has met errors. -/
def keepModule (name : String) (before : Nat) (r : Routine) : Gen Ref :=
  newRoutine r >>= fun routine => (get : Gen Generator) >>= fun g =>
  (if g.errors.size = before then modify fun g => { g with modules := g.modules.insert name routine }
  else pure ()) >>= fun _ => pure routine

theorem Growing.keepModule (name : String) (before : Nat) (r : Routine) : Growing (keepModule name before r) :=
  (Obeys.newRoutine r).bind fun _ => Obeys.get.bind fun _ => Obeys.bind
    (Obeys.ite (Growing.modify fun _ => rfl) (Obeys.pure _)) fun _ => Obeys.pure _

theorem keepModule_apply : keepModule name g.errors.size r g =
    .ok (g.heap.newFunction r).1 { g with
      heap := (g.heap.newFunction r).2, modules := g.modules.insert name (g.heap.newFunction r).1 } := by
  show ((if g.errors.size = g.errors.size then _ else _ : Gen Unit) >>= _ : Gen Ref) _ = _
  rw [if_pos rfl]
  rfl

def buildModule (name : String) (body : Gen Bool) : Gen Ref :=
  (get : Gen Generator) >>= fun g =>
  inModule name (body >>= fun exits => emitFinalReturn exits) >>= fun r =>
  keepModule name g.errors.size (moduleRoutine r.1 r.2)

section

variable {name : String} {source : List Stmt} {body : Gen Bool} {names : List String} {j : Jumps} {Q : Bool → Prop}

theorem Growing.buildModule (hb : Growing body) : Growing (buildModule name body) :=
  Obeys.get.bind fun _ => (Growing.inModule (hb.bind Obeys.emitFinalReturn)).bind
    fun _ => Growing.keepModule _ _ _

theorem Known.insert (h : Known M g) (hname : Importable M [] name) (r : Ref) (heap : Heap) :
    Known M { g with heap, modules := g.modules.insert name r } := by
  intro m r' hget
  by_cases hm : m = name
  · exact hm ▸ hname
  · exact h m r' (by rw [← hget]; exact ((Dict.get?_insert ..).trans (if_neg hm)).symm)

/-- **A module that has not been compiled yet** has to have valid code, which must not import the module. -/
theorem Asks.buildModule (hne : name ≠ "") (hget : B.modules.get? name = some (.source source))
    (hb : Judges ⟨B.modules, name :: B.busy⟩ .ofModule (fun R => ValidBody R .ofModule source) names j body Q) :
    Asks B c (fun R => R name) (buildModule name body) where
  growing := hb.growing.buildModule
  judged g hc hs := by
    have hinside := (hb.quiet Obeys.emitFinalReturn).judged (g.intoModule name) hc (hs.intoModule name)
    unfold Generator.buildModule
    rw [bind_apply]
    show Judged B _ _ ((inModule name _ >>= _) g)
    rcases hinside with ⟨u, g1, hr, hc1, hp, -, hg⟩ | ⟨e, he, hwhy⟩
    · rw [bind_apply, inModule_apply, hr]
      dsimp only
      have hsize : g.errors.size = (g.outOfModule g1).errors.size := hc.trans hc1.symm
      rw [hsize, keepModule_apply]
      have himport : Importable B.modules [] name := .source _ hne hget not_mem_nil (fun _ h => h) hp
      have hgoes := Goes.outOfModule hg
      exact .accept rfl hc1 himport ⟨trivial, hgoes.table, hgoes.sane, hgoes.loops, hgoes.outer, hgoes.unitDepth,
        hgoes.importing, fun h => (hgoes.known h).insert himport _ _⟩
    · refine .inr ⟨e, firstError_bind (firstError_inModule.trans he) fun _ => Growing.keepModule _ _ _,
        hwhy.imp_right fun hn R hR hname => ?_⟩
      obtain ⟨-, R', hR', hvalid⟩ := (hR name hname).valid hget
      exact hn R' hR' hvalid

/-- **A source module** must not be one of those at hand. It is compiled once. -/
theorem Asks.moduleFunction (hne : name ≠ "") (hget : B.modules.get? name = some (.source source))
    (hgrow : Growing body) (hb : name ∉ B.busy →
      Judges ⟨B.modules, name :: B.busy⟩ .ofModule (fun R => ValidBody R .ofModule source) names j body Q) :
    Asks B c (fun R => R name) (moduleFunction pos name body) where
  growing := hgrow.moduleFunction
  judged g hc hs := by
    rw [moduleFunction_eq, bind_apply]
    show Judged B _ _ ((if g.importing.contains name then _ else _ : Gen Ref) g)
    rw [hs.importing]
    by_cases hbusy : name ∈ B.busy
    · rw [if_pos (by simpa using hbusy)]
      exact .refuse rfl hc fun R hR hname => ((hR name hname).valid hget).1 hbusy
    · rw [if_neg (by simpa using hbusy), bind_apply, show (MonadState.get : Gen Generator) g = .ok g g from rfl]
      dsimp only
      cases hcached : g.modules.get? name with
      | none => exact (Asks.buildModule hne hget (hb hbusy)).judged g hc hs
      | some routine => exact .accept rfl hc (hs.known name routine hcached) ⟨trivial, .refl g⟩

end

end

end Generator

end Scripting
