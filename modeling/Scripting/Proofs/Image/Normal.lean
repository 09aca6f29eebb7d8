import Scripting.Proofs.Image.RoundTrip
/-!
# `Proofs.Image.Normal` — what can be read has a normal form

A reader accepts more than what is ever written: numbers with idle bytes at the end, positions in any order or
given twice, maps with a key twice, and bytes after the end. None of it survives. Whatever program is read,
it can be written, and from then on reading and writing change nothing (`Program.decode_normalizes`).

* `Wire.Yields P r` — all that the reader `r` gives satisfies `P`: numbers and sizes come out below `wordLimit`,
  so they can be written (`Image.read_yields`);
* `Value.IsStorable` — a finite tree with nothing in it that has no literal; loading builds nothing else
  (`load_storable`);
* `SameTree.literalTo_eq` — the same constant has the same literal, in whichever heap it is and however its
  objects are shared.
-/

namespace Scripting

open List Nat

/-! ## Collapsing repeated keys -/

theorem Dict.mem_insertEntry (h : e ∈ insertEntry key value es) : e = (key, value) ∨ e ∈ es := by
  induction es with
  | nil => exact .inl (mem_singleton.mp h)
  | cons e' rest ih =>
    unfold insertEntry at h
    split at h
    · next heq =>
      rcases mem_cons.mp h with h | h
      · exact .inl (heq ▸ h)
      · exact .inr (mem_cons_of_mem _ h)
    · rcases mem_cons.mp h with h | h
      · exact .inr (h ▸ mem_cons_self)
      · exact (ih h).imp_right (mem_cons_of_mem _)

theorem Dict.length_insertEntry_le (key : String) (value : α) (es : List (String × α)) :
    (insertEntry key value es).length ≤ es.length + 1 := by
  induction es with
  | nil => exact le_refl _
  | cons e rest ih =>
    unfold insertEntry
    split
    · exact le_succ _
    · exact succ_le_succ ih

theorem SourceMap.length_insertEntry_le (offset : Nat) (p : Pos) (es : List (Nat × Pos)) :
    (SourceMap.insertEntry offset p es).length ≤ es.length + 1 := by
  induction es with
  | nil => exact le_refl _
  | cons e rest ih =>
    unfold SourceMap.insertEntry
    split
    · exact le_refl _
    · split
      · exact le_succ _
      · exact succ_le_succ ih

/-- Entries that are put into a table one after the other: none comes from elsewhere, and there are no more of
them than were put in. -/
theorem entries_foldl (entries : σ → List ε) (insert : σ → ε → σ)
    (hlength : ∀ s e, (entries (insert s e)).length ≤ (entries s).length + 1)
    (hmem : ∀ s e, ∀ e' ∈ entries (insert s e), e' = e ∨ e' ∈ entries s) (es : List ε) (s : σ) :
    (entries (es.foldl insert s)).length ≤ (entries s).length + es.length ∧
      ∀ e ∈ entries (es.foldl insert s), e ∈ entries s ∨ e ∈ es := by
  induction es generalizing s with
  | nil => exact ⟨le_refl _, fun e he => .inl he⟩
  | cons e rest ih =>
    obtain ⟨hrest, hfrom⟩ := ih (insert s e)
    constructor
    · have hone := hlength s e
      rw [foldl_cons, length_cons]
      omega
    · intro e' he'
      rcases hfrom e' he' with h | h
      · rcases hmem s e e' h with rfl | h
        · exact .inr mem_cons_self
        · exact .inl h
      · exact .inr (mem_cons_of_mem _ h)

theorem Dict.ofList_from (es : List (String × α)) :
    (ofList es).entries.length ≤ es.length ∧ ∀ e ∈ (ofList es).entries, e ∈ es := by
  obtain ⟨hlength, hmem⟩ := entries_foldl entries (fun d e => d.insert e.1 e.2)
    (fun d e => length_insertEntry_le e.1 e.2 d.entries) (fun _ _ _ he => mem_insertEntry he) es empty
  exact ⟨le_trans hlength (le_of_eq (zero_add _)), fun e he => (hmem e he).resolve_left not_mem_nil⟩

theorem SourceMap.ofList_from (es : List (Nat × Pos)) :
    (SourceMap.ofList es).entries.length ≤ es.length ∧ ∀ e ∈ (SourceMap.ofList es).entries, e ∈ es := by
  obtain ⟨hlength, hmem⟩ := entries_foldl SourceMap.entries (fun m e => m.insert e.1 e.2)
    (fun m e => SourceMap.length_insertEntry_le e.1 e.2 m.entries) (fun _ _ _ he => SourceMap.mem_insertEntry he) es
    SourceMap.empty
  exact ⟨le_trans hlength (le_of_eq (zero_add _)), fun e he => (hmem e he).resolve_left not_mem_nil⟩

/-! ## What readers give -/

namespace Wire

/-- **All that the reader gives satisfies `P`.** -/
def Yields {α : Type} (P : α → Prop) (r : Reader α) : Prop := ∀ bytes a rest, r bytes = .ok (a, rest) → P a

namespace Yields

variable {α β : Type} {P : α → Prop} {Q : β → Prop} {r : Reader α}

theorem pure (h : P a) : Yields P (pure a) := by
  rintro bytes _ _ ⟨⟩
  exact h

theorem throw (e : WireError) : Yields P (throw e) := by
  rintro bytes a rest ⟨⟩

theorem bind (hr : Yields P r) (hf : ∀ a, P a → Yields Q (f a)) : Yields Q (r >>= f) := by
  intro bytes b rest h
  obtain ⟨x, hx, h⟩ := bind_eq_ok h
  exact hf x.1 (hr bytes x.1 x.2 hx) x.2 b rest h

theorem after (hf : ∀ a, Yields Q (f a)) : Yields Q (r >>= f) :=
  bind (P := fun _ => True) (fun _ _ _ _ => trivial) fun a _ => hf a

theorem imp (hr : Yields P r) (h : ∀ a, P a → P' a) : Yields P' r := fun bytes a rest hx => h a (hr bytes a rest hx)

end Yields

/-- A number of at most `left + 1` bytes, the last of them at most `last`, is below this bound. -/
theorem natIn_yields (left : Nat) : Yields (· < 128 ^ left * (last + 1)) (Reader.natIn last (left + 1)) := by
  induction left with
  | zero =>
    refine .after fun b => ?_
    dsimp only
    split
    · exact .bind (P := fun _ => False) (Yields.throw _) fun _ h => h.elim
    · split
      · exact .throw _
      · next hlast =>
        refine .pure ?_
        simp at hlast
        omega
  | succ left ih =>
    refine .after fun b => ?_
    have hpow : 128 ^ (left + 1) * (last + 1) = 128 * (128 ^ left * (last + 1)) := by
      rw [pow_succ', mul_assoc]
    have hpos : 0 < 128 ^ left * (last + 1) := Nat.mul_pos (Nat.pow_pos (by decide)) (Nat.succ_pos last)
    have hb : b.toNat < 256 := b.toNat_lt
    dsimp only
    split
    · refine ih.bind fun rest hrest => .pure ?_
      omega
    · split
      · exact .throw _
      · refine .pure ?_
        omega

theorem nat_yields : Yields (· < wordLimit) Reader.nat := (natIn_yields 9).imp fun _ h => h

theorem take_yields : Yields (·.length = n) (Reader.take n) := by
  intro bytes taken rest h
  unfold Reader.take at h
  dsimp only at h
  split at h
  · cases h
  · next hlength =>
    cases h
    have := length_take_le n bytes
    omega

theorem size_of_decode (h : Text.decode? bytes = some s) : s.utf8ByteSize = bytes.length := by
  unfold Text.decode? String.fromUTF8? at h
  split at h
  · cases h
    rfl
  · cases h

theorem text_yields : Yields (fun s => s.utf8ByteSize < wordLimit) Reader.text := by
  refine nat_yields.bind fun n hn => take_yields.bind fun bytes hbytes => ?_
  split
  · next s hs =>
    refine .pure ?_
    rw [size_of_decode hs, hbytes]
    exact hn
  · exact .throw _

theorem times_yields {item : Reader α} (h : Yields P item) :
    Yields (fun xs => xs.length = n ∧ ∀ x ∈ xs, P x) (Reader.times item n) := by
  induction n with
  | zero => exact .pure ⟨rfl, nofun⟩
  | succ n ih =>
    refine h.bind fun x hx => ih.bind fun xs hxs => .pure ⟨congrArg (· + 1) hxs.1, ?_⟩
    exact forall_mem_cons.mpr ⟨hx, hxs.2⟩

theorem seq_yields {item : Reader α} (h : Yields P item) :
    Yields (fun xs => xs.length < wordLimit ∧ ∀ x ∈ xs, P x) (Reader.seq item) :=
  nat_yields.bind fun _ hn => (times_yields h).imp fun _ hxs => ⟨hxs.1 ▸ hn, hxs.2⟩

theorem sourceFile_yields : Yields SourceFile.InWords Reader.sourceFile := by
  refine text_yields.bind fun name hname => nat_yields.bind fun base hbase => nat_yields.bind fun size hsize => ?_
  refine (seq_yields nat_yields).bind fun lines hlines => .pure ?_
  exact ⟨hname, hbase, hsize, hlines.1, by simpa using hlines.2⟩

theorem fileSet_yields : Yields FileSet.InWords Reader.fileSet := by
  refine nat_yields.bind fun nextBase hbase => (seq_yields sourceFile_yields).bind fun files hfiles => .pure ?_
  exact ⟨hbase, hfiles.1, by simpa using hfiles.2⟩

theorem position_yields : Yields (fun e => e.1 < wordLimit ∧ e.2.index < wordLimit) Reader.position := by
  refine nat_yields.bind fun offset hoffset => ?_
  refine .bind (P := fun p : Pos => p.index < wordLimit) ?_ fun p hp => .pure ⟨hoffset, hp⟩
  exact nat_yields.bind fun n hn => .pure hn

theorem routine_yields : Yields Routine.InWords Reader.routine := by
  refine (seq_yields (P := fun _ => True) fun _ _ _ _ => trivial).bind fun code hcode => ?_
  refine nat_yields.bind fun locals hlocals => nat_yields.bind fun params hparams => .after fun variadic => ?_
  refine (seq_yields text_yields).bind fun free hfree => (seq_yields position_yields).bind fun es hes => .pure ?_
  obtain ⟨hlength, hmem⟩ := SourceMap.ofList_from es
  exact ⟨hcode.1, hlocals, hparams, hfree.1, hfree.2, lt_of_le_of_lt hlength hes.1, fun e he => hes.2 e (hmem e he)⟩

theorem literalsInWords_of_forall (h : ∀ l ∈ ls, l.InWords) : literalsInWords ls := by
  induction ls with
  | nil => trivial
  | cons l ls ih =>
    obtain ⟨hl, hls⟩ := forall_mem_cons.mp h
    exact ⟨hl, ih hls⟩

theorem entriesInWords_of_forall (h : ∀ e ∈ es, e.1.utf8ByteSize < wordLimit ∧ e.2.InWords) : entriesInWords es := by
  induction es with
  | nil => trivial
  | cons e es ih =>
    obtain ⟨he, hes⟩ := forall_mem_cons.mp h
    exact ⟨he.1, he.2, ih hes⟩

theorem entry_yields (h : Yields Literal.InWords value) :
    Yields (fun e => e.1.utf8ByteSize < wordLimit ∧ e.2.InWords) (Reader.entry value) :=
  text_yields.bind fun _ hkey => h.bind fun _ hv => .pure ⟨hkey, hv⟩

theorem literalTo_yields : Yields Literal.InWords (Reader.literalTo depth) := by
  induction depth with
  | zero => exact .throw _
  | succ depth ih =>
    have hitems := seq_yields ih
    have hentries := seq_yields (entry_yields ih)
    refine .after fun variant => ?_
    split
    · exact .after fun _ => .pure trivial
    · exact .after fun _ => .pure trivial
    · exact .after fun _ => .pure trivial
    · exact .after fun _ => .pure trivial
    · exact text_yields.bind fun _ hs => .pure hs
    · exact (seq_yields (P := fun _ => True) fun _ _ _ _ => trivial).bind fun _ hs => .pure hs.1
    · exact hitems.bind fun _ hs => .pure ⟨hs.1, literalsInWords_of_forall hs.2⟩
    · exact hitems.bind fun _ hs => .pure ⟨hs.1, literalsInWords_of_forall hs.2⟩
    · exact hentries.bind fun _ hs => .pure ⟨hs.1, entriesInWords_of_forall hs.2⟩
    · exact hentries.bind fun _ hs => .pure ⟨hs.1, entriesInWords_of_forall hs.2⟩
    · exact ih.bind fun _ hl => .pure hl
    · exact .pure trivial
    · exact routine_yields.bind fun _ hr => .pure hr
    · exact text_yields.bind fun _ hs => .pure hs
    · exact .after fun _ => .pure trivial
    · exact .throw _

theorem literal_yields : Yields Literal.InWords Reader.literal :=
  fun bytes l rest h => literalTo_yields bytes l rest h

end Wire

/-- **What is read can be written.** -/
theorem Image.read_yields : Wire.Yields Image.InWords Image.read := by
  refine Wire.fileSet_yields.bind fun files hfiles => Wire.routine_yields.bind fun main hmain => ?_
  exact (Wire.seq_yields Wire.literal_yields).bind fun constants hconstants =>
    .pure ⟨hfiles, hmain, hconstants.1, hconstants.2⟩

/-! ## What loading builds -/

namespace Value

/-- A finite tree of objects that exist, with nothing in it that has no literal. -/
inductive IsStorable (h : Heap) : Value → Prop
  | node {v} (fits : v.Fits h) (storable : ¬v.Unstorable) (parts : ∀ w, v.Holds h w → IsStorable h w) : IsStorable h v

variable {h k : Heap} {v w : Value}

theorem IsStorable.isTree (hv : v.IsStorable h) : v.IsTree h := by
  induction hv with
  | node fits _ _ ih => exact .node fits ih

theorem IsStorable.contains (hv : v.IsStorable h) (hw : v.Contains h w) : w.IsStorable h := by
  induction hw with
  | refl => exact hv
  | tail _ hlast ih =>
    cases ih with
    | node _ _ parts => exact parts _ hlast

theorem IsStorable.not_unstorable (hv : v.IsStorable h) (hw : v.Contains h w) : ¬w.Unstorable := by
  cases hv.contains hw with
  | node _ storable _ => exact storable

theorem IsStorable.extend (he : h.Extends k) (hv : v.IsStorable h) : v.IsStorable k := by
  induction hv with
  | node fits storable _ ih => exact .node (fits.extend he) storable fun w hw => ih w (hw.of_extends fits he)

/-- Values without parts are storable as they are. -/
theorem IsStorable.leaf (fits : v.Fits h) (storable : ¬v.Unstorable) (hv : v.place? h = none) : v.IsStorable h := by
  refine .node fits storable fun w hw => ?_
  obtain ⟨n, hn⟩ := hw.place?
  rw [hv] at hn
  cases hn

end Value

section Load

open Value Dict Program

variable {h k : Heap} {v : Value}

theorem newArray_storable {vs : List Value} (hcount : vs.length < wordLimit) (hvs : ∀ v ∈ vs, v.IsStorable h) :
    (h.newArray kind vs.toArray).1.IsStorable (h.newArray kind vs.toArray).2 := by
  have hat : (h.newArray kind vs.toArray).2.arrayAt h.arrays.size = vs.toArray := getD_of_push _ id
  refine .node ⟨by simp [Heap.newArray], ?_⟩ id ?_
  · rw [hat]
    exact hcount
  · rintro w ⟨hmem⟩
    rw [hat] at hmem
    exact (hvs w (by simpa using hmem)).extend (.newArray h kind vs.toArray)

/-- Of entries with the same key one is left, so a map has no more than were given. -/
theorem newMap_storable (hcount : es.length < wordLimit)
    (hes : ∀ e ∈ es, e.1.utf8ByteSize < wordLimit ∧ e.2.IsStorable h) :
    (h.newMap kind (ofList es)).1.IsStorable (h.newMap kind (ofList es)).2 := by
  have hat : (h.newMap kind (ofList es)).2.mapAt h.maps.size = ofList es := getD_of_push _ id
  obtain ⟨hlength, hfrom⟩ := ofList_from es
  refine .node ⟨by simp [Heap.newMap], ?_, ?_⟩ id ?_
  · rw [hat]
    exact lt_of_le_of_lt hlength hcount
  · rw [hat]
    intro key hkey
    obtain ⟨e, he, rfl⟩ := mem_map.mp hkey
    exact (hes e (hfrom e he)).1
  · intro w hw
    cases hw with
    | value hmem =>
      rw [hat] at hmem
      obtain ⟨e, he, rfl⟩ := mem_map.mp hmem
      exact (hes e (hfrom e he)).2.extend (.newMap h kind _)

theorem newError_storable (hv : v.IsStorable h) : (h.newError v).1.IsStorable (h.newError v).2 := by
  have hat : (h.newError v).2.errorAt h.errors.size = v := getD_of_push _ id
  have hsize : h.errors.size < (h.newError v).2.errors.size := by simp [Heap.newError]
  refine .node hsize id ?_
  intro w hw
  cases hw with
  | payload =>
    rw [hat]
    exact hv.extend (.newError h v)

theorem newBytes_storable {bs : List UInt8} (hcount : bs.length < wordLimit) :
    (h.newBytes bs.toArray).1.IsStorable (h.newBytes bs.toArray).2 := by
  have hat : (h.newBytes bs.toArray).2.bytesAt h.bytes.size = bs.toArray := getD_of_push _ id
  refine .leaf ⟨by simp [Heap.newBytes], ?_⟩ id rfl
  rw [hat]
  exact hcount

theorem newFunction_storable (hf : f.InWords) :
    (Value.function (h.newFunction f).1).IsStorable (h.newFunction f).2 := by
  have hat : (h.newFunction f).2.routineAt h.routines.size = f := getD_of_push _ id
  refine .leaf ⟨by simp [Heap.newFunction], ?_⟩ id rfl
  show ((h.newFunction f).2.routineAt h.routines.size).InWords
  rw [hat]
  exact hf

theorem ofInt64_storable : ¬(Value.time (Instant.ofInt64 n)).Unstorable := by
  have hlow := n.le_toInt
  have hhigh := n.toInt_lt
  simp only [Value.Unstorable, Instant.ofInt64]
  omega

mutual

/-- **Loading builds what can be stored**, and keeps what was there before. -/
theorem load_storable (l : Literal) (hl : l.InWords) {h k : Heap} {v : Value} (hload : l.load h = .ok (v, k)) :
    h.Extends k ∧ v.IsStorable k := by
  cases l with
  | array kind items =>
    rw [Literal.load] at hload
    obtain ⟨⟨vs, h1⟩, hvs, hnew⟩ := bind_eq_ok hload
    cases hnew
    obtain ⟨he, hlength, hall⟩ := loadItems_storable items hl.2 hvs
    exact ⟨he.trans (.newArray h1 kind _), newArray_storable (hlength ▸ hl.1) hall⟩
  | map kind entries =>
    rw [Literal.load] at hload
    obtain ⟨⟨es, h1⟩, hes, hnew⟩ := bind_eq_ok hload
    cases hnew
    obtain ⟨he, hlength, hall⟩ := loadEntries_storable entries hl.2 hes
    exact ⟨he.trans (.newMap h1 kind _), newMap_storable (hlength ▸ hl.1) hall⟩
  | error payload =>
    rw [Literal.load] at hload
    obtain ⟨⟨w, h1⟩, hw, hnew⟩ := bind_eq_ok hload
    cases hnew
    obtain ⟨he, hstorable⟩ := load_storable payload hl hw
    exact ⟨he.trans (.newError _ _), newError_storable hstorable⟩
  | bytes bs =>
    cases hload
    exact ⟨.newBytes _ _, newBytes_storable hl⟩
  | function f =>
    cases hload
    exact ⟨.newFunction _ _, newFunction_storable hl⟩
  | builtin name =>
    rw [Literal.load] at hload
    split at hload <;> cases hload
    exact ⟨.refl _, .leaf trivial id rfl⟩
  | time n =>
    cases hload
    exact ⟨.refl _, .leaf trivial ofInt64_storable rfl⟩
  | str s =>
    cases hload
    exact ⟨.refl _, .leaf hl id rfl⟩
  | _ =>
    cases hload
    exact ⟨.refl _, .leaf trivial id rfl⟩

theorem loadItems_storable (ls : List Literal) (hls : literalsInWords ls) {h k : Heap} {vs : List Value}
    (hload : loadItems ls h = .ok (vs, k)) :
    h.Extends k ∧ vs.length = ls.length ∧ ∀ v ∈ vs, v.IsStorable k := by
  cases ls with
  | nil =>
    cases hload
    exact ⟨.refl _, rfl, fun _ hmem => absurd hmem not_mem_nil⟩
  | cons l ls =>
    rw [loadItems] at hload
    obtain ⟨⟨v, h1⟩, hv, hload⟩ := bind_eq_ok hload
    obtain ⟨⟨rest, h2⟩, hrest, hlast⟩ := bind_eq_ok hload
    cases hlast
    obtain ⟨he1, hstorable⟩ := load_storable l hls.1 hv
    obtain ⟨he2, hlength, hall⟩ := loadItems_storable ls hls.2 hrest
    exact ⟨he1.trans he2, congrArg (· + 1) hlength, forall_mem_cons.mpr ⟨hstorable.extend he2, hall⟩⟩

theorem loadEntries_storable (es : List (String × Literal)) (hes : entriesInWords es) {h k : Heap}
    {vs : List (String × Value)} (hload : loadEntries es h = .ok (vs, k)) :
    h.Extends k ∧ vs.length = es.length ∧ ∀ e ∈ vs, e.1.utf8ByteSize < wordLimit ∧ e.2.IsStorable k := by
  cases es with
  | nil =>
    cases hload
    exact ⟨.refl _, rfl, fun _ hmem => absurd hmem not_mem_nil⟩
  | cons e es =>
    obtain ⟨key, l⟩ := e
    rw [loadEntries] at hload
    obtain ⟨⟨v, h1⟩, hv, hload⟩ := bind_eq_ok hload
    obtain ⟨⟨rest, h2⟩, hrest, hlast⟩ := bind_eq_ok hload
    cases hlast
    obtain ⟨he1, hstorable⟩ := load_storable l hes.2.1 hv
    obtain ⟨he2, hlength, hall⟩ := loadEntries_storable es hes.2.2 hrest
    exact ⟨he1.trans he2, congrArg (· + 1) hlength, forall_mem_cons.mpr ⟨⟨hes.1, hstorable.extend he2⟩, hall⟩⟩

end

end Load

/-! ## The same literal -/

theorem mapM_eq_of_forall₂ {g : β → Except ε γ} (hs : Forall₂ (fun x y => f x = g y) xs ys) :
    xs.mapM f = ys.mapM g := by
  induction hs with
  | nil => rfl
  | cons hxy _ ih => rw [mapM_cons, mapM_cons, hxy, ih]

/-- **The same constant has the same literal**, with every bound on the nesting that is enough for it. -/
theorem SameTree.literalTo_eq {depth depth' : Nat} (hs : SameTree h k v w) (hv : v.WithinDepth h depth)
    (hw : w.WithinDepth k depth') : v.literalTo h depth = w.literalTo k depth' := by
  induction depth generalizing v w depth' with
  | zero => exact hv.elim
  | succ depth ih =>
    cases depth' with
    | zero => exact hw.elim
    | succ depth' =>
      have hparts {xs ys : List Value} (hs : Forall₂ (SameTree h k) xs ys)
          (hxs : ∀ x ∈ xs, x.WithinDepth h depth) (hys : ∀ y ∈ ys, y.WithinDepth k depth') :
          xs.mapM (Value.literalTo h depth) = ys.mapM (Value.literalTo k depth') := by
        refine mapM_eq_of_forall₂ ?_
        induction hs with
        | nil => exact .nil
        | cons hxy _ ihs =>
          obtain ⟨hx, hxs⟩ := forall_mem_cons.mp hxs
          obtain ⟨hy, hys⟩ := forall_mem_cons.mp hys
          exact .cons (ih hxy hx hy) (ihs hxs hys)
      cases hs with
      | plain hp => cases v <;> first | rfl | cases hp
      | bytes content =>
        show Except.ok _ = Except.ok _
        rw [content]
      | array items =>
        rw [Value.literalTo_array, Value.literalTo_array,
          hparts items (fun x hx => hv x (.item (by simpa using hx))) fun y hy => hw y (.item (by simpa using hy))]
      | map keys values =>
        rw [Value.literalTo_map, Value.literalTo_map, keys,
          hparts values (fun x hx => hv x (.value hx)) fun y hy => hw y (.value hy)]
      | error payload =>
        rw [Value.literalTo_error, Value.literalTo_error, ih payload (hv _ .payload) (hw _ .payload)]
      | function routine =>
        show Except.ok _ = Except.ok _
        rw [routine]

namespace Program

variable {h k : Heap} {p q : Program}

/-- What is read is a program that can be in memory, with nothing in it that has no binary form. -/
theorem finite_of_decode {bytes : List UInt8} (hd : decode bytes h = .ok (p, k)) :
    h.Extends k ∧ p.IsFinite k ∧ ¬p.HoldsUnstorable k := by
  obtain ⟨⟨image, rest⟩, hread, hload⟩ := bind_eq_ok hd
  have hwords := Image.read_yields bytes image rest hread
  obtain ⟨⟨vs, k'⟩, hvs, hlast⟩ := bind_eq_ok hload
  cases hlast
  obtain ⟨he, hlength, hall⟩ :=
    loadItems_storable image.constants (Wire.literalsInWords_of_forall hwords.constants) hvs
  have hmain : k.routines[h.routines.size]? = some image.main := he.routines (by simp)
  have hcode : k.routineAt h.routines.size = image.main := getD_of_push _ he.routines
  have hconstants (v : Value) (hv : v ∈ vs.toArray) : v.IsStorable k := hall v (by simpa using hv)
  refine ⟨(Heap.Extends.newFunction h image.main).trans he, ⟨hwords.files, ?_, ?_, ?_, ?_⟩, ?_⟩
  · exact (Array.getElem?_eq_some_iff.mp hmain).1
  · rw [hcode]
    exact hwords.main
  · exact lt_of_le_of_lt (le_of_eq hlength) hwords.count
  · exact fun v hv => (hconstants v hv).isTree
  · rintro ⟨v, hv, w, hw, hunstorable⟩
    exact (hconstants v hv).not_unstorable hw hunstorable

theorem SameProgram.encode_eq (hs : SameProgram h p k q) (hp : p.IsFinite h) (hq : q.IsFinite k) :
    p.encode h = q.encode k := by
  have hliterals : p.constants.toList.mapM (Value.literal h) = q.constants.toList.mapM (Value.literal k) := by
    refine mapM_eq_of_forall₂ (forall₂_iff_get.mpr ⟨hs.constants.length_eq, fun i hi hj => ?_⟩)
    have hv := hp.constants _ (Array.mem_toList_iff.mp (get_mem p.constants.toList ⟨i, hi⟩))
    have hw := hq.constants _ (Array.mem_toList_iff.mp (get_mem q.constants.toList ⟨i, hj⟩))
    exact (hs.constants.get hi hj).literalTo_eq hv.withinDepth hw.withinDepth
  unfold encode image
  rw [hliterals, hs.files, hs.main]

/-- **What is read has a normal form.** Every program that is read from bytes can be written. What is written
reads back, into any heap and whatever follows it, as the same program, and writing that gives the same bytes. -/
theorem decode_normalizes {bytes : List UInt8} (hd : decode bytes h = .ok (p, k)) :
    ∃ normal, p.encode k = .ok normal ∧
      ∀ extra k₁, ∃ q k₂, decode (normal ++ extra) k₁ = .ok (q, k₂) ∧ SameProgram k p k₂ q ∧
        (k.Extends k₁ → p.same k₂ q = true) ∧ q.encode k₂ = .ok normal := by
  obtain ⟨_, hfinite, hstorable⟩ := finite_of_decode hd
  obtain ⟨ls, hls⟩ := literals_of_storable hfinite hstorable
  refine ⟨_, encode_ok hls, fun extra k₁ => ?_⟩
  obtain ⟨q, k₂, hload, hk₂, hsame⟩ := load_image (forall₂_of_mapM hls) k₁
  have hagain := decode_encode (image_inWords hfinite (forall₂_of_mapM hls)) extra hload
  obtain ⟨_, hfinite', _⟩ := finite_of_decode hagain
  refine ⟨q, k₂, hagain, hsame, fun he => hsame.same hfinite (he.trans hk₂), ?_⟩
  rw [← hsame.encode_eq hfinite hfinite', encode_ok hls]

/-- A program written loosely: zero in two bytes, positions out of order and one of them twice, a map with a
key twice, and a byte after the end. -/
def looseBytes : List UInt8 :=
  [0x80, 0, 0] ++ [0, 0, 0, 0, 0, 3, 5, 1, 0, 2, 5, 3] ++ [1, 8, 2, 1, 97, 3, 0, 1, 97, 11] ++ [0xff]

theorem looseBytes_normalizes : ∃ p k, decode looseBytes {} = .ok (p, k) ∧ p.constants.size = 1 ∧
    ∃ normal, p.encode k = .ok normal ∧
      ∀ extra k₁, ∃ q k₂, decode (normal ++ extra) k₁ = .ok (q, k₂) ∧ SameProgram k p k₂ q ∧
        (k.Extends k₁ → p.same k₂ q = true) ∧ q.encode k₂ = .ok normal := by
  have hok : (decode looseBytes {}).toOption.any (fun d => d.1.constants.size = 1) := by decide +kernel
  rcases hd : decode looseBytes {} with e | ⟨p, k⟩
  · rw [hd] at hok
    cases hok
  · rw [hd] at hok
    exact ⟨p, k, rfl, of_decide_eq_true hok, decode_normalizes hd⟩

end Program

end Scripting
