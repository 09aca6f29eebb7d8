import Scripting.Proofs.Image.Tree
/-!
# `Proofs.Image.RoundTrip` — a program survives its binary form

Storing a program takes two steps, constants to literals and literals to bytes, and loading undoes both.
`Value.literalTo` fails exactly at what has no literal (`Value.Unstorable`), and `Literal.load` builds a
constant of the same shape anew, in whichever heap it is given (`load_same`). Objects that are shared are
stored as often as they are reached, so what comes back is compared by content and not by reference
(`SameTree`).
-/

namespace Scripting

open Value List Int64 Dict

/-! ## One action on every item of a list -/

section MapM

variable {α β ε : Type} {f : α → Except ε β}

theorem bind_eq_ok {x : Except ε α} {k : α → Except ε β} (h : (x >>= k) = .ok b) : ∃ a, x = .ok a ∧ k a = .ok b := by
  cases x with
  | error e => cases h
  | ok a => exact ⟨a, rfl, h⟩

theorem bind_eq_error {x : Except ε α} {k : α → Except ε β} (h : (x >>= k) = .error e) :
    x = .error e ∨ ∃ a, x = .ok a ∧ k a = .error e := by
  cases x with
  | error e' => cases h; exact .inl rfl
  | ok a => exact .inr ⟨a, rfl, h⟩

theorem forall₂_of_mapM (hm : xs.mapM f = .ok ys) : Forall₂ (fun x y => f x = .ok y) xs ys := by
  induction xs generalizing ys with
  | nil =>
    cases hm
    exact .nil
  | cons x xs ih =>
    rw [mapM_cons] at hm
    obtain ⟨y, hx, hm⟩ := bind_eq_ok hm
    obtain ⟨ys', hxs, hm⟩ := bind_eq_ok hm
    cases hm
    exact .cons hx (ih hxs)

theorem exists_of_mapM_error {xs : List α} (hm : xs.mapM f = .error e) : ∃ x ∈ xs, f x = .error e := by
  induction xs with
  | nil => cases hm
  | cons x xs ih =>
    rw [mapM_cons] at hm
    rcases bind_eq_error hm with hx | ⟨y, _, hm⟩
    · exact ⟨x, mem_cons_self, hx⟩
    · rcases bind_eq_error hm with hxs | ⟨ys, _, hm⟩
      · obtain ⟨x', hmem, hx'⟩ := ih hxs
        exact ⟨x', mem_cons_of_mem x hmem, hx'⟩
      · cases hm

theorem mapM_ok_of_forall {xs : List α} (hall : ∀ x ∈ xs, ∃ y, f x = .ok y) : ∃ ys, xs.mapM f = .ok ys := by
  cases hm : xs.mapM f with
  | ok ys => exact ⟨ys, rfl⟩
  | error e =>
    obtain ⟨x, hx, herror⟩ := exists_of_mapM_error hm
    obtain ⟨y, hok⟩ := hall x hx
    rw [herror] at hok
    cases hok

theorem exists_ok_of_forall₂ (hs : Forall₂ (fun x y => f x = .ok y) xs ys) (hx : x ∈ xs) : ∃ y, f x = .ok y := by
  induction hs with
  | nil => cases hx
  | @cons x' y _ _ hhead _ ih =>
    rcases mem_cons.mp hx with rfl | hx
    · exact ⟨y, hhead⟩
    · exact ih hx

end MapM

/-! ## Storing -/

namespace Value

/-- Values that have no literal: those that exist only while a program runs, and instants whose count of
nanoseconds does not fit in 64 bits. -/
def Unstorable : Value → Prop
  | .closure _ | .host _ | .iterator _ => True
  | .time t => t.nanos < -9223372036854775808 ∨ 9223372036854775808 ≤ t.nanos
  | _ => False

theorem toInt_ofInt_eq_iff : (ofInt n).toInt = n ↔ ¬(n < -9223372036854775808 ∨ 9223372036854775808 ≤ n) := by
  have hlow := (ofInt n).le_toInt
  have hhigh := (ofInt n).toInt_lt
  constructor
  · intro heq
    omega
  · intro hfits
    exact toInt_ofInt_of_le (by omega) (by omega)

theorem literalTo_array (h : Heap) (depth : Nat) (kind : Mutability) (r : Ref) :
    literalTo h (depth + 1) (.array kind r) =
      (h.arrayAt r).toList.mapM (literalTo h depth) >>= fun ls => .ok (.array kind ls) := rfl

theorem literalTo_map (h : Heap) (depth : Nat) (kind : Mutability) (r : Ref) : literalTo h (depth + 1) (.map kind r) =
      (h.mapAt r).values.mapM (literalTo h depth) >>= fun ls => .ok (.map kind ((h.mapAt r).keys.zip ls)) := rfl

theorem literalTo_error (h : Heap) (depth : Nat) (r : Ref) :
    literalTo h (depth + 1) (.error r) = literalTo h depth (h.errorAt r) >>= fun l => .ok (.error l) := rfl

theorem literalTo_time : literalTo h (depth + 1) (.time t) =
      if (ofInt t.nanos).toInt = t.nanos then .ok (.time (ofInt t.nanos))
      else .error (.unsupported "time") := rfl

variable {h : Heap} {v w : Value} {l : Literal} {depth : Nat}

theorem literal_of_array (hl : literalTo h (depth + 1) (.array kind r) = .ok l) : ∃ ls, l = .array kind ls ∧
      Forall₂ (fun x y => literalTo h depth x = .ok y) (h.arrayAt r).toList ls := by
  rw [literalTo_array] at hl
  obtain ⟨ls, hm, hl⟩ := bind_eq_ok hl
  cases hl
  exact ⟨ls, rfl, forall₂_of_mapM hm⟩

theorem literal_of_map (hl : literalTo h (depth + 1) (.map kind r) = .ok l) :
    ∃ ls, l = .map kind ((h.mapAt r).keys.zip ls) ∧
      Forall₂ (fun x y => literalTo h depth x = .ok y) (h.mapAt r).values ls := by
  rw [literalTo_map] at hl
  obtain ⟨ls, hm, hl⟩ := bind_eq_ok hl
  cases hl
  exact ⟨ls, rfl, forall₂_of_mapM hm⟩

theorem literal_of_error (hl : literalTo h (depth + 1) (.error r) = .ok l) :
    ∃ l', l = .error l' ∧ literalTo h depth (h.errorAt r) = .ok l' := by
  rw [literalTo_error] at hl
  obtain ⟨l', hm, hl⟩ := bind_eq_ok hl
  cases hl
  exact ⟨l', rfl, hm⟩

theorem literal_of_time (hl : literalTo h (depth + 1) (.time t) = .ok l) :
    l = .time (ofInt t.nanos) ∧ (ofInt t.nanos).toInt = t.nanos := by
  rw [literalTo_time] at hl
  by_cases ht : (ofInt t.nanos).toInt = t.nanos
  · rw [if_pos ht] at hl
    cases hl
    exact ⟨rfl, ht⟩
  · rw [if_neg ht] at hl
    cases hl

/-- What is in a stored value was stored too. -/
theorem literalTo_part (hl : literalTo h (depth + 1) v = .ok l) (hw : v.Holds h w) :
    ∃ l', literalTo h depth w = .ok l' := by
  cases hw with
  | item mem =>
    obtain ⟨ls, _, hitems⟩ := literal_of_array hl
    exact exists_ok_of_forall₂ hitems (by simpa using mem)
  | value mem =>
    obtain ⟨ls, _, hvalues⟩ := literal_of_map hl
    exact exists_ok_of_forall₂ hvalues mem
  | payload =>
    obtain ⟨l', _, hpayload⟩ := literal_of_error hl
    exact ⟨l', hpayload⟩

theorem not_unstorable_of_literalTo (hl : literalTo h depth v = .ok l) : ¬v.Unstorable := by
  cases depth with
  | zero => cases hl
  | succ depth =>
    cases v with
    | closure r => cases hl
    | host r => cases hl
    | iterator r => cases hl
    | time t => exact toInt_ofInt_eq_iff.mp (literal_of_time hl).2
    | _ => exact id

/-- Nothing in a stored value lacks a literal. -/
theorem storable_of_literalTo (hl : literalTo h depth v = .ok l) (hw : v.Contains h w) : ¬w.Unstorable := by
  induction depth generalizing v l with
  | zero => cases hl
  | succ depth ih =>
    rcases Relation.ReflTransGen.cases_head hw with rfl | ⟨u, hu, hw⟩
    · exact not_unstorable_of_literalTo hl
    · obtain ⟨l', hl'⟩ := literalTo_part hl hu
      exact ih hl' hw

/-- A value without anything unstorable in it has a literal, if it is not too deep. -/
theorem literalTo_of_storable (hd : v.WithinDepth h depth) (hs : ∀ w, v.Contains h w → ¬w.Unstorable) :
    ∃ l, literalTo h depth v = .ok l := by
  induction depth generalizing v with
  | zero => exact hd.elim
  | succ depth ih =>
    have hpart (w : Value) (hw : v.Holds h w) : ∃ l, literalTo h depth w = .ok l :=
      ih (hd w hw) fun u hu => hs u (Relation.ReflTransGen.head hw hu)
    have hself : ¬v.Unstorable := hs v .refl
    cases v with
    | array kind r =>
      obtain ⟨ls, hls⟩ : ∃ ls, (h.arrayAt r).toList.mapM (literalTo h depth) = .ok ls :=
        mapM_ok_of_forall fun x hx => hpart x (.item (by simpa using hx))
      exact ⟨.array kind ls, by rw [literalTo_array, hls]; rfl⟩
    | map kind r =>
      obtain ⟨ls, hls⟩ : ∃ ls, (h.mapAt r).values.mapM (literalTo h depth) = .ok ls :=
        mapM_ok_of_forall fun x hx => hpart x (.value hx)
      exact ⟨.map kind ((h.mapAt r).keys.zip ls), by rw [literalTo_map, hls]; rfl⟩
    | error r =>
      obtain ⟨l, hl⟩ := hpart (h.errorAt r) .payload
      exact ⟨.error l, by rw [literalTo_error, hl]; rfl⟩
    | time t => exact ⟨_, if_pos (toInt_ofInt_eq_iff.mpr hself)⟩
    | closure r => exact absurd trivial hself
    | host r => exact absurd trivial hself
    | iterator r => exact absurd trivial hself
    | _ => exact ⟨_, rfl⟩

theorem unsupported_of_literalTo {e : WireError} (hl : literalTo h depth v = .error e) :
    ∃ name, e = .unsupported name := by
  induction depth generalizing v with
  | zero =>
    cases hl
    exact ⟨_, rfl⟩
  | succ depth ih =>
    cases v with
    | array kind r =>
      rw [literalTo_array] at hl
      rcases bind_eq_error hl with hm | ⟨ls, _, hl⟩
      · obtain ⟨x, _, hx⟩ := exists_of_mapM_error hm
        exact ih hx
      · cases hl
    | map kind r =>
      rw [literalTo_map] at hl
      rcases bind_eq_error hl with hm | ⟨ls, _, hl⟩
      · obtain ⟨x, _, hx⟩ := exists_of_mapM_error hm
        exact ih hx
      · cases hl
    | error r =>
      rw [literalTo_error] at hl
      rcases bind_eq_error hl with hm | ⟨l, _, hl⟩
      · exact ih hm
      · cases hl
    | time t =>
      rw [literalTo_time] at hl
      by_cases ht : (ofInt t.nanos).toInt = t.nanos
      · rw [if_pos ht] at hl; cases hl
      · rw [if_neg ht] at hl; cases hl; exact ⟨_, rfl⟩
    | closure r => cases hl; exact ⟨_, rfl⟩
    | host r => cases hl; exact ⟨_, rfl⟩
    | iterator r => cases hl; exact ⟨_, rfl⟩
    | _ => cases hl

/-! ## Sizes of literals -/

theorem literalsInWords_of_forall₂ (hs : Forall₂ R xs ls) (hall : ∀ x ∈ xs, ∀ l, R x l → l.InWords) :
    literalsInWords ls := by
  induction hs with
  | nil => trivial
  | cons hhead _ ih =>
    exact ⟨hall _ mem_cons_self _ hhead, ih fun x hx => hall x (mem_cons_of_mem _ hx)⟩

theorem entriesInWords_zip {keys : List String} (hkeys : ∀ key ∈ keys, key.utf8ByteSize < wordLimit)
    (hls : literalsInWords ls) : entriesInWords (keys.zip ls) := by
  induction keys generalizing ls with
  | nil => trivial
  | cons key keys ih =>
    cases ls with
    | nil => trivial
    | cons l ls =>
      exact ⟨hkeys key mem_cons_self, hls.1, ih (fun k hk => hkeys k (mem_cons_of_mem _ hk)) hls.2⟩

theorem name_inWords (b : Builtin) : b.name.utf8ByteSize < wordLimit := by
  cases b <;> decide

/-- The literal of a tree has the numbers and sizes of the tree. -/
theorem inWords_of_literalTo (hv : v.IsTree h) (hl : literalTo h depth v = .ok l) : l.InWords := by
  induction depth generalizing v l with
  | zero => cases hl
  | succ depth ih =>
    have hfits : v.Fits h := hv.fits
    cases v with
    | array kind r =>
      obtain ⟨ls, rfl, hitems⟩ := literal_of_array hl
      refine ⟨?_, literalsInWords_of_forall₂ hitems fun x hx l hxl => ih (hv.parts (.item (by simpa using hx))) hxl⟩
      rw [← hitems.length_eq]
      exact hfits.2
    | map kind r =>
      obtain ⟨ls, rfl, hvalues⟩ := literal_of_map hl
      refine ⟨?_, entriesInWords_zip hfits.2.2 (literalsInWords_of_forall₂ hvalues fun x hx l hxl =>
        ih (hv.parts (.value hx)) hxl)⟩
      have hlength : ((h.mapAt r).keys.zip ls).length ≤ (h.mapAt r).size := by
        rw [length_zip, Dict.keys, length_map]
        exact Nat.min_le_left _ _
      exact Nat.lt_of_le_of_lt hlength hfits.2.1
    | error r =>
      obtain ⟨l', rfl, hpayload⟩ := literal_of_error hl
      have hwords : l'.InWords := ih (hv.parts .payload) hpayload
      exact hwords
    | time t =>
      obtain ⟨rfl, _⟩ := literal_of_time hl
      trivial
    | str s => cases hl; exact hfits
    | bytes r => cases hl; exact hfits.2
    | function r => cases hl; exact hfits.2
    | builtin b => cases hl; exact name_inWords b
    | closure r => cases hl
    | host r => cases hl
    | iterator r => cases hl
    | _ => cases hl; trivial

end Value

/-! ## Loading -/

theorem Dict.entries_insert_of_not_mem {d : Dict α} (value : α) (hk : key ∉ d.keys) :
    (d.insert key value).entries = d.entries ++ [(key, value)] := by
  have hentries (es : List (String × α)) (hk : key ∉ es.map Prod.fst) :
      insertEntry key value es = es ++ [(key, value)] := by
    induction es with
    | nil => rfl
    | cons e es ih =>
      rw [map_cons, mem_cons, not_or] at hk
      show (if e.1 = key then _ else _) = _
      rw [if_neg (Ne.symm hk.1), ih hk.2]
      rfl
  exact hentries d.entries hk

theorem Dict.entries_ofList {es : List (String × α)} (hn : (es.map Prod.fst).Nodup) :
    (ofList es).entries = es := by
  have hfold (es : List (String × α)) (d : Dict α) (hn : (d.keys ++ es.map Prod.fst).Nodup) :
      (es.foldl (fun d e => d.insert e.1 e.2) d).entries = d.entries ++ es := by
    induction es generalizing d with
    | nil => exact (append_nil _).symm
    | cons e es ih =>
      have hfresh : e.1 ∉ d.keys := by
        intro hmem
        exact (nodup_append.mp hn).2.2 e.1 hmem e.1 mem_cons_self rfl
      have hentries : (d.insert e.1 e.2).entries = d.entries ++ [e] := d.entries_insert_of_not_mem e.2 hfresh
      rw [foldl_cons, ih, hentries, append_assoc]
      · rfl
      · rw [keys_insert, if_neg hfresh, append_assoc]
        exact hn
  exact hfold es .empty hn

theorem Builtin.ofName?_name : Builtin.ofName? b.name = some b := by
  cases b <;> decide +kernel

theorem Instant.ofInt64_ofInt (ht : (ofInt t.nanos).toInt = t.nanos) :
    Instant.ofInt64 (ofInt t.nanos) = t := by
  obtain ⟨nanos, inRange⟩ := t
  unfold Instant.ofInt64
  congr

theorem loadEntries_zip {keys : List String} (hlength : keys.length = ls.length)
    (hl : loadItems ls k = .ok (ws, k')) : loadEntries (keys.zip ls) k = .ok (keys.zip ws, k') := by
  induction keys generalizing ls ws k with
  | nil =>
    cases ls with
    | nil => cases hl; rfl
    | cons l ls => cases hlength
  | cons key keys ih =>
    cases ls with
    | nil => cases hlength
    | cons l ls =>
      rw [loadItems] at hl
      obtain ⟨⟨v, k1⟩, hv, hl⟩ := bind_eq_ok hl
      obtain ⟨⟨vs, k2⟩, hvs, hl⟩ := bind_eq_ok hl
      cases hl
      rw [zip_cons_cons, loadEntries, hv]
      show (loadEntries (keys.zip ls) k1 >>= _) = _
      rw [ih (Nat.succ.inj hlength) hvs]
      rfl

/-- The value of a literal: a value `w` in a heap `k'` with the objects of `k`, and the same as `v` in `h`
however the heap grows later. -/
def Loads (h : Heap) (v : Value) (l : Literal) (k : Heap) : Prop :=
  ∃ w k', l.load k = .ok (w, k') ∧ k.Extends k' ∧ ∀ k'', k'.Extends k'' → SameTree h k'' v w

theorem loadItems_same (hs : Forall₂ R vs ls) (hall : ∀ v l, R v l → ∀ k, Loads h v l k) (k : Heap) :
    ∃ ws k', loadItems ls k = .ok (ws, k') ∧ k.Extends k' ∧
      ∀ k'', k'.Extends k'' → Forall₂ (SameTree h k'') vs ws := by
  induction hs generalizing k with
  | nil => exact ⟨[], k, rfl, .refl k, fun _ _ => .nil⟩
  | @cons v l vs ls hhead _ ih =>
    obtain ⟨w, k1, hw, hk1, hsame⟩ := hall v l hhead k
    obtain ⟨ws, k2, hws, hk2, hrest⟩ := ih k1
    refine ⟨w :: ws, k2, ?_, hk1.trans hk2, ?_⟩
    · rw [loadItems, hw]
      show (loadItems ls k1 >>= _) = _
      rw [hws]
      rfl
    · intro k'' hk''
      exact .cons (hsame k'' (hk2.trans hk'')) (hrest k'' hk'')

theorem getD_of_push {xs ys : Array α} (d : α)
    (hxs : ∀ {j : Nat} {y}, (xs.push x)[j]? = some y → ys[j]? = some y) : ys.getD xs.size d = x := by
  rw [Array.getD_eq_getD_getElem?, hxs Array.getElem?_push_size]
  rfl

/-- **Loading the literal of a value makes the same value.** -/
theorem load_same {depth : Nat} (hl : v.literalTo h depth = .ok l) (k : Heap) : Loads h v l k := by
  -- the heap is general: the parts of a container are loaded one after the other, each into a larger heap
  induction depth generalizing v l k with
  | zero => cases hl
  | succ depth ih =>
    have hplain {v : Value} {l : Literal} (hp : v.isPlain = true) (hload : l.load k = .ok (v, k)) :
        Loads h v l k := ⟨v, k, hload, .refl k, fun _ _ => .plain hp⟩
    cases v with
    | array kind r =>
      obtain ⟨ls, rfl, hitems⟩ := literal_of_array hl
      obtain ⟨ws, k1, hws, hk1, hsame⟩ := loadItems_same hitems (fun v l hvl => ih hvl) k
      refine ⟨.array kind k1.arrays.size, (k1.newArray kind ws.toArray).2, ?_, hk1.trans (.newArray _ _ _), ?_⟩
      · rw [Literal.load, hws]
        rfl
      · intro k'' hk''
        have hat : k''.arrayAt k1.arrays.size = ws.toArray := getD_of_push _ hk''.arrays
        refine .array ?_
        rw [hat]
        exact hsame k'' ((Heap.Extends.newArray _ _ _).trans hk'')
    | map kind r =>
      obtain ⟨ls, rfl, hvalues⟩ := literal_of_map hl
      obtain ⟨ws, k1, hws, hk1, hsame⟩ := loadItems_same hvalues (fun v l hvl => ih hvl) k
      have hlength : (h.mapAt r).keys.length = ls.length := by
        rw [← hvalues.length_eq, Dict.keys, values, length_map, length_map]
      have hcount : (h.mapAt r).keys.length = ws.length := by
        rw [← (hsame k1 (.refl k1)).length_eq, Dict.keys, values, length_map, length_map]
      have hkeys : ((h.mapAt r).keys.zip ws).map Prod.fst = (h.mapAt r).keys := map_fst_zip (Nat.le_of_eq hcount)
      have hentries : (ofList ((h.mapAt r).keys.zip ws)).entries = (h.mapAt r).keys.zip ws :=
        entries_ofList (by rw [hkeys]; exact (h.mapAt r).nodup)
      refine ⟨.map kind k1.maps.size, (k1.newMap kind (ofList ((h.mapAt r).keys.zip ws))).2, ?_,
        hk1.trans (.newMap _ _ _), ?_⟩
      · rw [Literal.load, loadEntries_zip hlength hws]
        rfl
      · intro k'' hk''
        have hat : k''.mapAt k1.maps.size = ofList ((h.mapAt r).keys.zip ws) := getD_of_push _ hk''.maps
        refine .map ?_ ?_
        · rw [hat]
          show _ = map Prod.fst _
          rw [hentries, hkeys]
        · rw [hat]
          show Forall₂ _ _ (map Prod.snd _)
          rw [hentries, map_snd_zip (Nat.le_of_eq hcount.symm)]
          exact hsame k'' ((Heap.Extends.newMap _ _ _).trans hk'')
    | error r =>
      obtain ⟨l', rfl, hpayload⟩ := literal_of_error hl
      obtain ⟨w, k1, hw, hk1, hsame⟩ := ih hpayload k
      refine ⟨.error k1.errors.size, (k1.newError w).2, ?_, hk1.trans (.newError _ _), ?_⟩
      · rw [Literal.load, hw]
        rfl
      · intro k'' hk''
        have hat : k''.errorAt k1.errors.size = w := getD_of_push _ hk''.errors
        refine .error ?_
        rw [hat]
        exact hsame k'' ((Heap.Extends.newError _ _).trans hk'')
    | bytes r =>
      cases hl
      refine ⟨.bytes k.bytes.size, (k.newBytes (h.bytesAt r).toList.toArray).2, rfl, .newBytes _ _, ?_⟩
      intro k'' hk''
      have hat : k''.bytesAt k.bytes.size = (h.bytesAt r).toList.toArray := getD_of_push _ hk''.bytes
      exact .bytes (by rw [hat])
    | function r =>
      cases hl
      refine ⟨.function k.routines.size, (k.newFunction (h.routineAt r)).2, rfl, .newFunction _ _, ?_⟩
      intro k'' hk''
      have hat : k''.routineAt k.routines.size = h.routineAt r := getD_of_push _ hk''.routines
      exact .function hat.symm
    | time t =>
      obtain ⟨rfl, ht⟩ := literal_of_time hl
      refine hplain rfl ?_
      rw [Literal.load, Instant.ofInt64_ofInt ht]
    | builtin b =>
      cases hl
      refine hplain rfl ?_
      rw [Literal.load, Builtin.ofName?_name]
    | closure r => cases hl
    | host r => cases hl
    | iterator r => cases hl
    | _ => cases hl; exact hplain rfl rfl

/-! ## Programs -/

namespace Program

/-- A program that can be in memory: its constants are finite trees, what it refers to exists, and its
numbers and sizes are below `wordLimit`. -/
structure IsFinite (h : Heap) (p : Program) : Prop where
  files : p.files.InWords
  main : p.main < h.routines.size
  code : (h.routineAt p.main).InWords
  count : p.constants.size < wordLimit
  constants : ∀ v ∈ p.constants, v.IsTree h

/-- Does a constant have something in it, at any depth, that has no binary form? -/
def HoldsUnstorable (h : Heap) (p : Program) : Prop := ∃ v ∈ p.constants, ∃ w, v.Contains h w ∧ w.Unstorable

/-- **The same program**, the first in `h` and the second in `k`. -/
structure SameProgram (h : Heap) (p : Program) (k : Heap) (q : Program) : Prop where
  files : p.files = q.files
  main : h.routineAt p.main = k.routineAt q.main
  constants : Forall₂ (SameTree h k) p.constants.toList q.constants.toList

variable {h k : Heap} {p q : Program}

/-- The same program is an equal program, once both are in one heap. -/
theorem SameProgram.same (hp : p.IsFinite h) (he : h.Extends k) (hs : SameProgram h p k q) : p.same k q = true := by
  have htree (v : Value) (hv : v ∈ p.constants.toList) : v.IsTree h := hp.constants v (by simpa using hv)
  have hmain : k.routineAt p.main = k.routineAt q.main := (he.routineAt hp.main).trans hs.main
  have hsize : p.constants.size = q.constants.size := hs.constants.length_eq
  unfold Program.same
  rw [hs.files, hmain, hsize]
  simp only [beq_self_eq_true, Bool.true_and]
  refine SameTree.all_zip (fun v hv w hvw => ?_) hs.constants
  exact (hvw.extend (htree v hv) he).sameConstantTo ((htree v hv).extend he).withinDepth

/-- Storing succeeds exactly when every constant has a literal. -/
theorem encode_ok (hls : p.constants.toList.mapM (literal h) = .ok ls) :
    p.encode h = .ok (Image.encode { files := p.files, main := h.routineAt p.main, constants := ls }) := by
  unfold Program.encode Program.image
  rw [hls]
  rfl

theorem encode_error (he : p.constants.toList.mapM (literal h) = .error e) : p.encode h = .error e := by
  unfold Program.encode Program.image
  rw [he]
  rfl

theorem literals_of_storable (hp : p.IsFinite h) (hs : ¬p.HoldsUnstorable h) :
    ∃ ls, p.constants.toList.mapM (literal h) = .ok ls := by
  refine mapM_ok_of_forall fun v hv => ?_
  have hv : v ∈ p.constants := by simpa using hv
  exact literalTo_of_storable (hp.constants v hv).withinDepth fun w hw hun => hs ⟨v, hv, w, hw, hun⟩

/-- Storing fails, and with this error, exactly when something has no binary form. -/
theorem encode_unsupported_iff (hp : p.IsFinite h) :
    (∃ name, p.encode h = .error (.unsupported name)) ↔ p.HoldsUnstorable h := by
  constructor
  · rintro ⟨name, herror⟩
    by_contra hs
    obtain ⟨ls, hls⟩ := literals_of_storable hp hs
    rw [encode_ok hls] at herror
    cases herror
  · rintro ⟨v, hv, w, hw, hun⟩
    cases hm : p.constants.toList.mapM (literal h) with
    | error e =>
      obtain ⟨u, _, hu⟩ := exists_of_mapM_error hm
      obtain ⟨name, rfl⟩ := unsupported_of_literalTo hu
      exact ⟨name, encode_error hm⟩
    | ok ls =>
      obtain ⟨l, hl⟩ := exists_ok_of_forall₂ (forall₂_of_mapM hm) (x := v) (by simpa using hv)
      exact absurd hun (storable_of_literalTo hl hw)

theorem image_inWords (hp : p.IsFinite h)
    (hls : Forall₂ (fun v l => v.literal h = .ok l) p.constants.toList ls) :
    Image.InWords { files := p.files, main := h.routineAt p.main, constants := ls } where
  files := hp.files
  main := hp.code
  count := by
    rw [← hls.length_eq]
    exact hp.count
  constants l hl := by
    obtain ⟨v, hv, hvl⟩ : ∃ v ∈ p.constants.toList, v.literal h = .ok l := by
      obtain ⟨i, hi, rfl⟩ := getElem_of_mem hl
      exact ⟨_, getElem_mem (hls.length_eq ▸ hi), hls.get (hls.length_eq ▸ hi) hi⟩
    exact inWords_of_literalTo (hp.constants v (by simpa using hv)) hvl

theorem load_image {ls : List Literal}
    (hls : Forall₂ (fun v l => v.literal h = .ok l) p.constants.toList ls) (k : Heap) :
    ∃ q k', Image.load { files := p.files, main := h.routineAt p.main, constants := ls } k = .ok (q, k') ∧
      k.Extends k' ∧ SameProgram h p k' q := by
  obtain ⟨ws, k', hws, hk', hsame⟩ :=
    loadItems_same hls (fun v l hvl => load_same hvl) (k.newFunction (h.routineAt p.main)).2
  refine ⟨{ files := p.files, main := k.routines.size, constants := ws.toArray }, k', ?_,
    (Heap.Extends.newFunction _ _).trans hk', rfl, ?_, hsame k' (.refl k')⟩
  · unfold Image.load
    show (loadItems ls (k.newFunction (h.routineAt p.main)).2 >>= _) = _
    rw [hws]
    rfl
  · exact (getD_of_push _ hk'.routines).symm

theorem decode_encode {image : Image} (hi : image.InWords) (extra : List UInt8)
    (hl : image.load k = .ok (q, k')) : Program.decode (image.encode ++ extra) k = .ok (q, k') := by
  unfold Program.decode
  rw [Image.encode_reads hi extra]
  exact hl

/-- **A program survives its binary form.** Storing fails exactly when some constant has in it something
without a binary form. Otherwise what is stored can be loaded into any heap, whatever bytes follow it, and
the program that comes back is the same one. -/
theorem encode_roundTrips (hp : p.IsFinite h) :
    ((∃ name, p.encode h = .error (.unsupported name)) ↔ p.HoldsUnstorable h) ∧
      (¬p.HoldsUnstorable h → ∃ bytes, p.encode h = .ok bytes ∧
        ∀ extra k, ∃ q k', Program.decode (bytes ++ extra) k = .ok (q, k') ∧ k.Extends k' ∧
          SameProgram h p k' q ∧ (h.Extends k → p.same k' q = true)) := by
  refine ⟨encode_unsupported_iff hp, fun hs => ?_⟩
  obtain ⟨ls, hls⟩ := literals_of_storable hp hs
  refine ⟨_, encode_ok hls, fun extra k => ?_⟩
  obtain ⟨q, k', hload, hk', hsame⟩ := load_image (forall₂_of_mapM hls) k
  refine ⟨q, k', decode_encode (image_inWords hp (forall₂_of_mapM hls)) extra hload, hk', hsame, fun he => ?_⟩
  exact hsame.same hp (he.trans hk')

/-- An array that holds a frozen map, an error and a signalling NaN. -/
def nestedHeap : Heap where
  bytes := #[#[7, 255]]
  arrays := #[#[.map .frozen 0, .error 0, .float ⟨0x7ff0000000000001⟩]]
  maps := #[{ entries := [("b", .int (-3)), ("a", .bytes 0)], nodup := by decide }]
  errors := #[.str "no"]
  routines := #[{ code := #[0, 1], locals := 300, positions := .ofList [(0, ⟨5⟩)] }, { free := ["x"] }]

def nested : Program where
  files := { nextBase := 12, files := #[{ name := "main", base := 1, size := 10, lines := #[0, 4] }] }
  main := 0
  constants := #[.array .mutable 0, .function 1, .builtin .len, .time { nanos := -1 }]

theorem nested_isFinite : nested.IsFinite nestedHeap := by
  have hleaf {v : Value} (hv : v.Fits nestedHeap) (hp : v.place? nestedHeap = none) : v.IsTree nestedHeap := by
    refine .node hv fun w hw => ?_
    obtain ⟨n, hn⟩ := hw.place?
    rw [hp] at hn
    cases hn
  have hmap : (map .frozen 0).IsTree nestedHeap := by
    refine .node ⟨by decide, by decide, by decide⟩ ?_
    rintro w (_ | mem | _)
    rcases mem_cons.mp mem with rfl | mem
    · exact hleaf trivial rfl
    · obtain rfl := mem_singleton.mp mem
      exact hleaf ⟨by decide, by decide⟩ rfl
  have herror : (error 0).IsTree nestedHeap := by
    refine .node (show 0 < nestedHeap.errors.size by decide) ?_
    rintro w (_ | _ | _)
    exact hleaf (show "no".utf8ByteSize < wordLimit by decide) rfl
  have harray : (array .mutable 0).IsTree nestedHeap := by
    refine .node ⟨by decide, by decide⟩ ?_
    rintro w (mem | _ | _)
    have mem : w ∈ [Value.map .frozen 0, .error 0, .float ⟨0x7ff0000000000001⟩] := Array.mem_toList_iff.mpr mem
    rcases mem_cons.mp mem with rfl | mem
    · exact hmap
    rcases mem_cons.mp mem with rfl | mem
    · exact herror
    · obtain rfl := mem_singleton.mp mem
      exact hleaf trivial rfl
  have hfunction : (function 1).Fits nestedHeap := by
    refine ⟨by decide, ?_⟩
    constructor <;> decide
  have hfiles : nested.files.InWords := by
    refine ⟨by decide, by decide, fun f hf => ?_⟩
    obtain rfl : f = { name := "main", base := 1, size := 10, lines := #[0, 4] } :=
      mem_singleton.mp (Array.mem_toList_iff.mpr hf)
    constructor <;> decide
  refine ⟨hfiles, by decide, ?_, by decide, ?_⟩
  · constructor <;> decide
  · intro v hv
    have hv : v ∈ [array .mutable 0, .function 1, .builtin .len, .time { nanos := -1 }] :=
      Array.mem_toList_iff.mpr hv
    rcases mem_cons.mp hv with rfl | hv
    · exact harray
    rcases mem_cons.mp hv with rfl | hv
    · exact hleaf hfunction rfl
    rcases mem_cons.mp hv with rfl | hv
    · exact hleaf trivial rfl
    · obtain rfl := mem_singleton.mp hv
      exact hleaf trivial rfl

theorem nested_encode_roundTrips : nested.IsFinite nestedHeap ∧ ¬nested.HoldsUnstorable nestedHeap ∧
      ∃ bytes, nested.encode nestedHeap = .ok bytes ∧
        ∀ extra k, ∃ q k', Program.decode (bytes ++ extra) k = .ok (q, k') ∧ k.Extends k' ∧
          SameProgram nestedHeap nested k' q ∧ (nestedHeap.Extends k → nested.same k' q = true) := by
  have hok : (nested.encode nestedHeap).isOk = true := by decide +kernel
  obtain ⟨hfails, hstores⟩ := encode_roundTrips nested_isFinite
  have hs : ¬nested.HoldsUnstorable nestedHeap := by
    intro hun
    obtain ⟨name, herror⟩ := hfails.mpr hun
    rw [herror] at hok
    cases hok
  exact ⟨nested_isFinite, hs, hstores hs⟩

end Program

end Scripting
