import Scripting.Proofs.Value.Renaming
import Scripting.Value.Arithmetic
import Scripting.Value.Copy
import Scripting.Value.Equality
import Scripting.Value.Index
import Scripting.Value.Iteration
import Scripting.Value.Slice
/-!
# `Proofs.Value.Operation` — operations respect renamings

Every operation on values does the same to values that correspond: it gives results that correspond, makes
the same objects and fails with the same message. No operation looks into a function, and equality sees of
an error, a function or an iterator only which one it is.
-/

namespace Scripting

open Renaming Value List

variable {ρ : Renaming} {h k : Heap} {v w : Value}

/-! ## Lists and dictionaries -/

section

variable {α β : Type} {R : α → β → Prop} {xs : List α} {ys : List β}

theorem getElem?_rel (hx : Forall₂ R xs ys) (i : Nat) : Option.Rel R xs[i]? ys[i]? := by
  induction hx generalizing i with
  | nil => exact .none
  | cons hab _ ih =>
    cases i with
    | zero => exact .some hab
    | succ i => simpa using ih i

theorem set_rel (hx : Forall₂ R xs ys) (hab : R a b) (i : Nat) : Forall₂ R (xs.set i a) (ys.set i b) := by
  induction hx generalizing i with
  | nil => exact .nil
  | cons hxy htail ih =>
    cases i with
    | zero => exact .cons hab htail
    | succ i => exact .cons hxy (ih i)

theorem extract_rel {xs : Array α} {ys : Array β} (hx : Forall₂ R xs.toList ys.toList) (l r : Nat) :
    Forall₂ R (xs.extract l r).toList (ys.extract l r).toList := by
  simp only [Array.toList_extract, extract_eq_take_drop]
  exact forall₂_take _ (forall₂_drop _ hx)

theorem map_eq_of_rel (hfg : ∀ a b, R a b → g b = f a) (hx : Forall₂ R xs ys) : ys.map g = xs.map f := by
  induction hx with
  | nil => rfl
  | cons hab _ ih => rw [map_cons, map_cons, hfg _ _ hab, ih]

end

theorem Renamed.getD_undefined (hab : Option.Rel (Renamed ρ) a b) :
    Renamed ρ (a.getD .undefined) (b.getD .undefined) := by
  cases hab with
  | some hv => exact hv
  | none => exact .undefined

namespace RenamedDict

variable {d e : Dict Value}

theorem find? (hes : Forall₂ (RenamedEntry ρ) es es') (key : String) :
    Option.Rel (Renamed ρ) (Dict.find? key es) (Dict.find? key es') := by
  induction hes with
  | nil => exact .none
  | @cons a b _ _ hab _ ih =>
    obtain ⟨k1, v1⟩ := a
    obtain ⟨k2, v2⟩ := b
    obtain ⟨hk, hv⟩ := hab
    cases hk
    unfold Dict.find?
    split
    · exact .some hv
    · exact ih

theorem get? (hd : RenamedDict ρ d e) (key : String) : Option.Rel (Renamed ρ) (d.get? key) (e.get? key) :=
  find? hd key

theorem keys_eq (hd : RenamedDict ρ d e) : e.keys = d.keys := map_eq_of_rel (fun _ _ hab => hab.1.symm) hd

theorem values (hd : RenamedDict ρ d e) : RenamedAll ρ d.values e.values := by
  unfold Dict.values
  unfold RenamedDict at hd
  generalize d.entries = es, e.entries = es' at hd
  induction hd with
  | nil => exact .nil
  | cons hab _ ih => exact .cons hab.2 ih

theorem insertEntry (hes : Forall₂ (RenamedEntry ρ) es es') (key : String) (hv : Renamed ρ v w) :
    Forall₂ (RenamedEntry ρ) (Dict.insertEntry key v es) (Dict.insertEntry key w es') := by
  induction hes with
  | nil => exact .cons ⟨rfl, hv⟩ .nil
  | @cons a b _ _ hab htail ih =>
    obtain ⟨k1, v1⟩ := a
    obtain ⟨k2, v2⟩ := b
    obtain ⟨hk, hv'⟩ := hab
    cases hk
    unfold Dict.insertEntry
    split
    · exact .cons ⟨rfl, hv⟩ htail
    · exact .cons ⟨rfl, hv'⟩ ih

theorem insert (hd : RenamedDict ρ d e) (key : String) (hv : Renamed ρ v w) :
    RenamedDict ρ (d.insert key v) (e.insert key w) := insertEntry hd key hv

theorem erase (hd : RenamedDict ρ d e) (key : String) : RenamedDict ρ (d.erase key) (e.erase key) := by
  unfold RenamedDict Dict.erase
  unfold RenamedDict at hd
  dsimp only
  generalize d.entries = es, e.entries = es' at hd
  induction hd with
  | nil => exact .nil
  | @cons a b _ _ hab _ ih =>
    rw [filter_cons, filter_cons, hab.1]
    split
    · exact .cons hab ih
    · exact ih

theorem ofList (hes : Forall₂ (RenamedEntry ρ) es es') : RenamedDict ρ (Dict.ofList es) (Dict.ofList es') := by
  have hfold : ∀ {d e : Dict Value}, RenamedDict ρ d e →
      RenamedDict ρ (es.foldl (fun d e => d.insert e.1 e.2) d) (es'.foldl (fun d e => d.insert e.1 e.2) e) := by
    induction hes with
    | nil => exact id
    | @cons a b _ _ hab _ ih =>
      intro d e hd
      rw [foldl_cons, foldl_cons]
      exact ih (hab.1 ▸ hd.insert a.1 hab.2)
  exact hfold .nil

theorem withValues (hkeys : e.keys = d.keys) (hx : RenamedAll ρ xs ys) :
    RenamedDict ρ (d.withValues xs) (e.withValues ys) := by
  unfold RenamedDict Dict.withValues
  dsimp only
  rw [hkeys]
  generalize d.keys = ks
  induction hx generalizing ks with
  | nil => cases ks <;> exact .nil
  | cons hab _ ih =>
    cases ks with
    | nil => exact .nil
    | cons key ks => exact .cons ⟨rfl, hab⟩ (ih ks)

end RenamedDict

/-! ## Type and truth -/

theorem Snapshot.Renamed.size (hs : Snapshot.Renamed ρ n s t) : t.size = s.size := by
  cases hs with
  | items hsize _ => exact hsize.symm
  | chars cs => rfl
  | entries hsize _ => exact hsize.symm

theorem Iterator.Renamed.typeName (hi : Iterator.Renamed ρ i j) : j.typeName = i.typeName := by
  obtain ⟨s, p⟩ := i
  obtain ⟨t, q⟩ := j
  obtain ⟨hs, -⟩ := hi
  cases hs <;> rfl

theorem Renaming.Joins.array_size (hj : ρ.Joins h k) (hr : ρ.refs .arrays r s) :
    (k.arrayAt s).size = (h.arrayAt r).size := by
  simpa using (hj.array hr).length_eq.symm

namespace Renamed

theorem typeName (hj : ρ.Joins h k) (hv : Renamed ρ v w) : w.typeName k = v.typeName h := by
  cases hv with
  | host r => exact congrArg ("user-function:" ++ ·) (hj.hostAt r)
  | iterator hr _ => exact (hj.iterator hr).typeName
  | @array kind _ _ _ _ => cases kind <;> rfl
  | @map kind _ _ _ _ => cases kind <;> rfl
  | _ => rfl

theorem isFalsy (hj : ρ.Joins h k) (hv : Renamed ρ v w) : w.isFalsy k = v.isFalsy h := by
  cases hv with
  | bytes hr => simp only [isFalsy, hj.bytes hr]
  | array hr _ => simp only [isFalsy, Array.isEmpty, hj.array_size hr]
  | @map _ r s hr _ =>
    have hlen := (hj.map hr).length_eq
    simp only [isFalsy, Dict.isEmpty]
    cases he : (h.mapAt r).entries <;> cases he' : (k.mapAt s).entries <;> simp_all
  | _ => rfl

theorem isContainer (hv : Renamed ρ v w) : w.isContainer = v.isContainer := by
  cases hv <;> rfl

/-! ## Equality -/

theorem beq_of_iff {a b a' b' : Nat} (h : a = b ↔ a' = b') : (a' == b') = (a == b) := by
  rw [Bool.eq_iff_iff, beq_iff_eq, beq_iff_eq, h]

theorem atomEq {a a' b b' : Value} (hj : ρ.Joins h k) (ha : Renamed ρ a a') (hb : Renamed ρ b b') :
    a'.atomEq k b' = a.atomEq h b := by
  cases ha with
  | bytes hr =>
    cases hb with
    | bytes hs => simp only [Value.atomEq, hj.bytes hr, hj.bytes hs]
    | _ => rfl
  | error hr =>
    cases hb with
    | error hs => exact beq_of_iff (hj.unique (t := .errors) nofun hr hs)
    | _ => rfl
  | function hr =>
    cases hb with
    | function hs => exact beq_of_iff (hj.unique_body hr hs)
    | _ => rfl
  | closure hr =>
    cases hb with
    | closure hs => exact beq_of_iff (hj.unique (t := .closures) nofun hr hs)
    | _ => rfl
  | iterator hr _ =>
    cases hb with
    | iterator hs _ => exact beq_of_iff (hj.unique (t := .iterators) nofun hr hs)
    | _ => rfl
  | _ => cases hb <;> rfl

theorem sameContainer {a a' b b' : Value} (hj : ρ.Joins h k) (ha : Renamed ρ a a') (hb : Renamed ρ b b') :
    a'.sameContainer b' = a.sameContainer b := by
  cases ha with
  | array hr _ =>
    cases hb with
    | array hs _ => exact congrArg (_ && ·) (beq_of_iff (hj.unique (t := .arrays) nofun hr hs))
    | _ => rfl
  | map hr _ =>
    cases hb with
    | map hs _ => exact congrArg (_ && ·) (beq_of_iff (hj.unique (t := .maps) nofun hr hs))
    | _ => rfl
  | _ => cases hb <;> rfl

theorem all_zip {f g : Value → Value → Bool}
    (hfg : ∀ {a a' b b'}, Renamed ρ a a' → Renamed ρ b b' → g a' b' = f a b) (hx : RenamedAll ρ xs xs')
    (hy : RenamedAll ρ ys ys') :
    ((xs'.zip ys').all fun p => g p.1 p.2) = ((xs.zip ys).all fun p => f p.1 p.2) := by
  induction hx generalizing ys ys' with
  | nil => rfl
  | cons hab _ ih =>
    cases hy with
    | nil => rfl
    | cons hcd htail => simp only [zip_cons_cons, all_cons, hfg hab hcd, ih htail]

theorem all_entries {f g : Value → Value → Bool}
    (hfg : ∀ {a a' b b'}, Renamed ρ a a' → Renamed ρ b b' → g a' b' = f a b)
    (hes : Forall₂ (RenamedEntry ρ) es es') (hd : RenamedDict ρ d e) :
    (es'.all fun p => (e.get? p.1).any fun y => g p.2 y) = (es.all fun p => (d.get? p.1).any fun y => f p.2 y) := by
  induction hes with
  | nil => rfl
  | @cons a b _ _ hab _ ih =>
    have hany : ((e.get? b.1).any fun y => g b.2 y) = ((d.get? a.1).any fun y => f a.2 y) := by
      have hget := RenamedDict.get? hd a.1
      rw [← hab.1]
      generalize d.get? a.1 = o, e.get? a.1 = o' at hget ⊢
      cases hget with
      | none => rfl
      | some hv => exact hfg hab.2 hv
    simp only [all_cons, hany, ih]

theorem equalsTo (hj : ρ.Joins h k) : ∀ (depth : Nat) {a a' b b' : Value},
    Renamed ρ a a' → Renamed ρ b b' → a'.equalsTo k depth b' = a.equalsTo h depth b := by
  intro depth
  induction depth with
  | zero =>
    intro a a' b b' ha hb
    simp only [Value.equalsTo, ha.isContainer, sameContainer hj ha hb, atomEq hj ha hb]
  | succ depth ih =>
    intro a a' b b' ha hb
    have hatom := atomEq hj ha hb
    cases ha with
    | array hr _ =>
      cases hb with
      | array hs _ =>
        have hx := hj.array hr
        have hy := hj.array hs
        have hall := all_zip (f := Value.equalsTo h depth) (g := Value.equalsTo k depth) ih hx hy
        simp only [Value.equalsTo]
        rw [← hx.length_eq, ← hy.length_eq]
        exact congrArg (_ && ·) hall
      | _ => exact hatom
    | map hr _ =>
      cases hb with
      | map hs _ =>
        have hx := hj.map hr
        have hy := hj.map hs
        have hall := all_entries (f := Value.equalsTo h depth) (g := Value.equalsTo k depth) ih hx hy
        simp only [Value.equalsTo, Dict.size]
        rw [← hx.length_eq, ← hy.length_eq]
        exact congrArg (_ && ·) hall
      | _ => exact hatom
    | _ => cases hb <;> exact hatom

/-- **Equality does not tell corresponding values apart.** -/
theorem equals (hj : ρ.Joins h k) (ha : Renamed ρ a a') (hb : Renamed ρ b b') :
    a'.equals k b' = a.equals h b := equalsTo hj _ ha hb

end Renamed

/-! ## Reading and writing parts -/

/-- Both give results in `R`, or both fail in the same way. -/
inductive AnswersIn {ε α β : Type} (R : α → β → Prop) : Except ε α → Except ε β → Prop
  | ok {a b} (h : R a b) : AnswersIn R (.ok a) (.ok b)
  | error (e : ε) : AnswersIn R (.error e) (.error e)

theorem indexGet_renamed (hj : ρ.Joins h k) (hv : Renamed ρ v w) (hk : Renamed ρ key key') :
    AnswersIn (Renamed ρ) (v.indexGet h key) (w.indexGet k key') := by
  cases hv with
  | array hr _ =>
    cases hk with
    | int i =>
      refine .ok ?_
      cases indexOf? i with
      | none => exact .undefined
      | some n =>
        have := getElem?_rel (hj.array hr) n
        simp only [Array.getElem?_toList] at this
        exact Renamed.getD_undefined this
    | _ => exact .error _
  | map hr _ =>
    cases hk with
    | str s => exact .ok (Renamed.getD_undefined (RenamedDict.get? (hj.map hr) s))
    | _ => exact .error _
  | str s =>
    cases hk with
    | int i =>
      refine .ok ?_
      cases (indexOf? i).bind (s.toList[·]?) with
      | none => exact .undefined
      | some c => exact .char c
    | _ => exact .error _
  | @bytes r _ hr =>
    cases hk with
    | int i =>
      simp only [indexGet, hj.bytes hr]
      refine .ok ?_
      cases (indexOf? i).bind ((h.bytesAt r)[·]?) with
      | none => exact .undefined
      | some c => exact .int _
    | _ => exact .error _
  | error hr =>
    cases hk with
    | str s =>
      simp only [indexGet]
      split
      · exact .ok (hj.error hr)
      · exact .error _
    | _ => exact .error _
  | _ => exact .error _

theorem indexSet_renamed (hv : Renamed ρ v w) (hk : Renamed ρ key key') (hx : Renamed ρ x y) :
    ρ.Acts Eq (v.indexSet key x) (w.indexSet key' y) := by
  intro h k hj
  cases hv with
  | @array kind r s hr hf =>
    cases kind with
    | frozen => exact .error hj
    | mutable =>
      cases hk with
      | int i =>
        simp only [indexSet, hj.array_size hr]
        cases indexOf? i with
        | none => exact .error hj
        | some n =>
          dsimp only
          split
          · refine .ok rfl (hj.modifyArray hr (hf rfl) fun hxs => ?_)
            simp only [Array.toList_setIfInBounds]
            exact set_rel hxs hx n
          · exact .error hj
      | _ => exact .error hj
  | @map kind r s hr hf =>
    cases kind with
    | frozen => exact .error hj
    | mutable =>
      cases hk with
      | str key => exact .ok rfl (hj.modifyMap hr (hf rfl) fun hd => RenamedDict.insert hd key hx)
      | _ => exact .error hj
  | _ => exact .error hj

/-! ## Operators -/

/-- Results that correspond to themselves under every renaming: they are no references. -/
def YieldsAtom (ρ : Renaming) (x : Except ValueError Value) : Prop := ∀ c, x = .ok c → Renamed ρ c c

namespace YieldsAtom

theorem ok {c : Value} (hc : Renamed ρ c c) : YieldsAtom ρ (.ok c) := by
  rintro _ ⟨⟩
  exact hc

theorem error (e : ValueError) : YieldsAtom ρ (.error e) := by
  rintro _ ⟨⟩

theorem compareInt (op : Operator) (a b : Int) : YieldsAtom ρ (compareInt op a b) := by
  unfold Value.compareInt
  split
  · exact ok (.bool _)
  · exact error _

theorem intBinary (op : Operator) (a b : Int64) : YieldsAtom ρ (intBinary op a b) := by
  unfold Value.intBinary
  split
  case h_4 | h_5 =>
    split
    · exact error _
    · exact ok (.int _)
  case h_12 => exact compareInt _ _ _
  all_goals exact ok (.int _)

theorem floatBinary (op : Operator) (x y : Flonum) : YieldsAtom ρ (floatBinary op x y) := by
  unfold Value.floatBinary
  split <;> first | exact ok (.float _) | exact ok (.bool _) | exact error _

theorem charOfSum (n : Int) : YieldsAtom ρ (charOfSum n) := by
  unfold Value.charOfSum
  split
  · exact error _
  · split
    · exact ok (.char _)
    · exact error _

theorem charBinary (op : Operator) (a b : Int) : YieldsAtom ρ (charBinary op a b) := by
  unfold Value.charBinary
  split
  · exact charOfSum _
  · exact charOfSum _
  · exact compareInt _ _ _

theorem joinText (a b : String) : YieldsAtom ρ (joinText a b) := by
  unfold Value.joinText
  split
  · exact error _
  · exact ok (.str _)

theorem textBinary (op : Operator) (a b : String) : YieldsAtom ρ (textBinary op a b) := by
  unfold Value.textBinary
  split
  · exact joinText _ _
  · exact ok (.bool _)
  · exact error _

theorem moveTime (t : Instant) (n : Int64) : YieldsAtom ρ (moveTime t n) := by
  unfold Value.moveTime
  split
  · exact ok (.time _)
  · exact error _

theorem timeIntBinary (op : Operator) (t : Instant) (n : Int64) : YieldsAtom ρ (timeIntBinary op t n) := by
  unfold Value.timeIntBinary
  split
  · exact moveTime _ _
  · exact moveTime _ _
  · exact error _

theorem timeBinary (op : Operator) (t u : Instant) : YieldsAtom ρ (timeBinary op t u) := by
  unfold Value.timeBinary
  split
  · split
    · exact ok (.int _)
    · exact error _
  · exact compareInt _ _ _

theorem plainBinary (op : Operator) (a b : Value) : YieldsAtom ρ (plainBinary op a b) := by
  unfold Value.plainBinary
  split
  · exact intBinary _ _ _
  · exact floatBinary _ _ _
  · exact charBinary _ _ _
  · exact floatBinary _ _ _
  · exact floatBinary _ _ _
  · exact charBinary _ _ _
  · exact charBinary _ _ _
  · exact textBinary _ _ _
  · split
    · exact joinText _ _
    · exact error _
  · exact timeIntBinary _ _ _
  · exact timeBinary _ _ _
  · exact error _

theorem acts (hx : YieldsAtom ρ x) : ρ.Acts (Renamed ρ) (Action.ofExcept x) (Action.ofExcept x) := by
  intro h k hj
  cases x with
  | ok c => exact .ok (hx c rfl) hj
  | error e => exact .error hj

end YieldsAtom

/-- Operators on values without the heap see of a reference only its kind. -/
theorem plainBinary_renamed (ha : Renamed ρ a a') (hb : Renamed ρ b b') :
    plainBinary op a' b' = plainBinary op a b := by
  cases ha <;> cases hb <;> rfl

/-- Two byte buffers or two arrays, which addition joins in the heap. -/
def Value.joinable : Value → Value → Bool
  | .bytes _, .bytes _ | .array _ _, .array _ _ => true
  | _, _ => false

theorem binary_plain (hab : a.joinable b = false) : a.binary op b = Action.ofExcept (plainBinary op a b) := by
  funext h
  unfold binary
  split
  · cases hab
  · cases hab
  · rfl

theorem binary_of_ne_add (hop : op ≠ .arith .add) : a.binary op b = Action.ofExcept (plainBinary op a b) := by
  funext h
  unfold binary
  split
  · exact absurd rfl hop
  · exact absurd rfl hop
  · rfl

theorem joinable_renamed (ha : Renamed ρ a a') (hb : Renamed ρ b b') : a'.joinable b' = a.joinable b := by
  cases ha with
  | bytes _ | array _ _ => cases hb <;> rfl
  | _ => rfl

theorem binary_renamed (op : Operator) (ha : Renamed ρ a a') (hb : Renamed ρ b b') :
    ρ.Acts (Renamed ρ) (a.binary op b) (a'.binary op b') := by
  have hplain : ρ.Acts (Renamed ρ) (Action.ofExcept (plainBinary op a b))
      (Action.ofExcept (plainBinary op a' b')) := by
    rw [plainBinary_renamed ha hb]
    exact (YieldsAtom.plainBinary op a b).acts
  by_cases hop : op = .arith .add
  · subst hop
    cases hab : a.joinable b with
    | false =>
      rw [binary_plain hab, binary_plain ((joinable_renamed ha hb).trans hab)]
      exact hplain
    | true =>
      intro h k hj
      cases ha with
      | bytes hr =>
        cases hb with
        | bytes hs =>
          simp only [binary, hj.bytes hr, hj.bytes hs]
          split
          · exact .error hj
          · exact Acts.newBytes _ hj
        | _ => cases hab
      | array hr _ =>
        cases hb with
        | array hs _ =>
          refine Acts.newArray ?_ hj
          simp only [Array.toList_append]
          exact rel_append (hj.array hr) (hj.array hs)
        | _ => cases hab
      | _ => cases hab
  · rw [binary_of_ne_add hop, binary_of_ne_add hop]
    exact hplain

/-! ## Slices -/

theorem sliceBound_renamed (hj : ρ.Joins h k) (hv : Renamed ρ v w) : w.sliceBound k = v.sliceBound h := by
  have htype := Renamed.typeName hj hv
  cases hv with
  | undefined => rfl
  | int n => rfl
  | _ => exact congrArg (fun t => Except.error (SliceError.boundType t)) htype

/-- Sequences with elements that correspond. -/
inductive Value.Sequence.Renamed (ρ : Renaming) : Sequence → Sequence → Prop
  | items {xs ys} (h : RenamedAll ρ xs.toList ys.toList) : Renamed ρ (.items xs) (.items ys)
  | chars (cs : Array Char) : Renamed ρ (.chars cs) (.chars cs)
  | bytes (bs : Array UInt8) : Renamed ρ (.bytes bs) (.bytes bs)

theorem sequence?_renamed (hj : ρ.Joins h k) (hv : Renamed ρ v w) :
    Option.Rel (Sequence.Renamed ρ) (v.sequence? h) (w.sequence? k) := by
  cases hv with
  | array hr _ => exact .some (.items (hj.array hr))
  | str s => exact .some (.chars _)
  | bytes hr =>
    simp only [sequence?, hj.bytes hr]
    exact .some (.bytes _)
  | _ => exact .none

theorem Value.Sequence.Renamed.length (hs : Sequence.Renamed ρ s t) : t.length = s.length := by
  cases hs with
  | items hx => simpa [Sequence.length] using hx.length_eq.symm
  | chars cs => rfl
  | bytes bs => rfl

theorem Value.Sequence.Renamed.extract (hs : Sequence.Renamed ρ s t) (l r : Nat) :
    Sequence.Renamed ρ (s.extract l r) (t.extract l r) := by
  cases hs with
  | items hx => exact .items (extract_rel hx l r)
  | chars cs => exact .chars _
  | bytes bs => exact .bytes _

theorem slice_renamed (hv : Renamed ρ v w) (hl : Renamed ρ low low') (hh : Renamed ρ high high') :
    ρ.Acts (Renamed ρ) (v.slice low high) (w.slice low' high') := by
  intro h k hj
  have hseq := sequence?_renamed hj hv
  unfold slice slicePart
  rw [sliceBound_renamed hj hl, sliceBound_renamed hj hh, Renamed.typeName hj hv]
  cases low.sliceBound h with
  | error e => exact .error hj
  | ok l =>
    cases high.sliceBound h with
    | error e => exact .error hj
    | ok r =>
      generalize v.sequence? h = o, w.sequence? k = o' at hseq ⊢
      cases hseq with
      | none => exact .error hj
      | @some s t hst =>
        simp only [bind, Except.bind, pure, Except.pure, hst.length]
        cases sliceRange s.length l r with
        | error e => exact .error hj
        | ok b =>
          have hx := hst.extract b.1 b.2
          dsimp only
          generalize s.extract b.1 b.2 = x, t.extract b.1 b.2 = y at hx ⊢
          cases hx with
          | items hx => exact .ok (hj.newArray .mutable hx).1 (hj.newArray .mutable hx).2
          | chars cs => exact .ok (.str _) hj
          | bytes bs => exact .ok (hj.newBytes bs).1 (hj.newBytes bs).2

/-! ## Copies -/

theorem freeze_renamed (hv : Renamed ρ v w) : ρ.Acts (Renamed ρ) v.freeze w.freeze := by
  have hself : ρ.Acts (Renamed ρ) (pure v : Action Value) (pure w) := .pure hv
  cases hv with
  | @array kind r s hr _ =>
    cases kind with
    | mutable => exact Acts.make fun _ _ hj => hj.newArray .frozen (hj.array hr)
    | frozen => exact hself
  | @map kind r s hr _ =>
    cases kind with
    | mutable => exact Acts.make fun _ _ hj => hj.newMap .frozen (hj.map hr)
    | frozen => exact hself
  | _ => exact hself

theorem array_mapM (f : α → EStateM ε Heap β) (xs : Array α) :
    xs.mapM f = xs.toList.mapM f >>= fun ys => pure ys.toArray := by
  rw [Array.mapM_eq_mapM_toList, bind_pure_comp]

theorem copyTo_renamed : ∀ (depth : Nat) {v w : Value}, Renamed ρ v w →
    ρ.Acts (Renamed ρ) (v.copyTo depth) (w.copyTo depth) := by
  intro depth
  induction depth with
  | zero => exact fun hv => Acts.pure hv
  | succ depth ih =>
    intro v w hv
    have hself : ρ.Acts (Renamed ρ) (pure v : Action Value) (pure w) := .pure hv
    cases hv with
    | bytes hr =>
      refine Acts.bind (R := Eq) (Acts.read fun _ _ hj => (hj.bytes hr).symm) ?_
      rintro bs _ rfl
      exact Acts.newBytes bs
    | array hr _ =>
      refine Acts.bind (R := fun xs ys => RenamedAll ρ xs.toList ys.toList)
        (Acts.read fun _ _ hj => hj.array hr) fun xs ys hx => ?_
      rw [array_mapM, array_mapM, bind_assoc, bind_assoc]
      refine Acts.bind (Acts.mapM (fun _ _ hab => ih hab) hx) fun _ _ hy => ?_
      simp only [pure_bind]
      exact Acts.newArray hy
    | map hr _ =>
      refine Acts.bind (R := RenamedDict ρ) (Acts.read fun _ _ hj => hj.map hr) fun d e hd => ?_
      refine Acts.bind (Acts.mapM (fun _ _ hab => ih hab) (RenamedDict.values hd)) fun _ _ hy => ?_
      exact Acts.newMap (RenamedDict.withValues (RenamedDict.keys_eq hd) hy)
    | error hr =>
      refine Acts.bind (R := Renamed ρ) (Acts.read fun _ _ hj => hj.error hr) fun _ _ hp => ?_
      exact Acts.bind (ih hp) fun _ _ hq => Acts.newError hq
    | iterator hr _ =>
      refine Acts.bind (R := Iterator.Renamed ρ) (Acts.read fun _ _ hj => hj.iterator hr)
        fun _ _ hi => ?_
      exact Acts.make fun _ _ hj => hj.newIterator hi
    | _ => exact hself

theorem copy_renamed (hv : Renamed ρ v w) : ρ.Acts (Renamed ρ) v.copy w.copy := copyTo_renamed _ hv

/-! ## Iteration -/

theorem Snapshot.Renamed.items_all (hx : RenamedAll ρ xs.toList ys.toList) :
    Snapshot.Renamed ρ n (.items xs) (.items ys) :=
  .items (by simpa using hx.length_eq) (forall₂_drop n hx)

theorem Snapshot.Renamed.entries_all (hes : Forall₂ (RenamedEntry ρ) es.toList es'.toList) :
    Snapshot.Renamed ρ n (.entries es) (.entries es') :=
  .entries (by simpa using hes.length_eq) (forall₂_drop n hes)

theorem Snapshot.Renamed.mono (hn : n ≤ n') (hs : Snapshot.Renamed ρ n s t) : Snapshot.Renamed ρ n' s t := by
  obtain ⟨d, rfl⟩ := Nat.exists_eq_add_of_le hn
  cases hs with
  | items hsize hx =>
    refine .items hsize ?_
    rw [← drop_drop, ← drop_drop]
    exact forall₂_drop d hx
  | chars cs => exact .chars cs
  | entries hsize hx =>
    refine .entries hsize ?_
    rw [← drop_drop, ← drop_drop]
    exact forall₂_drop d hx

theorem Renaming.shown_succ (ρ : Renaming) : ρ.shown pos ≤ ρ.shown (pos + 1) := by
  unfold shown
  split <;> omega

theorem Renaming.shown_le (ρ : Renaming) : ρ.shown pos ≤ pos - 1 := by
  unfold shown
  split <;> omega

/-- The elements that may still be shown are those from a place on. -/
theorem getElem?_drop_rel {α β : Type} {R : α → β → Prop} {xs : Array α} {ys : Array β}
    (hx : Forall₂ R (xs.toList.drop n) (ys.toList.drop n)) (hi : n ≤ i) : Option.Rel R xs[i]? ys[i]? := by
  have hget := getElem?_rel hx (i - n)
  rw [getElem?_drop, getElem?_drop, Nat.add_sub_cancel' hi] at hget
  simpa only [Array.getElem?_toList] using hget

theorem snapshot?_renamed (n : Nat) (hj : ρ.Joins h k) (hv : Renamed ρ v w) :
    Option.Rel (Snapshot.Renamed ρ n) (v.snapshot? h) (w.snapshot? k) := by
  cases hv with
  | array hr _ => exact .some (.items_all (hj.array hr))
  | map hr _ => exact .some (.entries_all (hj.map hr))
  | str s => exact .some (.chars _)
  | _ => exact .none

theorem iterate?_renamed (hv : Renamed ρ v w) : ρ.Acts (Option.Rel (Renamed ρ)) v.iterate? w.iterate? := by
  intro h k hj
  have hs := snapshot?_renamed (ρ.shown 0) hj hv
  unfold iterate?
  generalize v.snapshot? h = o, w.snapshot? k = o' at hs ⊢
  cases hs with
  | none => exact .ok .none hj
  | @some s t hs =>
    have hst : Iterator.Renamed ρ { source := s } { source := t } := ⟨hs, rfl⟩
    exact .ok (.some (hj.newIterator hst).1) (hj.newIterator hst).2

theorem Iterator.Renamed.next (hi : Iterator.Renamed ρ i j) :
    i.next.1 = j.next.1 ∧ Iterator.Renamed ρ i.next.2 j.next.2 := by
  have hs := hi.source.size
  have hp := hi.pos
  unfold Iterator.next
  dsimp only
  rw [hs, ← hp]
  split
  · exact ⟨rfl, hi.source.mono ρ.shown_succ, rfl⟩
  · exact ⟨by rw [hp], hi⟩

theorem iterNext_renamed (hv : Renamed ρ v w) : ρ.Acts Eq v.iterNext w.iterNext := by
  intro h k hj
  cases hv with
  | iterator hr hf =>
    have hn := (hj.iterator hr).next
    exact .ok hn.1 (hj.setIterator hr hf hn.2)
  | _ => exact .error hj

theorem Iterator.Renamed.key {i j : Iterator} (hi : Iterator.Renamed ρ i j) : Scripting.Renamed ρ i.key j.key := by
  obtain ⟨s, p⟩ := i
  obtain ⟨t, q⟩ := j
  obtain ⟨hs, hp⟩ := hi
  cases hp
  cases hs with
  | items _ _ => exact .int _
  | chars _ => exact .int _
  | @entries es es' _ hes =>
    unfold Iterator.key
    dsimp only
    split
    · exact .undefined
    · have hget := getElem?_drop_rel hes ρ.shown_le
      generalize es[p - 1]? = o, es'[p - 1]? = o' at hget ⊢
      cases hget with
      | none => exact .undefined
      | @some a b hab =>
        simp only [Option.elim, hab.1]
        exact .str _

theorem Iterator.Renamed.value {i j : Iterator} (hi : Iterator.Renamed ρ i j) :
    Scripting.Renamed ρ i.value j.value := by
  obtain ⟨s, p⟩ := i
  obtain ⟨t, q⟩ := j
  obtain ⟨hs, hp⟩ := hi
  cases hp
  unfold Iterator.value
  dsimp only
  split
  · exact .undefined
  · cases hs with
    | items _ hx => exact Renamed.getD_undefined (getElem?_drop_rel hx ρ.shown_le)
    | chars cs =>
      dsimp only
      cases cs[p - 1]? with
      | none => exact .undefined
      | some c => exact .char c
    | @entries es es' _ hes =>
      have hget := getElem?_drop_rel hes ρ.shown_le
      dsimp only
      generalize es[p - 1]? = o, es'[p - 1]? = o' at hget ⊢
      cases hget with
      | none => exact .undefined
      | some hab => exact hab.2

theorem iterKey_renamed (hj : ρ.Joins h k) (hv : Renamed ρ v w) :
    AnswersIn (Renamed ρ) (v.iterKey h) (w.iterKey k) := by
  cases hv with
  | iterator hr _ => exact .ok (hj.iterator hr).key
  | _ => exact .error _

theorem iterValue_renamed (hj : ρ.Joins h k) (hv : Renamed ρ v w) :
    AnswersIn (Renamed ρ) (v.iterValue h) (w.iterValue k) := by
  cases hv with
  | iterator hr _ => exact .ok (hj.iterator hr).value
  | _ => exact .error _

theorem items?_renamed (hj : ρ.Joins h k) (hv : Renamed ρ v w) :
    Option.Rel (fun xs ys => RenamedAll ρ xs.toList ys.toList) (h.items? v) (k.items? w) := by
  cases hv with
  | array hr _ => exact .some (hj.array hr)
  | _ => exact .none

end Scripting
