import Mathlib.Algebra.Order.Group.Nat
import Mathlib.Data.List.Basic
import Scripting.Proofs.Source.Checked
/-!
# `Proofs.Source.Positions` — positions lead back to file, line and column

Every file of a set that is built from sources has a range of positions of its own. Its line table holds `0` and the
offsets after its line breaks, except one after the last byte, and bisection finds the last entry up to an offset. So a
position is resolved to its file and offset, the line is counted by the line breaks before it, and the column by the
distance from the start of that line (`location_exact`).
-/

namespace Scripting

open List Nat

/-! ## Line breaks -/

/-- The offsets after the line breaks of bytes, the first of which has the given offset. -/
def startsFrom : Nat → List UInt8 → List Nat
  | _, [] => []
  | n, b :: bytes => if b = 10 then (n + 1) :: startsFrom (n + 1) bytes else startsFrom (n + 1) bytes

variable {n j o : Nat} {bytes : List UInt8} {p : Pos}

theorem lineStarts_eq (content : String) : lineStarts content = startsFrom 0 content.toUTF8.toList := by
  have hstarts (bytes : List UInt8) (n : Nat) :
      ((bytes.zipIdx n).filter (·.1 == 10)).map (·.2 + 1) = startsFrom n bytes := by
    induction bytes generalizing n with
    | nil => rfl
    | cons b bytes ih =>
      rw [startsFrom, ← ih]
      by_cases hb : b = 10 <;> simp [hb]
  exact hstarts ..

theorem mem_startsFrom : j ∈ startsFrom n bytes ↔ n < j ∧ bytes[j - 1 - n]? = some 10 := by
  induction bytes generalizing n with
  | nil => simp [startsFrom]
  | cons b bytes ih =>
    have hsplit : j ∈ startsFrom n (b :: bytes) ↔ b = 10 ∧ j = n + 1 ∨ j ∈ startsFrom (n + 1) bytes := by
      rw [startsFrom]
      split <;> simp_all
    rw [hsplit, ih]
    rcases lt_trichotomy j (n + 1) with hj | rfl | hj
    · exact ⟨by rintro (⟨-, hj⟩ | ⟨hj, -⟩) <;> omega, fun hj => by omega⟩
    · simp
    · obtain ⟨k, rfl⟩ : ∃ k, j = n + 2 + k := ⟨j - (n + 2), by omega⟩
      rw [show n + 2 + k - 1 - n = k + 1 by omega, show n + 2 + k - 1 - (n + 1) = k by omega]
      constructor
      · rintro (⟨-, hj⟩ | ⟨-, hk⟩)
        · omega
        · exact ⟨by omega, hk⟩
      · exact fun hk => .inr ⟨by omega, hk.2⟩

theorem pairwise_startsFrom : (startsFrom n bytes).Pairwise (· < ·) := by
  induction bytes generalizing n with
  | nil => exact .nil
  | cons b bytes ih =>
    rw [startsFrom]
    split
    · exact .cons (fun j hj => (mem_startsFrom.mp hj).1) ih
    · exact ih

theorem length_startsFrom : (startsFrom n bytes).length ≤ bytes.length := by
  induction bytes generalizing n with
  | nil => exact le_refl 0
  | cons b bytes ih =>
    rw [startsFrom]
    split
    · exact succ_le_succ ih
    · exact le_succ_of_le ih

/-- The lines that start up to an offset are as many as the line breaks before it. -/
theorem countP_startsFrom (n k : Nat) (bytes : List UInt8) :
    (startsFrom n bytes).countP (· ≤ n + k) = (bytes.take k).count 10 := by
  induction bytes generalizing n k with
  | nil => simp [startsFrom]
  | cons b bytes ih =>
    cases k with
    | zero =>
      rw [take_zero, count_nil, countP_eq_zero]
      intro j hj
      have := (mem_startsFrom.mp hj).1
      simpa using this
    | succ k =>
      have hk := ih (n + 1) k
      rw [show n + 1 + k = n + (k + 1) by omega] at hk
      rw [startsFrom, take_succ_cons, count_cons, ← hk]
      by_cases hb : b = 10 <;> simp [hb]

/-! ## Line tables -/

namespace SourceFile

/-- The line table for some bytes: no line starts after the last of them. -/
def table (bytes : List UInt8) : List Nat := 0 :: (startsFrom 0 bytes).filter (· < bytes.length)

theorem pairwise_table : (table bytes).Pairwise (· < ·) := by
  refine .cons (fun j hj => ?_) (pairwise_startsFrom.filter _)
  exact (mem_startsFrom.mp (mem_of_mem_filter hj)).1

/-- The line of an offset begins at `start`: with the text, or after a line break, and there is none from there on. -/
structure IsLineStart (bytes : List UInt8) (start offset : Nat) : Prop where
  le : start ≤ offset
  begins : start = 0 ∨ bytes[start - 1]? = some 10
  unbroken : ∀ j, start ≤ j → j < offset → bytes[j]? ≠ some 10

/-- The offset whose line is shown: after a line break at the end of the text it is the one of that break. -/
def shownOffset (bytes : List UInt8) (o : Nat) : Nat :=
  if o = bytes.length ∧ bytes.getLast? = some 10 then o - 1 else o

/-- The lines up to an offset that are in the table are those up to the one that is shown. -/
theorem le_shownOffset (ho : o ≤ bytes.length) (hj : j ∈ startsFrom 0 bytes) :
    j ≤ shownOffset bytes o ↔ j ≤ o ∧ j < bytes.length := by
  obtain ⟨hpos, hbreak⟩ := mem_startsFrom.mp hj
  rw [Nat.sub_zero] at hbreak
  have hlast : j = bytes.length → bytes.getLast? = some 10 := by
    rintro rfl
    rw [getLast?_eq_getElem?, hbreak]
  unfold shownOffset
  split
  · omega
  · next hend =>
    rw [not_and] at hend
    refine ⟨fun h => ⟨h, ?_⟩, And.left⟩
    by_contra hlt
    exact hend (by omega) (hlast (by omega))

theorem countP_table (ho : o ≤ bytes.length) :
    (table bytes).countP (· ≤ o) = 1 + (bytes.take (shownOffset bytes o)).count 10 := by
  have hcount := countP_startsFrom 0 (shownOffset bytes o) bytes
  rw [table, countP_cons_of_pos (by simp), countP_filter, ← hcount, add_comm]
  refine congrArg (1 + ·) (countP_congr fun j hj => ?_)
  simp [le_shownOffset ho hj]

/-- **The line of an offset** is found, and counted by the line breaks before it. -/
theorem lineIndex_table (f : SourceFile) (hf : f.lines = (table bytes).toArray) (ho : o ≤ bytes.length) :
    ∃ start, IsLineStart bytes start (shownOffset bytes o) ∧
      f.lines.getD (f.lineIndex o) 0 = start ∧ f.lineIndex o = (bytes.take (shownOffset bytes o)).count 10 := by
  have hsize : f.lines.size = (table bytes).length := by simp [hf]
  have hget (k : Nat) (hk : k < (table bytes).length) : f.lines.getD k 0 = (table bytes)[k] := by
    rw [hf, Array.getD, dif_pos (by simpa using hk)]
    rfl
  have hmono (j k : Nat) (hk : k < (table bytes).length) (hjk : j ≤ k) : (table bytes)[j] ≤ (table bytes)[k] := by
    rcases lt_or_eq_of_le hjk with hlt | rfl
    · exact le_of_lt (pairwise_iff_getElem.mp pairwise_table j k _ hk hlt)
    · exact le_refl _
  obtain ⟨hfound, hend⟩ : (f.lineIndex o = 0 ∨ f.lineIndex o < 0 + f.lines.size ∧ f.lines.getD (f.lineIndex o) 0 ≤ o) ∧
    (0 + f.lines.size ≤ f.lineIndex o + 1 ∨ o < f.lines.getD (f.lineIndex o + 1) 0) := bisect_ends ..
  have hpos : 0 < (table bytes).length := succ_pos _
  generalize f.lineIndex o = i at *
  have hi : i < (table bytes).length := by omega
  have hle : (table bytes)[i] ≤ o := by
    rcases hfound with rfl | ⟨-, hfound⟩
    · exact zero_le o
    · exact hget i hi ▸ hfound
  have hnext (k : Nat) (hk : k < (table bytes).length) (hik : i < k) : o < (table bytes)[k] := by
    have hstep := hend.resolve_left (by omega)
    rw [hget (i + 1) (by omega)] at hstep
    exact lt_of_lt_of_le hstep (hmono (i + 1) k hk hik)
  have hcount : (table bytes).countP (· ≤ o) = i + 1 := by
    rw [← take_append_drop (i + 1) (table bytes), countP_append, countP_eq_length.mpr fun m hm => ?_,
      countP_eq_zero.mpr fun m hm => ?_, length_take, min_eq_left hi]
    · obtain ⟨k, hk, rfl⟩ := mem_drop_iff_getElem.mp hm
      have := hnext (i + 1 + k) (by omega) (by omega)
      simpa using this
    · obtain ⟨k, hk, rfl⟩ := mem_take_iff_getElem.mp hm
      have := hmono k i hi (by omega)
      exact decide_eq_true (by omega)
  have hmem : (table bytes)[i] = 0 ∨ (table bytes)[i] ∈ startsFrom 0 bytes ∧ (table bytes)[i] < bytes.length :=
    (mem_cons.mp (getElem_mem hi)).imp id fun h => by simpa using mem_filter.mp h
  rw [countP_table ho] at hcount
  refine ⟨(table bytes)[i], ⟨?_, ?_, fun j hj hlt hbreak => ?_⟩, hget i hi, by omega⟩
  · rcases hmem with hzero | ⟨hmem, hlt⟩
    · omega
    · exact (le_shownOffset ho hmem).mpr ⟨hle, hlt⟩
  · exact hmem.imp id fun hmem => (mem_startsFrom.mp hmem.1).2
  · -- the line after a line break would be in the table, and found
    have hstart : j + 1 ∈ startsFrom 0 bytes := mem_startsFrom.mpr ⟨succ_pos j, hbreak⟩
    obtain ⟨ho', hlen⟩ := (le_shownOffset ho hstart).mp hlt
    obtain ⟨k, hk, heq⟩ := getElem_of_mem (show j + 1 ∈ table bytes by simp [table, hstart, hlen])
    have := hmono k i hi (Nat.le_of_not_lt fun hik => by
      have := hnext k hk hik
      omega)
    omega

theorem contains_iff {f : SourceFile} : f.contains p = true ↔ f.base ≤ p.index ∧ p.index ≤ f.base + f.size := by
  simp [contains]

/-- The file that a source is added as. -/
def ofContent (name : String) (base : Nat) (content : String) : SourceFile where
  name
  base
  size := content.utf8ByteSize
  lines := (table content.toUTF8.toList).toArray

theorem foldl_addLine (f : SourceFile) (offsets : List Nat) (hback : ∀ j ∈ offsets, f.lines.back?.getD 0 < j)
    (hoffsets : offsets.Pairwise (· < ·)) :
    offsets.foldl addLine f = { f with lines := f.lines ++ (offsets.filter (· < f.size)).toArray } := by
  induction offsets generalizing f with
  | nil => simp
  | cons j offsets ih =>
    obtain ⟨hj, hoffsets⟩ := pairwise_cons.mp hoffsets
    rw [foldl_cons, addLine]
    by_cases hsize : j < f.size
    · rw [if_pos (by simp [hsize, hback j (mem_cons_self ..)]), ih _ (by simpa using hj) hoffsets]
      simp [hsize]
    · rw [if_neg (by simp [hsize]), ih _ (fun m hm => hback m (mem_cons_of_mem _ hm)) hoffsets]
      simp [hsize]

end SourceFile

/-! ## Sets of files -/

namespace FileSet

open SourceFile

theorem length_bytes (content : String) : content.toUTF8.toList.length = content.utf8ByteSize := by
  have hloop (bytes : ByteArray) (i : Nat) (r : List UInt8) :
      (ByteArray.toList.loop bytes i r).length = r.length + (bytes.size - i) := by
    fun_induction ByteArray.toList.loop bytes i r with
    | case1 i r hi ih =>
      rw [ih, length_cons]
      omega
    | case2 i r hi =>
      rw [length_reverse]
      omega
  rw [ByteArray.toList, hloop]
  simp

theorem addSource_eq (s : FileSet) (name content : String) : s.addSource name content =
    { nextBase := s.nextBase + (content.utf8ByteSize + 1)
      files := s.files.push (ofContent name s.nextBase content) } := by
  have hfile : (lineStarts content).foldl addLine { name, base := s.nextBase, size := content.utf8ByteSize } =
      ofContent name s.nextBase content := by
    rw [lineStarts_eq, foldl_addLine _ _ (by simpa using fun j hj => (mem_startsFrom.mp hj).1) pairwise_startsFrom]
    simp only [ofContent, table, length_bytes]
    simp
  rw [addSource, addLines, addFile]
  congr 1
  apply Array.ext
  · simp
  · intro i hi hi'
    grind

/-- The set of files that is built from names and contents. -/
def ofSources (sources : List (String × String)) : FileSet := sources.foldl (fun s e => s.addSource e.1 e.2) {}

/-- The files for sources, from a given position on. -/
def layout : Nat → List (String × String) → List SourceFile
  | _, [] => []
  | base, (name, content) :: sources =>
    ofContent name base content :: layout (base + (content.utf8ByteSize + 1)) sources

theorem ofSources_files (sources : List (String × String)) : (ofSources sources).files.toList = layout 1 sources := by
  have hadd (s : FileSet) : (sources.foldl (fun s e => s.addSource e.1 e.2) s).files.toList =
      s.files.toList ++ layout s.nextBase sources := by
    induction sources generalizing s with
    | nil => simp [layout]
    | cons e sources ih =>
      rw [foldl_cons, ih, addSource_eq]
      simp [layout]
  exact hadd {}

variable {base i j : Nat} {name content : String} {f g : SourceFile} {sources : List (String × String)}

theorem getElem?_layout (h : sources[i]? = some (name, content)) :
    ∃ b, (layout base sources)[i]? = some (ofContent name b content) := by
  induction sources generalizing base i with
  | nil => cases h
  | cons e sources ih =>
    cases i with
    | zero =>
      cases h
      exact ⟨base, rfl⟩
    | succ i => exact ih h

theorem length_layout : (layout base sources).length = sources.length := by
  induction sources generalizing base with
  | nil => rfl
  | cons e sources ih => exact congrArg (· + 1) ih

theorem base_le_of_mem_layout (hf : f ∈ layout base sources) : base ≤ f.base := by
  induction sources generalizing base with
  | nil => cases hf
  | cons e sources ih =>
    rcases mem_cons.mp hf with rfl | hf
    · exact le_refl _
    · have := ih hf
      omega

theorem pairwise_layout : (layout base sources).Pairwise fun f g => f.base + f.size < g.base := by
  induction sources generalizing base with
  | nil => exact .nil
  | cons e sources ih => exact .cons (fun g hg => base_le_of_mem_layout hg) ih

/-- **Files do not overlap.** -/
theorem layout_disjoint (hf : (layout base sources)[i]? = some f) (hg : (layout base sources)[j]? = some g)
    (hfp : f.contains p = true) (hgp : g.contains p = true) : i = j := by
  rw [contains_iff] at hfp hgp
  obtain ⟨hi, rfl⟩ := List.getElem?_eq_some_iff.mp hf
  obtain ⟨hj, rfl⟩ := List.getElem?_eq_some_iff.mp hg
  have hpairs := pairwise_iff_getElem.mp (@pairwise_layout base sources)
  have hij := hpairs i j hi hj
  have hji := hpairs j i hj hi
  omega

theorem file?_of_contains (hf : (layout 1 sources)[i]? = some f) (hp : f.contains p = true) :
    (ofSources sources).file? p = some f := by
  have hbase := base_le_of_mem_layout (mem_of_getElem? hf)
  have hknown : p.isKnown = true := by
    have := (contains_iff.mp hp).1
    simp only [Pos.isKnown, bne_iff_ne]
    omega
  rw [file?, if_pos hknown, ofSources_files]
  cases hfind : (layout 1 sources).reverse.find? (·.contains p) with
  | none =>
    exact absurd hp (find?_eq_none.mp hfind f (mem_reverse.mpr (mem_of_getElem? hf)))
  | some g =>
    obtain ⟨j, hj⟩ := mem_iff_getElem?.mp (mem_reverse.mp (mem_of_find?_eq_some hfind))
    obtain rfl := layout_disjoint hf hj hp (find?_some (p := fun f : SourceFile => f.contains p) hfind)
    rw [← hf, hj]

/-- What is kept while files are added: each ends before the next position that is free, and begins with its first
line. -/
structure Filed (s : FileSet) (f : SourceFile) : Prop where
  bound : f.base + f.size + 1 ≤ s.nextBase
  first : f.lines.getD 0 0 = 0
  count : f.lines.size ≤ f.size + 1

theorem filed_addSource {s : FileSet} (hs : ∀ f ∈ s.files, s.Filed f) (name content : String) :
    ∀ f ∈ (s.addSource name content).files, (s.addSource name content).Filed f := by
  rw [addSource_eq]
  intro f hf
  rcases Array.mem_push.mp hf with hf | rfl
  · exact ⟨Nat.le_trans (hs f hf).bound (Nat.le_add_right ..), (hs f hf).first, (hs f hf).count⟩
  · refine ⟨le_of_eq (add_assoc ..), rfl, ?_⟩
    show (table content.toUTF8.toList).length ≤ content.utf8ByteSize + 1
    rw [← length_bytes]
    exact succ_le_succ ((length_filter_le ..).trans length_startsFrom)

theorem filed_ofSources (sources : List (String × String)) :
    ∀ f ∈ (ofSources sources).files, (ofSources sources).Filed f := by
  have hadd (s : FileSet) (hs : ∀ f ∈ s.files, s.Filed f) :
      ∀ f ∈ (sources.foldl (fun s e => s.addSource e.1 e.2) s).files,
        (sources.foldl (fun s e => s.addSource e.1 e.2) s).Filed f := by
    induction sources generalizing s with
    | nil => exact hs
    | cons e sources ih => exact ih _ (filed_addSource hs e.1 e.2)
  exact hadd {} (by simp)

/-- Nothing overflows as long as the next free position is a word. -/
theorem found_in_words (hlimit : (ofSources sources).nextBase < wordLimit) (p : Pos) :
    (∀ f ∈ (ofSources sources).files, f.owns p = .ok (f.contains p)) ∧
      (ofSources sources).owner? p = .ok ((ofSources sources).file? p) ∧
      (ofSources sources).locate p = .ok ((ofSources sources).location p) := by
  have hfiled := filed_ofSources sources
  have hbound (f) (hf : f ∈ (ofSources sources).files) : f.base + f.size + 1 < wordLimit :=
    lt_of_le_of_lt (hfiled f hf).bound hlimit
  refine ⟨fun f hf => ?_, locate_total (fun f hf => ?_) (fun f hf => ⟨hbound f hf, (hfiled f hf).first⟩) p⟩
  · have hsize := hbound f hf
    rw [owns_eq (by omega), if_neg (by omega)]
  · have hsize := hbound f hf
    have hcount := (hfiled f hf).count
    omega

/-- **Positions are resolved exactly.** In a set built from sources the offsets of each file have positions of their
own, and each is resolved to its file, its offset, one more than the number of line breaks before it, and its distance
from the start of its line; only the end of a text after a last line break is shown on the line of that break. Other
positions belong to no file. As long as the next free position is a word, all this is what is found in words. -/
theorem location_exact (sources : List (String × String)) : (ofSources sources).files.size = sources.length ∧
    (∀ (i : Nat) (name content : String), sources[i]? = some (name, content) →
      ∃ f, (ofSources sources).files[i]? = some f ∧ f.name = name ∧ f.size = content.utf8ByteSize ∧ ∀ o ≤ f.size,
        ∃ start, IsLineStart content.toUTF8.toList start (shownOffset content.toUTF8.toList o) ∧
          (ofSources sources).file? (f.pos o) = some f ∧ (ofSources sources).location (f.pos o) =
            { file := name
              offset := o
              line := 1 + (content.toUTF8.toList.take (shownOffset content.toUTF8.toList o)).count 10
              column := o - start + 1 }) ∧
    (∀ (i j : Nat) (f g : SourceFile) (p : Pos), (ofSources sources).files[i]? = some f →
      (ofSources sources).files[j]? = some g → f.contains p = true → g.contains p = true → i = j) ∧
    (∀ p : Pos, (∀ f ∈ (ofSources sources).files, ∀ o ≤ f.size, f.pos o ≠ p) →
      (ofSources sources).file? p = none ∧ (ofSources sources).location p = {}) ∧
    ((ofSources sources).nextBase < wordLimit → ∀ p : Pos,
      (∀ f ∈ (ofSources sources).files, f.owns p = .ok (f.contains p)) ∧
      (ofSources sources).owner? p = .ok ((ofSources sources).file? p) ∧
      (ofSources sources).locate p = .ok ((ofSources sources).location p)) := by
  refine ⟨?_, ?_, ?_, ?_, found_in_words⟩
  all_goals simp only [← Array.getElem?_toList, ← Array.mem_toList_iff, ← Array.length_toList, ofSources_files]
  · exact length_layout
  · intro i name content hi
    obtain ⟨b, hf⟩ : ∃ b, (layout 1 sources)[i]? = some (ofContent name b content) := getElem?_layout hi
    refine ⟨_, hf, rfl, rfl, fun o ho => ?_⟩
    have hindex : ((ofContent name b content).pos o).index = b + o :=
      congrArg (b + ·) (min_eq_left ho)
    have hoffset : (ofContent name b content).offset ((ofContent name b content).pos o) = o := by
      rw [SourceFile.offset, hindex]
      exact Nat.add_sub_cancel_left ..
    have hcontains : (ofContent name b content).contains ((ofContent name b content).pos o) = true :=
      contains_iff.mpr (by rw [hindex]; exact ⟨Nat.le_add_right .., Nat.add_le_add_left ho _⟩)
    have hfile := file?_of_contains hf hcontains
    obtain ⟨start, hstart, hget, hline⟩ :=
      lineIndex_table (ofContent name b content) rfl (ho.trans_eq (length_bytes content).symm)
    refine ⟨start, hstart, hfile, ?_⟩
    have hknown : ((ofContent name b content).pos o).isKnown = true := by
      by_contra hknown
      rw [file?, if_neg hknown] at hfile
      cases hfile
    rw [hline] at hget
    simp only [location, hfile, SourceFile.location, hknown, hcontains, Bool.and_self, if_true, hoffset, hline, hget,
      foundStart, add_comm 1]
    rfl
  · exact fun i j f g p => layout_disjoint
  · intro p hp
    have hnone : (ofSources sources).file? p = none := by
      rw [file?, ofSources_files]
      refine ite_eq_right_iff.mpr fun _ => find?_eq_none.mpr fun f hf hcontains => ?_
      obtain ⟨hlow, hhigh⟩ := contains_iff.mp hcontains
      refine hp f (mem_reverse.mp hf) (p.index - f.base) (by omega) ?_
      rw [SourceFile.pos, Nat.min_eq_left (by omega), Nat.add_sub_cancel' hlow]
    rw [location, hnone]
    exact ⟨rfl, rfl⟩

end FileSet

end Scripting
