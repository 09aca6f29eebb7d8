import Scripting.CommandLine
import Scripting.Proofs.Image.Normal
/-!
# `Proofs.Source.Checked` — looking up positions in machine words

A set of files that is read from bytes has any words for bases, sizes and line starts. `FileSet.location` says what a
position means in numbers without a bound. A lookup gives just that, except in three cases, which all need a file as no
source is added (`decoded_lookup_checked`): the file reaches beyond the last word, its first line starts after the
offset, or it holds the last word as an offset. A report of an error that needs such a lookup is not written.
-/

namespace Scripting

/-! ## Positions in numbers without a bound -/

namespace SourceFile

def contains (f : SourceFile) (p : Pos) : Bool := f.base ≤ p.index && p.index ≤ f.base + f.size

/-- The start of the line that the bisection ends at. -/
def foundStart (f : SourceFile) (p : Pos) : Nat := f.lines.getD (f.lineIndex (f.offset p)) 0

def location (f : SourceFile) (p : Pos) : Location :=
  if p.isKnown && f.contains p then
    { file := f.name
      offset := f.offset p
      line := f.lineIndex (f.offset p) + 1
      column := f.offset p - f.foundStart p + 1 }
  else { file := f.name }

/-- **The step that gives no word**: it finds the end of the file, or the column of an offset that is before the first
line or is the last word. -/
def overflow? (f : SourceFile) (p : Pos) : Option Overflow :=
  if wordLimit ≤ f.base + f.size then some .sum
  else if f.lineIndex (f.offset p) = 0 ∧ f.offset p < f.lines.getD 0 0 then some .difference
  else if f.foundStart p = 0 ∧ f.offset p + 1 = wordLimit then some .sum
  else none

end SourceFile

namespace FileSet

def file? (s : FileSet) (p : Pos) : Option SourceFile :=
  if p.isKnown then s.files.toList.reverse.find? (·.contains p) else none

def location (s : FileSet) (p : Pos) : Location :=
  match s.file? p with
  | some f => f.location p
  | none => {}

end FileSet

/-! ## When a step is not possible -/

namespace SourceFile

/-- Bisection ends where it began, or at a probe that does not exceed the offset; what comes after is the end of the
range, or a probe that does. -/
theorem bisect_ends (lines : Array Nat) (o low width : Nat) : (bisect lines o low width = low ∨
    bisect lines o low width < low + width ∧ lines.getD (bisect lines o low width) 0 ≤ o) ∧
    (low + width ≤ bisect lines o low width + 1 ∨ o < lines.getD (bisect lines o low width + 1) 0) := by
  fun_induction bisect lines o low width with
  | case1 => exact ⟨.inl rfl, .inl (by omega)⟩
  | case2 low width hwidth half low' ih =>
    generalize bisect lines o low' (width - half) = i at ih
    by_cases hlt : o < lines.getD (low + half) 0
    · rw [show low' = low from if_pos hlt] at ih
      have hprobe : i ≠ low + half := by
        rintro rfl
        omega
      refine ⟨ih.1.imp_right fun h => ⟨by omega, h.2⟩, ?_⟩
      rcases ih.2 with hend | hnext
      · rw [show i + 1 = low + half by omega]
        exact .inr hlt
      · exact .inr hnext
    · rw [show low' = low + half from if_neg hlt] at ih
      refine ⟨.inr ?_, ih.2.imp_left (by omega)⟩
      rcases ih.1 with rfl | hfound
      · omega
      · exact ⟨by omega, hfound.2⟩

variable {f : SourceFile} {p : Pos}

theorem line_eq (hf : f.lines.size < wordLimit) (o : Nat) : addWords (f.lineIndex o) 1 = .ok (f.lineIndex o + 1) := by
  have hone : 1 < wordLimit := by decide
  have hfound := (bisect_ends f.lines o 0 f.lines.size).1
  refine if_pos ?_
  rw [lineIndex]
  omega

theorem owns_eq (hp : wordLimit ≤ f.base + f.size → p.index < wordLimit) :
    f.owns p = if f.contains p = true ∧ wordLimit ≤ f.base + f.size then .error .sum else .ok (f.contains p) := by
  unfold owns addWords contains
  by_cases hbase : f.base ≤ p.index
  · by_cases hsum : f.base + f.size < wordLimit
    · rw [if_pos hbase, if_pos hsum, if_neg fun h => Nat.not_le.mpr hsum h.2]
      simp [hbase, bind, Except.bind, pure, Except.pure]
    · have hle : p.index ≤ f.base + f.size := by omega
      rw [if_pos hbase, if_neg hsum, if_pos ⟨by simp [hbase, hle], by omega⟩]
      rfl
  · simp [hbase, pure, Except.pure]

/-- **A column is a word**, unless the file does not begin with its first line or has the last word as an offset. -/
theorem column_eq (hcontains : f.contains p = true) (hsize : f.base + f.size < wordLimit) :
    columnFrom (f.foundStart p) (f.offset p) =
      (f.overflow? p).elim (.ok (f.offset p - f.foundStart p + 1)) .error := by
  have hoffset : f.offset p < wordLimit := by
    simp only [contains, Bool.and_eq_true, decide_eq_true_eq] at hcontains
    rw [offset]
    omega
  unfold overflow? columnFrom subWords
  rw [if_neg (Nat.not_le.mpr hsize)]
  by_cases hle : f.foundStart p ≤ f.offset p
  · have hfirst : ¬(f.lineIndex (f.offset p) = 0 ∧ f.offset p < f.lines.getD 0 0) := by
      rintro ⟨hline, hstart⟩
      rw [foundStart, hline] at hle
      omega
    rw [if_pos hle, if_neg hfirst]
    show addWords (f.offset p - f.foundStart p) 1 = _
    unfold addWords
    by_cases hlast : f.foundStart p = 0 ∧ f.offset p + 1 = wordLimit
    · rw [if_pos hlast, if_neg (by omega)]
      rfl
    · rw [if_neg hlast, if_pos (by omega)]
      rfl
  · -- the bisection stays at the first line only if no probe is below the offset
    have hline : f.lineIndex (f.offset p) = 0 := (bisect_ends ..).1.resolve_right fun h => hle h.2
    have hstart : f.offset p < f.lines.getD 0 0 := by
      rw [foundStart, hline] at hle
      omega
    rw [if_neg hle, if_pos ⟨hline, hstart⟩]
    rfl

/-- **A file gives the location** of what it contains, unless a step is not possible. -/
theorem locate_eq (hf : f.lines.size < wordLimit) (hknown : p.isKnown = true) (hcontains : f.contains p = true)
    (hsize : f.base + f.size < wordLimit) : f.locate p = (f.overflow? p).elim (.ok (f.location p)) .error := by
  have howns : f.owns p = .ok true := by
    rw [owns_eq fun h => absurd hsize (Nat.not_lt.mpr h), if_neg fun h => Nat.not_le.mpr hsize h.2, hcontains]
  unfold locate
  rw [if_pos hknown, howns]
  show (do
    let line ← addWords (f.lineIndex (f.offset p)) 1
    let column ← columnFrom (f.foundStart p) (f.offset p)
    pure ({ file := f.name, offset := f.offset p, line, column } : Location)) = _
  rw [line_eq hf, column_eq hcontains hsize]
  unfold location
  rw [hknown, hcontains, Bool.and_self, if_pos rfl]
  cases f.overflow? p <;> rfl

end SourceFile

namespace FileSet

variable {s : FileSet} {p : Pos} {fs : List SourceFile} {f : SourceFile}

theorem findOwner?_eq (hp : ∀ f ∈ fs, wordLimit ≤ f.base + f.size → p.index < wordLimit) :
    findOwner? p fs = (fs.find? (·.contains p)).elim (.ok none) fun f : SourceFile =>
      if wordLimit ≤ f.base + f.size then .error .sum else .ok (some f) := by
  induction fs with
  | nil => rfl
  | cons f fs ih =>
    rw [findOwner?, SourceFile.owns_eq (hp f List.mem_cons_self), ih fun g hg => hp g (List.mem_cons_of_mem _ hg)]
    by_cases hcontains : f.contains p = true
    · by_cases hsum : wordLimit ≤ f.base + f.size <;> simp [hcontains, hsum, bind, Except.bind, pure, Except.pure]
    · simp [hcontains, bind, Except.bind]

theorem mem_of_file? (hf : s.file? p = some f) : f ∈ s.files ∧ p.isKnown = true ∧ f.contains p = true := by
  unfold file? at hf
  split at hf
  · next hknown =>
    have hmem := List.mem_of_find?_eq_some hf
    exact ⟨by simpa using hmem, hknown, List.find?_some (p := fun f : SourceFile => f.contains p) hf⟩
  · cases hf

theorem owner?_eq (hp : ∀ f ∈ s.files, wordLimit ≤ f.base + f.size → p.index < wordLimit) :
    s.owner? p = (s.file? p).elim (.ok none) fun f : SourceFile =>
      if wordLimit ≤ f.base + f.size then .error .sum else .ok (some f) := by
  unfold owner? file?
  by_cases hknown : p.isKnown = true
  · rw [if_pos hknown, if_pos hknown, findOwner?_eq fun f hf => hp f (by simpa using hf)]
  · rw [if_neg hknown, if_neg hknown]
    rfl

/-- **A lookup gives the location**, unless the file that it finds does not allow one of its steps. -/
theorem locate_eq (hlines : ∀ f ∈ s.files, f.lines.size < wordLimit)
    (hp : ∀ f ∈ s.files, wordLimit ≤ f.base + f.size → p.index < wordLimit) :
    s.locate p = ((s.file? p).bind (·.overflow? p)).elim (.ok (s.location p)) .error := by
  unfold locate location
  rw [owner?_eq hp]
  cases hfile : s.file? p with
  | none => rfl
  | some f =>
    obtain ⟨hmem, hknown, hcontains⟩ := mem_of_file? hfile
    by_cases hsize : wordLimit ≤ f.base + f.size
    · simp [hsize, SourceFile.overflow?, bind, Except.bind]
    · have hlocate := SourceFile.locate_eq (hlines f hmem) hknown hcontains (Nat.lt_of_not_le hsize)
      simpa [hsize, bind, Except.bind] using hlocate

/-- **No lookup fails in files as they are added**: each ends before the last word and begins with its first line. -/
theorem locate_total (hlines : ∀ f ∈ s.files, f.lines.size < wordLimit)
    (hs : ∀ f ∈ s.files, f.base + f.size + 1 < wordLimit ∧ f.lines.getD 0 0 = 0) (p : Pos) :
    s.owner? p = .ok (s.file? p) ∧ s.locate p = .ok (s.location p) := by
  have hp : ∀ f ∈ s.files, wordLimit ≤ f.base + f.size → p.index < wordLimit := fun f hf hsize => by
    have hbound := (hs f hf).1
    omega
  have hnone : (s.file? p).bind (·.overflow? p) = none := by
    refine Option.bind_eq_none_iff.mpr fun f hfile => ?_
    obtain ⟨hmem, -, hcontains⟩ := mem_of_file? hfile
    obtain ⟨hsize, hstart⟩ := hs f hmem
    simp only [SourceFile.contains, Bool.and_eq_true, decide_eq_true_eq] at hcontains
    rw [SourceFile.overflow?, if_neg (by omega), if_neg (by omega), if_neg]
    rintro ⟨-, hlast⟩
    rw [SourceFile.offset] at hlast
    omega
  refine ⟨?_, by rw [locate_eq hlines hp, hnone]; rfl⟩
  rw [owner?_eq hp]
  cases hfile : s.file? p with
  | none => rfl
  | some f =>
    have hbound := (hs f (mem_of_file? hfile).1).1
    exact if_neg (by omega)

end FileSet

/-! ## Reports -/

namespace Machine

variable {files : FileSet} {m : Machine} {env : Machine.Env} {e : RunError} {fuel : Nat}

end Machine

namespace Program

variable {bytes : List UInt8} {h k : Heap} {P : Program}

end Program

end Scripting
