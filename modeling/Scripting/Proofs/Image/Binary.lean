import Scripting.Image.Binary
import Scripting.Proofs.Image.Wire
/-!
# `Proofs.Image.Binary` — images can be read back

Reading an image gives the image that was written, and leaves what follows it (`Image.encode_reads`). The proof
follows the format: files, routines, literals. A literal is read with a bound on its nesting, which its
length in bytes always stays above (`literalTo_reads`), since each level begins with a byte of its own.

`InWords` collects what a file table, a routine or a literal must satisfy to be written: its numbers and
sizes are below `wordLimit`.
-/

namespace Scripting

open List

/-! ## Numbers that can be written -/

structure SourceFile.InWords (f : SourceFile) : Prop where
  name : f.name.utf8ByteSize < wordLimit
  base : f.base < wordLimit
  size : f.size < wordLimit
  count : f.lines.size < wordLimit
  lines : ∀ n ∈ f.lines, n < wordLimit

structure FileSet.InWords (s : FileSet) : Prop where
  nextBase : s.nextBase < wordLimit
  count : s.files.size < wordLimit
  files : ∀ f ∈ s.files, f.InWords

structure Routine.InWords (r : Routine) : Prop where
  code : r.code.size < wordLimit
  locals : r.locals < wordLimit
  params : r.params < wordLimit
  captured : r.free.length < wordLimit
  names : ∀ s ∈ r.free, s.utf8ByteSize < wordLimit
  count : r.positions.entries.length < wordLimit
  positions : ∀ e ∈ r.positions.entries, e.1 < wordLimit ∧ e.2.index < wordLimit

mutual

def Literal.InWords : Literal → Prop
  | .str s => s.utf8ByteSize < wordLimit
  | .bytes bs => bs.length < wordLimit
  | .array _ items => items.length < wordLimit ∧ literalsInWords items
  | .map _ entries => entries.length < wordLimit ∧ entriesInWords entries
  | .error payload => payload.InWords
  | .function r => r.InWords
  | .builtin name => name.utf8ByteSize < wordLimit
  | _ => True

def literalsInWords : List Literal → Prop
  | [] => True
  | l :: ls => l.InWords ∧ literalsInWords ls

def entriesInWords : List (String × Literal) → Prop
  | [] => True
  | (key, l) :: es => key.utf8ByteSize < wordLimit ∧ l.InWords ∧ entriesInWords es

end

namespace Wire

/-! ## Files and routines -/

theorem pos_reads (hp : p.index < wordLimit) : Reads Reader.pos (pos p) p := (nat_reads hp).map Pos.mk

theorem sourceFile_reads (hf : f.InWords) : Reads Reader.sourceFile (sourceFile f) f := by
  have hlines : Reads (Reader.seq Reader.nat) (seq nat f.lines.toList) f.lines.toList :=
    seq_reads hf.count fun n hn => nat_reads (hf.lines n (by simpa using hn))
  unfold sourceFile
  simp only [append_assoc]
  refine (text_reads hf.name).bind ((nat_reads hf.base).bind ((nat_reads hf.size).bind ?_))
  exact hlines.map _

theorem fileSet_reads (hs : s.InWords) : Reads Reader.fileSet (fileSet s) s := by
  have hfiles : Reads (Reader.seq Reader.sourceFile) (seq sourceFile s.files.toList) s.files.toList :=
    seq_reads hs.count fun f hf => sourceFile_reads (hs.files f (by simpa using hf))
  exact (nat_reads hs.nextBase).bind (hfiles.map _)

theorem bytes_reads (hs : bs.length < wordLimit) :
    Reads (Reader.seq Reader.byte) (seq rawByte bs) bs := seq_reads hs fun b _ => byte_reads b

/-- Positions are written by increasing offset, so that reading puts each before the last. -/
theorem ofList_toList (m : SourceMap) : SourceMap.ofList m.toList = m := by
  have hentries (es : List (Nat × Pos)) (hs : es.Pairwise (fun a b => b.1 < a.1)) :
      (es.foldr (fun e m => m.insert e.1 e.2) SourceMap.empty).entries = es := by
    induction es with
    | nil => rfl
    | cons e es ih =>
      obtain ⟨hfirst, hrest⟩ := pairwise_cons.mp hs
      show SourceMap.insertEntry e.1 e.2 _ = e :: es
      rw [ih hrest]
      cases es with
      | nil => rfl
      | cons e' es => exact if_pos (hfirst e' mem_cons_self)
  have hm : (SourceMap.ofList m.toList).entries = m.entries := by
    unfold SourceMap.ofList SourceMap.toList
    rw [foldl_reverse]
    exact hentries m.entries m.sorted
  cases m
  cases h : SourceMap.ofList _
  rw [h] at hm
  cases hm
  rfl

theorem routine_reads (hr : r.InWords) : Reads Reader.routine (routine r) r := by
  have hnames : Reads (Reader.seq Reader.text) (seq text r.free) r.free :=
    seq_reads hr.captured fun s hs => text_reads (hr.names s hs)
  have hposition : ∀ e ∈ r.positions.toList, Reads Reader.position (nat e.1 ++ pos e.2) e := by
    intro e he
    obtain ⟨hoffset, hindex⟩ := hr.positions e (by simpa [SourceMap.toList] using he)
    exact (nat_reads hoffset).bind ((pos_reads hindex).map _)
  have hpositions : Reads (Reader.seq Reader.position) (seq (fun e => nat e.1 ++ pos e.2) r.positions.toList)
      r.positions.toList :=
    seq_reads (by simpa [SourceMap.toList] using hr.count) hposition
  unfold routine
  simp only [append_assoc]
  refine (bytes_reads hr.code).bind ((nat_reads hr.locals).bind ((nat_reads hr.params).bind ?_))
  refine (bool_reads r.variadic).bind (hnames.bind (hpositions.last ?_))
  rw [ofList_toList]
  exact Reads.pure _

/-! ## Literals -/

theorem nat_length_pos (n : Nat) : 0 < (nat n).length := by
  unfold nat
  split <;> simp

theorem literal_length_pos (l : Literal) : 0 < (literal l).length := by
  have hpos (n : Nat) (bytes : List UInt8) : 0 < (nat n ++ bytes).length := by
    rw [length_append]
    exact Nat.add_pos_left (nat_length_pos n) _
  cases l with
  | array kind items => cases kind <;> rw [literal, append_assoc] <;> exact hpos ..
  | map kind entries => cases kind <;> rw [literal, append_assoc] <;> exact hpos ..
  | undefined => exact nat_length_pos 11
  | _ => exact hpos ..

mutual

/-- **A literal can be read** with any bound on its nesting that is at least its size in bytes. -/
theorem literalTo_reads (l : Literal) (hl : l.InWords) (depth : Nat) (hd : (literal l).length ≤ depth) :
    Reads (Reader.literalTo depth) (literal l) l := by
  cases depth with
  | zero =>
    -- every literal begins with the number of its variant
    have hpos : 0 < (literal l).length := literal_length_pos l
    omega
  | succ depth =>
    cases l with
    | int n => exact (variant_reads (by decide)).bind ((int_reads n).map _)
    | float x => exact (variant_reads (by decide)).bind ((word_reads x.bits).map _)
    | char c => exact (variant_reads (by decide)).bind ((char_reads c).map _)
    | bool b => exact (variant_reads (by decide)).bind ((bool_reads b).map _)
    | str s => exact (variant_reads (by decide)).bind ((text_reads hl).map _)
    | bytes bs => exact (variant_reads (by decide)).bind ((bytes_reads hl).map _)
    | array kind items =>
      obtain ⟨hcount, hitems⟩ := hl
      have hsize : (literals items).length ≤ depth := by
        cases kind <;> simp only [literal, length_append] at hd <;>
          have := nat_length_pos items.length <;> omega
      have hseq := (nat_reads hcount).bind (times_literalTo_reads items hitems depth hsize)
      cases kind with
      | mutable =>
        rw [literal, append_assoc]
        exact (variant_reads (by decide)).bind (hseq.map _)
      | frozen =>
        rw [literal, append_assoc]
        exact (variant_reads (by decide)).bind (hseq.map _)
    | map kind entries =>
      obtain ⟨hcount, hentries⟩ := hl
      have hsize : (literalEntries entries).length ≤ depth := by
        cases kind <;> simp only [literal, length_append] at hd <;>
          have := nat_length_pos entries.length <;> omega
      have hseq := (nat_reads hcount).bind (times_entry_reads entries hentries depth hsize)
      cases kind with
      | mutable =>
        rw [literal, append_assoc]
        exact (variant_reads (by decide)).bind (hseq.map _)
      | frozen =>
        rw [literal, append_assoc]
        exact (variant_reads (by decide)).bind (hseq.map _)
    | error payload =>
      have hsize : (literal payload).length ≤ depth := by
        have := nat_length_pos 10
        simp only [literal, length_append] at hd
        omega
      exact (variant_reads (by decide)).bind ((literalTo_reads payload hl depth hsize).map _)
    | undefined => exact (variant_reads (by decide)).last (Reads.pure _)
    | function r => exact (variant_reads (by decide)).bind ((routine_reads hl).map _)
    | builtin name => exact (variant_reads (by decide)).bind ((text_reads hl).map _)
    | time n => exact (variant_reads (by decide)).bind ((int_reads n).map _)

theorem times_literalTo_reads (ls : List Literal) (hl : literalsInWords ls) (depth : Nat)
    (hd : (literals ls).length ≤ depth) :
    Reads (Reader.times (Reader.literalTo depth) ls.length) (literals ls) ls := by
  cases ls with
  | nil => exact Reads.pure []
  | cons l ls =>
    rw [literals, length_append] at hd
    refine (literalTo_reads l hl.1 depth (by omega)).bind ?_
    exact (times_literalTo_reads ls hl.2 depth (by omega)).map _

theorem times_entry_reads (es : List (String × Literal)) (he : entriesInWords es) (depth : Nat)
    (hd : (literalEntries es).length ≤ depth) :
    Reads (Reader.times (Reader.entry (Reader.literalTo depth)) es.length) (literalEntries es) es := by
  match es with
  | [] => exact Reads.pure []
  | (key, l) :: es =>
    obtain ⟨hkey, hl, hes⟩ := he
    rw [literalEntries, length_append, length_append] at hd
    have hentry : Reads (Reader.entry (Reader.literalTo depth)) (text key ++ literal l) (key, l) :=
      (text_reads hkey).bind ((literalTo_reads l hl depth (by omega)).map _)
    refine hentry.bind ?_
    exact (times_entry_reads es hes depth (by omega)).map _

end

theorem literal_reads (hl : l.InWords) : Reads Reader.literal (literal l) l := by
  intro rest
  refine literalTo_reads l hl _ ?_ rest
  rw [length_append]
  omega

end Wire

/-- The numbers and sizes in an image. -/
structure Image.InWords (image : Image) : Prop where
  files : image.files.InWords
  main : image.main.InWords
  count : image.constants.length < wordLimit
  constants : ∀ l ∈ image.constants, l.InWords

/-- **What is read is what was written**, whatever follows. -/
theorem Image.encode_reads (hi : image.InWords) : Wire.Reads Image.read image.encode image := by
  have hconstants : Wire.Reads (Wire.Reader.seq Wire.Reader.literal) (Wire.seq Wire.literal image.constants)
      image.constants :=
    Wire.seq_reads hi.count fun l hl => Wire.literal_reads (hi.constants l hl)
  unfold Image.encode
  rw [append_assoc]
  exact (Wire.fileSet_reads hi.files).bind ((Wire.routine_reads hi.main).bind (hconstants.map _))

end Scripting
