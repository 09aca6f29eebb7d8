import Scripting.Proofs.Image.RoundTrip
/-!
# `Proofs.Image.Truncation` — a cut file is refused

A reader takes its input from the front and never looks at the end of it, except to find that there is none left.
So whatever it makes of some bytes, a value or a complaint, it makes of every longer input, and the one complaint
that more input can change is that the input has ended. `Persists r r'` says this of a reader `r`; the second
reader is there because literals are read with a bound on their nesting that grows with the input.

What was written is read to its last byte. A reader that is content with less would be content with the same bytes
and more after them, and would leave the rest; so on every cut it runs out of input (`Reads.cut`). That is the
main statement, for whole programs: `Program.truncation_detected`.
-/

namespace Scripting

open List

namespace Wire

/-- What a reader makes of some bytes, and what one makes of the same bytes and `extra` after them: the same, unless
the first has found the end of its input. -/
inductive Decided {α : Type} (extra : List UInt8) :
    Except WireError (α × List UInt8) → Except WireError (α × List UInt8) → Prop
  | ok (a : α) (rest : List UInt8) : Decided extra (.ok (a, rest)) (.ok (a, rest ++ extra))
  | error (e : WireError) : Decided extra (.error e) (.error e)
  | ended {result} : Decided extra (.error .endOfInput) result

/-- **What `r` decides on an input, `r'` decides alike on every longer one.** Only the end of the input is not a
decision. -/
def Persists {α : Type} (r r' : Reader α) : Prop := ∀ bytes extra, Decided extra (r bytes) (r' (bytes ++ extra))

/-! ## Putting readers together -/

namespace Persists

variable {α β : Type} {r r' : Reader α}

theorem pure (a : α) : Persists (pure a) (pure a) := fun bytes _ => .ok a bytes

theorem throw (e : WireError) : Persists (throw e : Reader α) (throw e) := fun _ _ => .error e

/-- A reader that only says that the input has ended decides nothing. -/
theorem ended (r' : Reader α) : Persists (MonadExcept.throw .endOfInput) r' := fun _ _ => .ended

theorem run_bind : (r >>= f) bytes = r bytes >>= fun x => f x.1 x.2 := rfl

/-- **One reader after the other.** The second one starts in what the first has left. -/
theorem bind (hr : Persists r r') (hf : ∀ a, Persists (f a) (f' a)) : Persists (r >>= f) (r' >>= f') := by
  intro bytes extra
  have h := hr bytes extra
  rw [run_bind, run_bind]
  generalize r bytes = x, r' (bytes ++ extra) = y at h
  cases h with
  | ok a rest => exact hf a rest extra
  | error e => exact .error e
  | ended => exact .ended

end Persists

/-! ## Numbers and texts -/

theorem byte_persists : Persists Reader.byte Reader.byte := by
  intro bytes extra
  cases bytes with
  | nil => exact .ended
  | cons b bytes => exact .ok b bytes

theorem take_persists : Persists (Reader.take n) (Reader.take n) := by
  intro bytes extra
  unfold Reader.take
  dsimp only
  by_cases hlength : (bytes.take n).length < n
  · rw [if_pos hlength]
    exact .ended
  · have hn : n ≤ bytes.length := by
      rw [length_take] at hlength
      omega
    rw [if_neg hlength, take_append_of_le_length hn, drop_append_of_le_length hn, if_neg hlength]
    exact .ok _ _

theorem natIn_persists : Persists (Reader.natIn last left) (Reader.natIn last left) := by
  induction left with
  | zero => exact .throw _
  | succ left ih =>
    refine byte_persists.bind fun b => ?_
    dsimp only
    split
    · exact ih.bind fun rest => .pure _
    · split
      · exact .throw _
      · exact .pure _

theorem nat_persists : Persists Reader.nat Reader.nat := natIn_persists

theorem variant_persists : Persists Reader.variant Reader.variant := natIn_persists

theorem int_persists : Persists Reader.int Reader.int := nat_persists.bind fun _ => .pure _

theorem bool_persists : Persists Reader.bool Reader.bool := by
  refine byte_persists.bind fun b => ?_
  split
  · exact .pure _
  · exact .pure _
  · exact .throw _

theorem word_persists : Persists Reader.word Reader.word := take_persists.bind fun _ => .pure _

theorem text_persists : Persists Reader.text Reader.text := by
  refine nat_persists.bind fun n => take_persists.bind fun bytes => ?_
  split
  · exact .pure _
  · exact .throw _

theorem char_persists : Persists Reader.char Reader.char := by
  refine nat_persists.bind fun size => ?_
  split
  · exact Persists.throw WireError.invalidChar
  · refine take_persists.bind fun bytes => ?_
    split
    · exact .pure _
    · exact .throw _

/-! ## Sequences -/

variable {α : Type} {item item' : Reader α}

theorem times_persists (h : Persists item item') : Persists (Reader.times item n) (Reader.times item' n) := by
  induction n with
  | zero => exact .pure []
  | succ n ih => exact h.bind fun x => ih.bind fun xs => .pure _

theorem seq_persists (h : Persists item item') : Persists (Reader.seq item) (Reader.seq item') :=
  nat_persists.bind fun _ => times_persists h

/-! ## Files, routines and literals -/

theorem sourceFile_persists : Persists Reader.sourceFile Reader.sourceFile :=
  text_persists.bind fun _ => nat_persists.bind fun _ => nat_persists.bind fun _ =>
    (seq_persists nat_persists).bind fun _ => .pure _

theorem fileSet_persists : Persists Reader.fileSet Reader.fileSet :=
  nat_persists.bind fun _ => (seq_persists sourceFile_persists).bind fun _ => .pure _

theorem position_persists : Persists Reader.position Reader.position := by
  have hpos : Persists Reader.pos Reader.pos := nat_persists.bind fun _ => .pure _
  exact nat_persists.bind fun _ => hpos.bind fun _ => .pure _

theorem routine_persists : Persists Reader.routine Reader.routine :=
  (seq_persists byte_persists).bind fun _ => nat_persists.bind fun _ => nat_persists.bind fun _ =>
    bool_persists.bind fun _ => (seq_persists text_persists).bind fun _ =>
      (seq_persists position_persists).bind fun _ => .pure _

theorem entry_persists (h : Persists value value') : Persists (Reader.entry value) (Reader.entry value') :=
  text_persists.bind fun _ => h.bind fun _ => .pure _

/-- A higher bound on the nesting changes nothing that has been decided. -/
theorem literalTo_persists (hle : depth ≤ depth') : Persists (Reader.literalTo depth) (Reader.literalTo depth') := by
  induction depth generalizing depth' with
  | zero => exact .ended _
  | succ depth ih =>
    obtain ⟨depth', rfl⟩ : ∃ d, depth' = d + 1 := ⟨depth' - 1, by omega⟩
    have hpart : Persists (Reader.literalTo depth) (Reader.literalTo depth') := ih (by omega)
    have hitems := seq_persists hpart
    have hentries := seq_persists (entry_persists hpart)
    refine variant_persists.bind fun variant => ?_
    -- one case for each variant, and one for the numbers that are none
    split
    · exact int_persists.bind fun _ => .pure _
    · exact word_persists.bind fun _ => .pure _
    · exact char_persists.bind fun _ => .pure _
    · exact bool_persists.bind fun _ => .pure _
    · exact text_persists.bind fun _ => .pure _
    · exact (seq_persists byte_persists).bind fun _ => .pure _
    · exact hitems.bind fun _ => .pure _
    · exact hitems.bind fun _ => .pure _
    · exact hentries.bind fun _ => .pure _
    · exact hentries.bind fun _ => .pure _
    · exact hpart.bind fun _ => .pure _
    · exact .pure _
    · exact routine_persists.bind fun _ => .pure _
    · exact text_persists.bind fun _ => .pure _
    · exact int_persists.bind fun _ => .pure _
    · exact .throw _

/-- The bound is the length of the input, so a longer input raises it. -/
theorem literal_persists : Persists Reader.literal Reader.literal := by
  intro bytes extra
  refine literalTo_persists ?_ bytes extra
  rw [length_append]
  omega

theorem image_persists : Persists Image.read Image.read :=
  fileSet_persists.bind fun _ => routine_persists.bind fun _ => (seq_persists literal_persists).bind fun _ => .pure _

/-! ## Cuts -/

/-- **A reader that takes all of some bytes runs out of input on every cut of them.** -/
theorem Reads.cut (hp : Persists r r) (hr : Reads r bytes a) (hn : n < bytes.length) :
    r (bytes.take n) = .error .endOfInput := by
  have hwhole : r (bytes.take n ++ bytes.drop n) = .ok (a, []) := by
    simpa using hr []
  have hlong := hp (bytes.take n) (bytes.drop n)
  rw [hwhole] at hlong
  generalize r (bytes.take n) = x, hy : Except.ok (a, []) = y at hlong
  cases hlong with
  | ok a' rest =>
    -- the reader would leave what was cut off
    obtain ⟨-, hleft⟩ := Prod.mk.inj (Except.ok.inj hy)
    have hdrop : bytes.drop n = [] := (append_eq_nil_iff.mp hleft.symm).2
    rw [drop_eq_nil_iff] at hdrop
    omega
  | error e => cases hy
  | ended => rfl

end Wire

/-! ## Programs -/

namespace Program

variable {h : Heap} {p : Program} {bytes : List UInt8}

/-- What is written is the binary form of an image with numbers that can be read. -/
theorem encode_eq_image (hp : p.IsFinite h) (he : p.encode h = .ok bytes) :
    ∃ image : Image, image.InWords ∧ bytes = image.encode ∧ ∀ k, ∃ r, image.load k = .ok r := by
  cases hls : p.constants.toList.mapM (Value.literal h) with
  | error e =>
    rw [encode_error hls] at he
    cases he
  | ok ls =>
    rw [encode_ok hls] at he
    cases he
    have hall := forall₂_of_mapM hls
    refine ⟨_, image_inWords hp hall, rfl, fun k => ?_⟩
    obtain ⟨q, k', hload, -, -⟩ := load_image hall k
    exact ⟨_, hload⟩

/-- Reading a cut of a written program ends with the input. -/
theorem decode_take (hp : p.IsFinite h) (he : p.encode h = .ok bytes) (hn : n < bytes.length) (k : Heap) :
    Program.decode (bytes.take n) k = .error .endOfInput := by
  obtain ⟨image, hwords, rfl, -⟩ := encode_eq_image hp he
  have hcut : Image.read (image.encode.take n) = .error .endOfInput :=
    (Image.encode_reads hwords).cut Wire.image_persists hn
  unfold Program.decode
  rw [hcut]
  rfl

/-- **Truncation is always detected.** Of the binary form of a program, any number of bytes less than all of them
is refused, because the input has ended, into whichever heap it is read. So the binary form of one program is
never the beginning of that of another. -/
theorem truncation_detected (hp : p.IsFinite h) (he : p.encode h = .ok bytes) :
    (∀ n < bytes.length, ∀ k, Program.decode (bytes.take n) k = .error .endOfInput) ∧
      ∀ (h' : Heap) (q : Program) (bytes' : List UInt8), q.IsFinite h' → q.encode h' = .ok bytes' →
        bytes <+: bytes' → bytes = bytes' := by
  refine ⟨fun n hn k => decode_take hp he hn k, ?_⟩
  intro h' q bytes' hq he' hpre
  by_cases hlength : bytes.length < bytes'.length
  · -- the shorter one can be read, and it is a cut of the longer one
    have hcut := decode_take hq he' hlength {}
    rw [prefix_iff_eq_take.mp hpre |>.symm] at hcut
    obtain ⟨image, hwords, rfl, hloads⟩ := encode_eq_image hp he
    obtain ⟨⟨r, k'⟩, hload⟩ := hloads {}
    have hread := decode_encode hwords [] hload
    rw [append_nil, hcut] at hread
    cases hread
  · exact hpre.eq_of_length_le (Nat.le_of_not_lt hlength)

/-- The program `nested` can be cut at each of its bytes: inside a number, a text, or a list in a list. -/
theorem nested_truncation_detected : nested.IsFinite nestedHeap ∧ ∃ bytes, nested.encode nestedHeap = .ok bytes ∧
    1 < bytes.length ∧ ∀ n < bytes.length, ∀ k, Program.decode (bytes.take n) k = .error .endOfInput := by
  have hlong : ((nested.encode nestedHeap).map fun bytes => decide (1 < bytes.length)).toOption = some true := by
    decide +kernel
  cases he : nested.encode nestedHeap with
  | error e =>
    rw [he] at hlong
    cases hlong
  | ok bytes =>
    rw [he] at hlong
    refine ⟨nested_isFinite, bytes, rfl, of_decide_eq_true (Option.some.inj hlong), ?_⟩
    exact (truncation_detected nested_isFinite he).1

end Program

end Scripting
