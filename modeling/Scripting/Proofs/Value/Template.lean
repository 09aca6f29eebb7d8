import Mathlib.Data.List.TakeWhile
import Scripting.Format
/-!
# `Proofs.Value.Template` — templates are filled part by part

A template that ends outside a directive can be cut off from what follows it: the scanner is in the same state there as
at the start, and the arguments left are those that its directives did not take. So a template with as many arguments as
directives, followed by any other, gives the two texts one after the other (`format_composes`).
-/

namespace Scripting.Format

open List

/-! ## Scanning -/

theorem takeFlags_followed (spec : Spec) (cs ds : List Char) (hrest : (takeFlags spec cs).2 ≠ []) :
    takeFlags spec (cs ++ ds) = ((takeFlags spec cs).1, (takeFlags spec cs).2 ++ ds) := by
  fun_induction takeFlags spec cs with
  | case1 spec cs ih => exact ih hrest
  | case2 spec cs ih => exact ih hrest
  | case3 spec cs ih => exact ih hrest
  | case4 spec cs hminus hplus hzero =>
    obtain ⟨c, cs, rfl⟩ := exists_cons_of_ne_nil hrest
    rw [takeFlags]
    · intro cs' heq
      exact hminus cs (by cases heq; rfl)
    · intro cs' heq
      exact hplus cs (by cases heq; rfl)
    · intro cs' heq
      exact hzero cs (by cases heq; rfl)

theorem takeNumber_followed (cs ds : List Char) (hrest : (takeNumber cs).2 ≠ []) :
    takeNumber (cs ++ ds) = ((takeNumber cs).1, (takeNumber cs).2 ++ ds) := by
  have hdrop : cs.dropWhile Char.isDigit ≠ [] := hrest
  have hdrop' : (cs ++ ds).dropWhile Char.isDigit = cs.dropWhile Char.isDigit ++ ds := by
    rw [dropWhile_append, if_neg (by simpa using hdrop)]
  -- what is taken is what the rest leaves
  have htake : (cs ++ ds).takeWhile Char.isDigit = cs.takeWhile Char.isDigit := by
    have hall := takeWhile_append_dropWhile (p := Char.isDigit) (l := cs ++ ds)
    rw [hdrop', ← append_assoc] at hall
    exact append_cancel_right ((append_cancel_right hall).trans takeWhile_append_dropWhile.symm)
  simp only [takeNumber, Decimal.spanDigits, hdrop', htake]
  rfl

theorem takePrecision_followed (cs ds : List Char) (hrest : (takePrecision cs).2 ≠ []) :
    takePrecision (cs ++ ds) = ((takePrecision cs).1, (takePrecision cs).2 ++ ds) := by
  fun_cases takePrecision cs with
  | case1 cs =>
    rw [cons_append, takePrecision, takeNumber_followed cs ds (by simpa [takePrecision] using hrest)]
  | case2 cs hpoint =>
    rw [takePrecision] at hrest
    · obtain ⟨c, cs, rfl⟩ := exists_cons_of_ne_nil hrest
      rw [takePrecision]
      intro cs' heq
      exact hpoint cs (by cases heq; rfl)
    · exact hpoint

theorem ne_nil_of_length_le {cs ds : List Char} (h : cs ≠ []) (hle : cs.length ≤ ds.length) : ds ≠ [] := by
  rintro rfl
  exact h (length_eq_zero_iff.mp (Nat.le_zero.mp hle))

/-- **What stands before a verb is read alike**, whatever comes after the verb. -/
theorem takeSpec_followed (cs ds : List Char) (hrest : (takeSpec cs).2 ≠ []) :
    takeSpec (cs ++ ds) = ((takeSpec cs).1, (takeSpec cs).2 ++ ds) := by
  have hnumber : (takeNumber (takeFlags {} cs).2).2 ≠ [] := ne_nil_of_length_le hrest (takePrecision_length _)
  have hflags : (takeFlags {} cs).2 ≠ [] := ne_nil_of_length_le hnumber (takeNumber_length _)
  simp only [takeSpec, takeFlags_followed {} cs ds hflags, takeNumber_followed _ ds hnumber,
    takePrecision_followed (takeNumber (takeFlags {} cs).2).2 ds hrest]

theorem parse_directive {cs rest : List Char} {spec : Spec} {verb : Char} (h : takeSpec cs = (spec, verb :: rest)) :
    parse ('%' :: cs) = (if verb = '%' then .percent else .directive spec verb) :: parse rest := by
  rw [parse, if_pos rfl]
  split
  · next heq => rw [h] at heq; cases heq
  · next heq => rw [h] at heq; cases heq; rfl

/-! ## Filling -/

/-- Does a piece take an argument? -/
def Piece.isDirective : Piece → Bool
  | .directive _ _ => true
  | _ => false

/-- **How a template is filled with its arguments**: characters stand for themselves, `%%` takes no argument, and a
directive is replaced by what it makes of the next one. -/
inductive Filled (h : Heap) : List Char → List Value → String → Prop
  | nil : Filled h [] [] ""
  | char {c cs xs s} (hc : c ≠ '%') (rest : Filled h cs xs s) : Filled h (c :: cs) xs (c.toString ++ s)
  | percent {ds spec cs xs s} (hspec : takeSpec ds = (spec, '%' :: cs)) (rest : Filled h cs xs s) :
    Filled h ('%' :: ds) xs ("%" ++ s)
  | directive {ds spec verb cs x xs s} (hspec : takeSpec ds = (spec, verb :: cs)) (hverb : verb ≠ '%')
    (rest : Filled h cs xs s) : Filled h ('%' :: ds) (x :: xs) (render h spec verb x ++ s)

theorem push_append (s t : String) (c : Char) : s.push c ++ t = s ++ (c.toString ++ t) := by
  rw [String.push_eq_append, String.append_assoc]
  rfl

/-- **A template that ends outside a directive is filled on its own** with as many arguments as it has directives: the
rest begins with the arguments after them, unless there is no room. -/
theorem fill_part (hend : Piece.noVerb ∉ parse cs) (hcount : (parse cs).countP Piece.isDirective = xs.length)
    (ds : List Char) (ys : List Value) (out : String) : fill h (parse (cs ++ ds)) (xs ++ ys) out = .error .textLimit ∨
      ∃ s, Filled h cs xs s ∧ fill h (parse cs) xs out = .ok (out ++ s, []) ∧
        fill h (parse (cs ++ ds)) (xs ++ ys) out = fill h (parse ds) ys (out ++ s) := by
  fun_induction parse cs generalizing xs out with
  | case1 =>
    cases length_eq_zero_iff.mp hcount.symm
    exact .inr ⟨"", .nil, by rw [String.append_empty]; rfl, by rw [String.append_empty]; rfl⟩
  | case2 cs spec hspec => simp at hend
  | case3 cs spec verb rest hspec ih =>
    have happend : takeSpec (cs ++ ds) = (spec, verb :: (rest ++ ds)) := by
      rw [takeSpec_followed cs ds (by simp [hspec]), hspec]
      rfl
    replace ih := fun {xs} => @ih xs fun hmem => hend (mem_cons_of_mem _ hmem)
    rw [cons_append, parse_directive happend]
    by_cases hverb : verb = '%'
    · subst hverb
      refine (ih (by simpa [Piece.isDirective] using hcount) (out.push '%')).imp id ?_
      rintro ⟨s, hs, hpart, hall⟩
      rw [push_append] at hpart hall
      exact ⟨_, .percent hspec hs, hpart, hall⟩
    · rw [if_neg hverb] at hcount ⊢
      rw [countP_cons_of_pos rfl] at hcount
      obtain ⟨x, xs, rfl⟩ := exists_cons_of_length_eq_add_one hcount.symm
      have hfill (ps : List Piece) (zs : List Value) : fill h (.directive spec verb :: ps) (x :: zs) out =
          if Limits.textSize - out.utf8ByteSize < spec.requested then .error .textLimit
          else if Limits.textSize < (out ++ render h spec verb x).utf8ByteSize then .error .textLimit
          else fill h ps zs (out ++ render h spec verb x) := rfl
      rw [cons_append, hfill, hfill]
      split
      · exact .inl rfl
      · split
        · exact .inl rfl
        · refine (ih (Nat.succ.inj hcount) _).imp id ?_
          rintro ⟨s, hs, hpart, hall⟩
          rw [String.append_assoc] at hpart hall
          exact ⟨_, .directive hspec hverb hs, hpart, hall⟩
  | case4 c cs hc ih =>
    rw [cons_append, parse, if_neg hc]
    refine (ih (fun hmem => hend (mem_cons_of_mem _ hmem)) (by simpa [Piece.isDirective] using hcount)
      (out.push c)).imp id ?_
    rintro ⟨s, hs, hpart, hall⟩
    rw [push_append] at hpart hall
    exact ⟨_, .char hc hs, hpart, hall⟩

/-- **What was written before** only takes room away, and nothing else makes filling fail. -/
theorem fill_after (front : String) (ps : List Piece) (args : List Value) (out : String) :
    fill h ps args (front ++ out) = .error .textLimit ∨
      ∃ t rest, fill h ps args (front ++ out) = .ok (front ++ t, rest) ∧ fill h ps args out = .ok (t, rest) := by
  induction ps generalizing args out with
  | nil => exact .inr ⟨out, args, rfl, rfl⟩
  | cons p ps ih =>
    have hpush (c : Char) : (front ++ out).push c = front ++ out.push c := by
      rw [String.push_eq_append, String.append_assoc, ← String.push_eq_append]
    cases p with
    | char c => simpa only [fill, hpush] using ih args (out.push c)
    | percent => simpa only [fill, hpush] using ih args (out.push '%')
    | noVerb => simpa only [fill, String.append_assoc] using ih args (out ++ "%!(NOVERB)")
    | directive spec verb =>
      simp only [fill, String.utf8ByteSize_append]
      split
      · exact .inl rfl
      · split
        · exact .inl rfl
        · rw [if_neg (by omega), if_neg (by omega), String.append_assoc]
          exact ih ..

/-! ## Composition -/

theorem format_of_fill (hfill : fill h (parse f.toList) xs "" = .ok (s, rest))
    (hsize : (s ++ surplus h rest).utf8ByteSize ≤ Limits.textSize) : format h f xs = .ok (s ++ surplus h rest) := by
  simp only [format, hfill]
  exact if_neg (Nat.not_lt.mpr hsize)

/-- **Templates compose.** A template that ends outside a directive and has as many arguments as directives is filled on
its own, whatever follows it: unless there is no room, the whole gives its text and then that of the rest, which alone
shows missing and surplus arguments. -/
theorem format_composes {h : Heap} (f g : String) (xs ys : List Value) (hend : Piece.noVerb ∉ parse f.toList)
    (hcount : (parse f.toList).countP Piece.isDirective = xs.length)
    (hroom : format h (f ++ g) (xs ++ ys) ≠ .error .textLimit) : ∃ s t, Filled h f.toList xs s ∧
      format h f xs = .ok s ∧ format h g ys = .ok t ∧ format h (f ++ g) (xs ++ ys) = .ok (s ++ t) := by
  have hfails (hfill : fill h (parse (f ++ g).toList) (xs ++ ys) "" = .error .textLimit) : False :=
    hroom (by rw [format, hfill]; rfl)
  rw [String.toList_append] at hfails
  obtain ⟨s, hs, hpart, hall⟩ := (fill_part hend hcount g.toList ys "").resolve_left hfails
  rw [String.empty_append] at hpart hall
  rw [hall] at hfails
  obtain ⟨t, rest, hwhole, ht⟩ := (fill_after s (parse g.toList) ys "").resolve_left (by rwa [String.append_empty])
  rw [String.append_empty] at hwhole
  rw [hwhole, ← String.toList_append] at hall
  have hsize : (s ++ t ++ surplus h rest).utf8ByteSize ≤ Limits.textSize := by
    refine Nat.not_lt.mp fun hlt => hroom ?_
    rw [format, hall]
    exact if_pos hlt
  have hsize' := hsize
  rw [String.append_assoc, String.utf8ByteSize_append] at hsize'
  refine ⟨s, t ++ surplus h rest, hs, ?_, format_of_fill ht (by omega), ?_⟩
  · simpa [surplus] using format_of_fill hpart (by simp [surplus]; omega)
  · rw [format_of_fill hall hsize, String.append_assoc]

/-- A directive and a percent sign, before one that lacks its argument. -/
theorem percentage_composes : ∃ s t, Filled {} "%+d%%".toList [.int 7] s ∧
    format {} "%+d%%" [.int 7] = .ok s ∧ format {} " %d" [] = .ok t ∧
      format {} ("%+d%%" ++ " %d") ([.int 7] ++ []) = .ok (s ++ t) :=
  format_composes _ _ _ _ (by decide +kernel) (by decide +kernel) (by decide +kernel)

end Scripting.Format
