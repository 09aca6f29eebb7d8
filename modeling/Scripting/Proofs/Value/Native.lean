import Scripting.Builtin.Call
import Scripting.Proofs.Value.Operation
/-!
# `Proofs.Value.Native` — built-in functions respect the renamings

The text of a value does not show which function it is, so templates are filled alike; the other
built-in functions are operations on containers and conversions. Functions of the host are not part of
the program: a host is *uniform* if its functions respect the correspondence too.
-/

namespace Scripting

open Renaming List

variable {ρ : Renaming} {h k : Heap} {v w : Value}

/-! ## Text -/

namespace Renamed

theorem textAt (hj : ρ.Joins h k) : ∀ (fuel depth : Nat) {v w : Value}, Renamed ρ v w →
    w.textAt k fuel depth = v.textAt h fuel depth := by
  intro fuel
  induction fuel with
  | zero => intro depth v w _; rfl
  | succ fuel ih =>
    intro depth v w hv
    cases hv with
    | bytes hr => simp only [Value.textAt, hj.bytes hr]
    | array hr _ =>
      have hmap := map_eq_of_rel (fun a b hab => ih (depth + 1) hab) (hj.array hr)
      simp only [Value.textAt, hmap]
    | map hr _ =>
      have hmap := map_eq_of_rel (R := RenamedEntry ρ) (f := fun e => e.1 ++ ": " ++ e.2.textAt h fuel (depth + 1))
        (g := fun e => e.1 ++ ": " ++ e.2.textAt k fuel (depth + 1))
        (fun a b hab => by rw [hab.1, ih (depth + 1) hab.2]) (hj.map hr)
      simp only [Value.textAt, hmap]
    | @error r s hr =>
      have hp := hj.error hr
      have htext := ih (depth + 1) hp
      simp only [Value.textAt]
      generalize h.errorAt r = p, k.errorAt s = q at hp htext ⊢
      cases hp <;> simp only [htext]
    | iterator hr _ => simp only [Value.textAt, (hj.iterator hr).typeName]
    | _ => rfl

theorem plain (hj : ρ.Joins h k) (hv : Renamed ρ v w) : w.plain k = v.plain h := by
  have htext : w.text k = v.text h := textAt hj _ _ hv
  cases hv with
  | str s => rfl
  | _ => exact htext

end Renamed

/-! ## Templates -/

namespace Format

/-- The values of which a template shows nothing but the plain text. -/
def onlyPlain : Value → Bool
  | .int _ | .float _ | .char _ | .bool _ | .str _ | .bytes _ => false
  | _ => true

theorem body?_onlyPlain (harg : onlyPlain arg = true) : body? h spec verb arg =
      if verb = 'v' ∨ verb = 's' then some (match spec.precision with
        | some p => String.ofList ((arg.plain h).toList.take p)
        | none => arg.plain h) else none := by
  by_cases hv : verb = 'v'
  · subst hv
    cases arg <;> first | contradiction | rfl
  by_cases hs : verb = 's'
  · subst hs
    cases arg <;> first | contradiction | rfl
  rw [if_neg (not_or.mpr ⟨hv, hs⟩)]
  unfold body?
  dsimp only
  cases arg <;> first | contradiction | (split <;> first | rfl | contradiction)

theorem body?_renamed (hj : ρ.Joins h k) (hv : Renamed ρ v w) : body? k spec verb w = body? h spec verb v := by
  have hp := Renamed.plain hj hv
  cases hv with
  | bytes hr =>
    have hbytes := hj.bytes hr
    unfold body?
    simp only [hp]
    split <;> simp_all
  | int _ | float _ | char _ | bool _ | str _ =>
    unfold body?
    simp only [hp]
    split <;> first | rfl | contradiction
  | _ => rw [body?_onlyPlain rfl, body?_onlyPlain rfl, hp]

theorem render_renamed (hj : ρ.Joins h k) (hv : Renamed ρ v w) : render k spec verb w = render h spec verb v := by
  unfold render misfit
  rw [body?_renamed hj hv, Renamed.plain hj hv, Renamed.typeName hj hv]

/-- Both give the same text and related arguments, or both fail in the same way. -/
inductive FilledAlike (ρ : Renaming) :
    Except ValueError (String × List Value) → Except ValueError (String × List Value) → Prop
  | ok {out rest rest'} (h : RenamedAll ρ rest rest') : FilledAlike ρ (.ok (out, rest)) (.ok (out, rest'))
  | error (e : ValueError) : FilledAlike ρ (.error e) (.error e)

theorem fillDirective_renamed (hj : ρ.Joins h k) (spec : Spec) (verb : Char) (ha : RenamedAll ρ args args') :
    (fillDirective k spec verb args').1 = (fillDirective h spec verb args).1 ∧
      RenamedAll ρ (fillDirective h spec verb args).2 (fillDirective k spec verb args').2 := by
  cases ha with
  | nil => exact ⟨rfl, .nil⟩
  | cons hab htail => exact ⟨render_renamed hj hab, htail⟩

theorem fill_renamed (hj : ρ.Joins h k) : ∀ (ps : List Piece) (out : String)
    {args args' : List Value}, RenamedAll ρ args args' → FilledAlike ρ (fill h ps args out) (fill k ps args' out)
  | [], out, _, _, ha => .ok ha
  | .char c :: ps, out, _, _, ha => fill_renamed hj ps (out.push c) ha
  | .percent :: ps, out, _, _, ha => fill_renamed hj ps (out.push '%') ha
  | .noVerb :: ps, out, _, _, ha => fill_renamed hj ps (out ++ "%!(NOVERB)") ha
  | .directive spec verb :: ps, out, args, args', ha => by
    have hd := fillDirective_renamed hj spec verb ha
    by_cases hroom : Limits.textSize - out.utf8ByteSize < spec.requested
    · simp only [fill, hroom]
      exact .error _
    · simp only [fill, hroom, hd.1]
      by_cases hlong : Limits.textSize < (out ++ (fillDirective h spec verb args).1).utf8ByteSize
      · simp only [hlong]
        exact .error _
      · simp only [hlong]
        exact fill_renamed hj ps _ hd.2

theorem surplus_renamed (hj : ρ.Joins h k) (ha : RenamedAll ρ args args') : surplus k args' = surplus h args := by
  unfold surplus
  have hmap := map_eq_of_rel (R := Renamed ρ)
    (f := fun a => a.typeName h ++ "=" ++ a.plain h) (g := fun a => a.typeName k ++ "=" ++ a.plain k)
    (fun a b hab => by rw [Renamed.typeName hj hab, Renamed.plain hj hab]) ha
  rw [hmap]
  cases ha <;> rfl

/-- The text of a filled template with the note on arguments left over. -/
def finish (h : Heap) : Except ValueError (String × List Value) → Except ValueError String
  | .error e => .error e
  | .ok (out, rest) =>
    if Limits.textSize < (out ++ surplus h rest).utf8ByteSize then .error .textLimit
    else .ok (out ++ surplus h rest)

theorem format_eq : format h template args = finish h (fill h (parse template.toList) args "") := by
  unfold format
  generalize fill h (parse template.toList) args "" = x
  cases x with
  | error e => rfl
  | ok p => rfl

/-- **Templates are filled alike.** -/
theorem format_renamed (hj : ρ.Joins h k) (template : String) (ha : RenamedAll ρ args args') :
    format k template args' = format h template args := by
  have hf := fill_renamed hj (parse template.toList) "" ha
  rw [format_eq, format_eq]
  generalize fill h (parse template.toList) args "" = x at hf ⊢
  generalize fill k (parse template.toList) args' "" = y at hf ⊢
  cases hf with
  | error e => rfl
  | ok hrest => simp only [finish, surplus_renamed hj hrest]

end Format

/-! ## Built-in functions -/

namespace Builtin

theorem badArgument_renamed (place expected : String) (hv : Renamed ρ v w) :
    ρ.Acts R (badArgument place expected v) (badArgument place expected w) := by
  intro h k hj
  unfold badArgument
  rw [Renamed.typeName hj hv]
  exact .error hj

theorem intArgument_renamed (place : Nat) (hv : Renamed ρ v w) :
    ρ.Acts Eq (intArgument place v) (intArgument place w) := by
  have hbad := badArgument_renamed (R := @Eq Int64) (ordinal place) "int" hv
  cases hv with
  | int n => exact Acts.pure rfl
  | _ => exact hbad

theorem isKind_renamed (b : Builtin) (hv : Renamed ρ v w) : b.isKind w = b.isKind v := by
  cases hv with
  | @array kind _ _ _ _ => cases kind <;> cases b <;> rfl
  | @map kind _ _ _ _ => cases kind <;> cases b <;> rfl
  | _ => cases b <;> rfl

theorem lengthOf_renamed (hv : Renamed ρ v w) : ρ.Acts (Renamed ρ) (lengthOf v) (lengthOf w) := by
  intro h k hj
  have hbad := badArgument_renamed (R := Renamed ρ) "first" "array/string/bytes/map" hv hj
  cases hv with
  | array hr _ =>
    simp only [lengthOf, hj.array_size hr]
    exact .ok (.int _) hj
  | str s => exact .ok (.int _) hj
  | bytes hr =>
    simp only [lengthOf, hj.bytes hr]
    exact .ok (.int _) hj
  | @map _ r s hr _ =>
    have hlen : (k.mapAt s).size = (h.mapAt r).size := (hj.map hr).length_eq.symm
    simp only [lengthOf, hlen]
    exact .ok (.int _) hj
  | _ => exact hbad

theorem appendTo_renamed (hv : Renamed ρ v w) (hm : RenamedAll ρ more more') :
    ρ.Acts (Renamed ρ) (appendTo v more) (appendTo w more') := by
  intro h k hj
  have hi := items?_renamed hj hv
  unfold appendTo
  generalize h.items? v = o, k.items? w = o' at hi ⊢
  cases hi with
  | none => exact badArgument_renamed _ _ hv hj
  | some hx =>
    refine Acts.newArray ?_ hj
    simpa using rel_append hx hm

theorem deleteFrom_renamed (hv : Renamed ρ v w) (hk : Renamed ρ key key') :
    ρ.Acts (Renamed ρ) (deleteFrom v key) (deleteFrom w key') := by
  have hbad := badArgument_renamed (R := Renamed ρ) "first" "map" hv
  have hbadKey := badArgument_renamed (R := Renamed ρ) "second" "string" hk
  cases hv with
  | @map kind r s hr hf =>
    cases kind with
    | frozen => exact hbad
    | mutable =>
      cases hk with
      | str key => exact fun h k hj => .ok .undefined (hj.modifyMap hr (hf rfl) fun hd => RenamedDict.erase hd key)
      | _ => exact hbadKey
  | _ => exact hbad

theorem spliceStart_renamed (length : Nat) (ho : Option.Rel (Renamed ρ) o o') :
    ρ.Acts Eq (spliceStart length o) (spliceStart length o') := by
  cases ho with
  | none => exact Acts.pure rfl
  | some hv =>
    refine Acts.bind (intArgument_renamed 1 hv) ?_
    rintro n _ rfl
    split
    · exact Acts.pure rfl
    · exact Acts.throw

theorem spliceCount_renamed (rest : Nat) (ho : Option.Rel (Renamed ρ) o o') :
    ρ.Acts Eq (spliceCount rest o) (spliceCount rest o') := by
  cases ho with
  | none => exact Acts.pure rfl
  | some hv =>
    refine Acts.bind (intArgument_renamed 2 hv) ?_
    rintro n _ rfl
    split
    · exact Acts.pure rfl
    · exact Acts.throw

theorem spliceArray_renamed (hv : Renamed ρ v w) (ha : RenamedAll ρ args args') :
    ρ.Acts (Renamed ρ) (spliceArray v args) (spliceArray w args') := by
  have hbad := badArgument_renamed (R := Renamed ρ) "first" "array" hv
  cases hv with
  | @array kind r s hr hf =>
    cases kind with
    | frozen => exact hbad
    | mutable =>
      refine Acts.bind (R := fun xs ys => RenamedAll ρ xs.toList ys.toList)
        (Acts.read fun _ _ hj => hj.array hr) fun xs ys hx => ?_
      have hsize : ys.size = xs.size := by simpa using hx.length_eq.symm
      rw [hsize]
      refine Acts.bind (spliceStart_renamed _ (getElem?_rel ha 0)) ?_
      rintro start _ rfl
      refine Acts.bind (spliceCount_renamed _ (getElem?_rel ha 1)) ?_
      rintro count _ rfl
      refine Acts.bind (R := fun _ _ => True) ?_ fun _ _ _ => Acts.newArray ?_
      · intro h k hj
        refine .ok trivial (hj.setArray hr (hf rfl) ?_)
        simp only [Array.toList_append, hsize]
        exact rel_append (rel_append (extract_rel hx ..) (forall₂_drop 2 ha)) (extract_rel hx _ _)
      · exact extract_rel hx ..
  | _ => exact hbad

theorem rangeOf_renamed : ρ.Acts (Renamed ρ) (rangeOf start stop step) (rangeOf start stop step) := by
  unfold rangeOf
  split
  · exact Acts.throw
  · dsimp only
    split
    · exact Acts.throw
    · refine Acts.newArray (forall₂_same.mpr ?_)
      intro v hv
      simp only [Array.toList_ofFn, mem_ofFn] at hv
      obtain ⟨i, rfl⟩ := hv
      exact .int _

theorem rangeArguments_renamed (hs : Renamed ρ start start') (ht : Renamed ρ stop stop')
    (ho : Option.Rel (Renamed ρ) step step') :
    ρ.Acts (Renamed ρ) (rangeArguments start stop step) (rangeArguments start' stop' step') := by
  refine Acts.bind (intArgument_renamed 0 hs) ?_
  rintro a _ rfl
  refine Acts.bind (intArgument_renamed 1 ht) ?_
  rintro z _ rfl
  cases ho with
  | none => exact rangeOf_renamed
  | some hv =>
    refine Acts.bind (intArgument_renamed 2 hv) ?_
    rintro s _ rfl
    exact rangeOf_renamed

theorem bytesOf_renamed (hv : Renamed ρ v w) (hx : Renamed ρ x y) :
    ρ.Acts (Renamed ρ) (bytesOf v x) (bytesOf w y) := by
  cases hv with
  | int n =>
    unfold bytesOf
    dsimp only
    split
    · exact Acts.throw
    · split
      · exact Acts.throw
      · exact Acts.newBytes _
  | bytes hr => exact Acts.pure (.bytes hr)
  | str s => exact Acts.newBytes _
  | _ => exact Acts.pure hx

theorem elim_renamed {f : α → Value} (hf : ∀ a, Renamed ρ (f a) (f a)) (hx : Renamed ρ x y) (o : Option α) :
    Renamed ρ (o.elim x f) (o.elim y f) := by
  cases o with
  | none => exact hx
  | some a => exact hf a

theorem convert_renamed (b : Builtin) {x y : Value} (hv : Renamed ρ v w) (hx : Renamed ρ x y) :
    ρ.Acts (Renamed ρ) (b.convert v x) (b.convert w y) := by
  intro h k hj
  have hint : w.toInt? = v.toInt? := by cases hv <;> rfl
  have hfloat : w.toFloat? = v.toFloat? := by cases hv <;> rfl
  have hchar : w.toChar? = v.toChar? := by cases hv <;> rfl
  have htime : w.toTime? = v.toTime? := by cases hv <;> rfl
  have hplain := Renamed.plain hj hv
  unfold convert
  split
  · cases hv with
    | undefined => exact .ok hx hj
    | _ =>
      dsimp only
      rw [hplain]
      exact .ok (.str _) hj
  · rw [hint]; exact .ok (elim_renamed .int hx _) hj
  · rw [hfloat]; exact .ok (elim_renamed .float hx _) hj
  · rw [hchar]; exact .ok (elim_renamed .char hx _) hj
  · rw [htime]; exact .ok (elim_renamed .time hx _) hj
  · exact bytesOf_renamed hv hx hj

theorem formatOf_renamed (hv : Renamed ρ v w) (ha : RenamedAll ρ args args') :
    ρ.Acts (Renamed ρ) (formatOf v args) (formatOf w args') := by
  have hbad := badArgument_renamed (R := Renamed ρ) "format" "string" hv
  cases hv with
  | str t =>
    intro h k hj
    have hf := Format.format_renamed hj t ha
    have hfilled : ρ.Results (Renamed ρ) (Action.ofExcept ((Format.format h t args).map .str) h)
        (Action.ofExcept ((Format.format k t args').map .str) k) := by
      rw [hf]
      cases Format.format h t args with
      | error e => exact .error hj
      | ok s => exact .ok (.str s) hj
    cases ha with
    | nil => exact .ok (.str t) hj
    | cons _ _ => exact hfilled
  | _ => exact hbad

theorem kind_renamed (b : Builtin) (hv : Renamed ρ v w) : ρ.Acts (Renamed ρ)
    (pure (.bool (b.isKind v)) : Action Value) (pure (.bool (b.isKind w))) := by
  rw [isKind_renamed b hv]
  exact Acts.pure (.bool _)

theorem call_one (b : Builtin) (ha : Renamed ρ a a') : ρ.Acts (Renamed ρ) (b.call [a]) (b.call [a']) := by
  cases b with
  | len => exact lengthOf_renamed ha
  | copy => exact copy_renamed ha
  | append => exact appendTo_renamed ha .nil
  | splice => exact spliceArray_renamed ha .nil
  | string => exact convert_renamed .string ha .undefined
  | int => exact convert_renamed .int ha .undefined
  | float => exact convert_renamed .float ha .undefined
  | char => exact convert_renamed .char ha .undefined
  | bytes => exact convert_renamed .bytes ha .undefined
  | time => exact convert_renamed .time ha .undefined
  | bool =>
    refine Acts.read fun h k hj => ?_
    rw [Renamed.isFalsy hj ha]
    exact .bool _
  | typeName =>
    refine Acts.read fun h k hj => ?_
    rw [Renamed.typeName hj ha]
    exact .str _
  | format => exact formatOf_renamed ha .nil
  | delete | range => exact Acts.throw
  | _ => exact kind_renamed _ ha

theorem call_two (b : Builtin) (ha : Renamed ρ a a') (hc : Renamed ρ c c') :
    ρ.Acts (Renamed ρ) (b.call [a, c]) (b.call [a', c']) := by
  cases b with
  | append => exact appendTo_renamed ha (.cons hc .nil)
  | delete => exact deleteFrom_renamed ha hc
  | splice => exact spliceArray_renamed ha (.cons hc .nil)
  | string => exact convert_renamed .string ha hc
  | int => exact convert_renamed .int ha hc
  | float => exact convert_renamed .float ha hc
  | char => exact convert_renamed .char ha hc
  | bytes => exact convert_renamed .bytes ha hc
  | time => exact convert_renamed .time ha hc
  | format => exact formatOf_renamed ha (.cons hc .nil)
  | range => exact rangeArguments_renamed ha hc .none
  | _ => exact Acts.throw

/-- **Built-in functions do the same to corresponding arguments.** -/
theorem call_renamed (b : Builtin) (ha : RenamedAll ρ args args') :
    ρ.Acts (Renamed ρ) (b.call args) (b.call args') := by
  cases ha with
  | nil => cases b <;> exact Acts.throw
  | cons h1 ht =>
    cases ht with
    | nil => exact call_one b h1
    | cons h2 ht =>
      cases ht with
      | nil => exact call_two b h1 h2
      | cons h3 ht =>
        have hmore := Forall₂.cons h2 (Forall₂.cons h3 ht)
        cases b with
        | append => exact appendTo_renamed h1 hmore
        | splice => exact spliceArray_renamed h1 hmore
        | format => exact formatOf_renamed h1 hmore
        | range =>
          cases ht with
          | nil => exact rangeArguments_renamed h1 h2 (.some h3)
          | cons _ _ => exact Acts.throw
        | _ => exact Acts.throw

end Builtin

/-! ## Functions of the host -/

/-- **A parametric host**: its functions give results that correspond for arguments that do, under every
renaming. They may hold on to arguments, make objects and change those that they are given, but they neither
make compiled functions nor look into them, and they see of a reference only what it refers to. -/
def ParametricHost (host : String → List Value → Action Value) : Prop :=
  ∀ (ρ : Renaming) (name : String) (args args' : List Value), RenamedAll ρ args args' →
    ρ.Acts (Renamed ρ) (host name args) (host name args')

end Scripting
