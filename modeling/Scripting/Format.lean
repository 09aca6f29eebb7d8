import Scripting.Value.Convert
import Scripting.Value.Error
import Scripting.Value.Text
/-!
# `Format` — text from a template

A template is text with directives. A directive starts with `%`, may have the flags `-` (fill on the
right), `+` (always a sign) and `0` (fill with zeros), a width and a precision, and ends with a
*verb*:

* `%v` any value, `%s` the same, `%d` an integer or the number of a character, `%f` a number with a
  fraction, `%t` a truth value, `%c` a character, `%q` quoted text, `%x` and `%X` hexadecimal;
* `%%` is a percent sign and takes no argument.

A directive that does not fit its argument, lacks one, or lacks its verb does not fail; what is wrong
is written in its place. Arguments left over are listed at the end. A template is first split into
pieces (`Format.parse`), which are then filled in order (`Format.fill`).
-/

namespace Scripting.Format

structure Spec where
  left : Bool := false
  plus : Bool := false
  zero : Bool := false
  width : Option Nat := none
  precision : Option Nat := none
  deriving DecidableEq, Repr

inductive Piece
  /-- A character that stands for itself. -/
  | char (c : Char)
  | percent
  | directive (spec : Spec) (verb : Char)
  /-- The template ends inside a directive. -/
  | noVerb
  deriving DecidableEq, Repr

/-! ## Splitting a template -/

def takeFlags (spec : Spec) : List Char → Spec × List Char
  | '-' :: cs => takeFlags { spec with left := true } cs
  | '+' :: cs => takeFlags { spec with plus := true } cs
  | '0' :: cs => takeFlags { spec with zero := true } cs
  | cs => (spec, cs)

def takeNumber (cs : List Char) : Option Nat × List Char :=
  let (ds, rest) := Decimal.spanDigits cs
  (if ds.isEmpty then none else some (Decimal.digitsValue ds), rest)

/-- Read a precision: a point and a number, which is zero if left out. -/
def takePrecision : List Char → Option Nat × List Char
  | '.' :: cs => ((takeNumber cs).1.getD 0, (takeNumber cs).2)
  | cs => (none, cs)

/-- Read everything between the percent sign and the verb. -/
def takeSpec (cs : List Char) : Spec × List Char :=
  let (spec, cs) := takeFlags {} cs
  let (width, cs) := takeNumber cs
  let (precision, cs) := takePrecision cs
  ({ spec with width, precision }, cs)

theorem takeFlags_length (spec : Spec) (cs : List Char) :
    (takeFlags spec cs).2.length ≤ cs.length := by
  fun_induction takeFlags spec cs with
  | case1 spec cs ih => exact Nat.le_trans ih (by simp)
  | case2 spec cs ih => exact Nat.le_trans ih (by simp)
  | case3 spec cs ih => exact Nat.le_trans ih (by simp)
  | case4 => exact Nat.le_refl _

theorem takeNumber_length (cs : List Char) : (takeNumber cs).2.length ≤ cs.length := by
  simp only [takeNumber, Decimal.spanDigits]
  exact (List.dropWhile_sublist _).length_le

theorem takePrecision_length (cs : List Char) : (takePrecision cs).2.length ≤ cs.length := by
  unfold takePrecision
  split
  · exact Nat.le_trans (takeNumber_length _) (by simp)
  · simp

theorem takeSpec_length (cs : List Char) : (takeSpec cs).2.length ≤ cs.length :=
  Nat.le_trans (takePrecision_length _)
    (Nat.le_trans (takeNumber_length _) (takeFlags_length _ _))

def parse (cs : List Char) : List Piece :=
  match cs with
  | [] => []
  | c :: cs =>
    if c = '%' then
      match _h : takeSpec cs with
      | (_, []) => [.noVerb]
      | (spec, verb :: rest) => (if verb = '%' then .percent else .directive spec verb) :: parse rest
    else .char c :: parse cs
termination_by cs.length
decreasing_by
  · have := takeSpec_length cs
    rw [_h] at this
    simp only [List.length_cons] at this ⊢
    omega
  · simp

/-! ## Filling a directive -/

/-- Fill a text up to the width. Zeros go after a sign. -/
def Spec.pad (spec : Spec) (body : String) : String :=
  let cs := body.toList
  match spec.width with
  | none => body
  | some width =>
    let fill := width - cs.length
    if spec.left then body ++ String.ofList (List.replicate fill ' ')
    else if spec.zero then
      let (sign, digits) : List Char × List Char :=
        match cs with
        | '-' :: ds => (['-'], ds)
        | '+' :: ds => (['+'], ds)
        | ds => ([], ds)
      String.ofList (sign ++ List.replicate fill '0' ++ digits)
    else String.ofList (List.replicate fill ' ') ++ body

/-- Put a plus sign in front of a number that is not negative, if the flag asks for it. -/
def Spec.signed (spec : Spec) (negative : Bool) (body : String) : String :=
  if spec.plus && !negative then "+" ++ body else body

def caseOf (upper : Bool) (c : Char) : Char := if upper then c.toUpper else c

/-- An integer in hexadecimal, with a sign in front if it is negative. -/
def hexInt (upper : Bool) (n : Int64) : String :=
  let digits := String.ofList ((Nat.toDigits 16 n.toInt.natAbs).map (caseOf upper))
  if n < 0 then "-" ++ digits else digits

/-- Bytes in hexadecimal, two digits each. -/
def hexBytes (upper : Bool) (bs : List UInt8) : String :=
  String.ofList (bs.flatMap fun b =>
    [Nat.digitChar (b.toNat / 16), Nat.digitChar (b.toNat % 16)].map (caseOf upper))

/-- What stands in place of a directive that does not fit its argument. -/
def misfit (h : Heap) (verb : Char) (arg : Value) : String :=
  "%!" ++ verb.toString ++ "(" ++ arg.typeName h ++ "=" ++ arg.plain h ++ ")"

/-- The text for an argument before it is filled up to the width; `none` if the verb does not fit. -/
def body? (h : Heap) (spec : Spec) (verb : Char) (arg : Value) : Option String :=
  let signedFloat := fun (x : Flonum) (text : String) => spec.signed (x.lt ⟨0⟩) text
  let plain := match spec.precision with
    | some p => String.ofList ((arg.plain h).toList.take p)
    | none => arg.plain h
  match verb, arg with
  | 'v', .float x => some (signedFloat x (match spec.precision with
    | some p => x.textFixed p
    | none => x.text))
  | 'f', .float x => some (signedFloat x (x.textFixed (spec.precision.getD 6)))
  | 'f', .int n =>
    some (spec.signed (n < 0) ((Flonum.ofInt n.toInt).textFixed (spec.precision.getD 6)))
  | 'v', .int n | 'd', .int n => some (spec.signed (n < 0) (Integer.text n))
  | 'd', .char c => some c.toNat.repr
  | 'v', _ | 's', _ => some plain
  | 'q', .str s => some (Text.quoted s)
  | 'q', .char c => some (Text.quotedChar c)
  | 't', .bool b => some (if b then "true" else "false")
  | 'c', .char c => some c.toString
  | 'c', .int n => some (match arg.toChar? with
    | some c => c.toString
    | none => "%!c(int=" ++ Integer.text n ++ ")")
  | 'x', .int n => some (hexInt false n)
  | 'X', .int n => some (hexInt true n)
  | 'x', .str s => some (hexBytes false (Text.encode s))
  | 'X', .str s => some (hexBytes true (Text.encode s))
  | 'x', .bytes r => some (hexBytes false (h.bytesAt r).toList)
  | 'X', .bytes r => some (hexBytes true (h.bytesAt r).toList)
  | _, _ => none

def render (h : Heap) (spec : Spec) (verb : Char) (arg : Value) : String :=
  match body? h spec verb arg with
  | some body => spec.pad body
  | none => misfit h verb arg

/-! ## Filling a template -/

/-- The larger of width and precision: the least size of the text that a directive asks for. -/
def Spec.requested (spec : Spec) : Nat := max (spec.width.getD 0) (spec.precision.getD 0)

/-- The text for one directive and the arguments after it. -/
def fillDirective (h : Heap) (spec : Spec) (verb : Char) : List Value → String × List Value
  | [] => ("%!" ++ verb.toString ++ "(MISSING)", [])
  | arg :: args => (render h spec verb arg, args)

/-- Fill the pieces of a template, given the text so far. The result has the arguments that are left
over. A directive may not ask for more text than the limit leaves room for. -/
def fill (h : Heap) : List Piece → List Value → String → Except ValueError (String × List Value)
  | [], args, out => .ok (out, args)
  | .char c :: ps, args, out => fill h ps args (out.push c)
  | .percent :: ps, args, out => fill h ps args (out.push '%')
  | .noVerb :: ps, args, out => fill h ps args (out ++ "%!(NOVERB)")
  | .directive spec verb :: ps, args, out =>
    if Limits.textSize - out.utf8ByteSize < spec.requested then .error .textLimit
    else
      let (text, args) := fillDirective h spec verb args
      let out := out ++ text
      if Limits.textSize < out.utf8ByteSize then .error .textLimit else fill h ps args out

def surplus (h : Heap) (args : List Value) : String :=
  if args.isEmpty then ""
  else
    "%!(EXTRA " ++ ", ".intercalate (args.map fun a => a.typeName h ++ "=" ++ a.plain h) ++ ")"

/-- **Fill a template with arguments.** -/
def format (h : Heap) (template : String) (args : List Value) : Except ValueError String := do
  let (out, rest) ← fill h (parse template.toList) args ""
  let out := out ++ surplus h rest
  if Limits.textSize < out.utf8ByteSize then throw .textLimit else return out

end Scripting.Format
