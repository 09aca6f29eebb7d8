import Scripting.Flonum.Reader
import Scripting.Heap
import Scripting.Integer
import Scripting.Text.Blank
import Scripting.Text.Utf8
/-!
# `Value.Convert` — conversions between kinds of values

Each conversion gives `none` where the value has no counterpart of the wanted kind. Texts are read
as numbers after blanks at both ends have been dropped.
-/

namespace Scripting.Value

def toInt? : Value → Option Int64
  | int n => some n
  | float x => some x.truncate
  | char c => some (Int64.ofNat c.toNat)
  | bool b => some (if b then 1 else 0)
  | str s => Integer.ofText? (Text.trim s)
  | _ => none

def toFloat? : Value → Option Flonum
  | int n => some (Flonum.ofInt n.toInt)
  | float x => some x
  | str s => Flonum.ofText? (Text.trim s)
  | _ => none

def toChar? : Value → Option Char
  | char c => some c
  | int n => Integer.toChar? n.toInt
  | str s =>
    match s.toList with
    | [c] => some c
    | _ => none
  | _ => none

def toBytes? (h : Heap) : Value → Option (Array UInt8)
  | bytes r => some (h.bytesAt r)
  | str s => some (Text.encode s).toArray
  | _ => none

def toTime? : Value → Option Instant
  | time t => some t
  | int n => Instant.ofSeconds? n.toInt
  | _ => none

end Scripting.Value
