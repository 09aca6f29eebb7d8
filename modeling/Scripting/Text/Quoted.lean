import Scripting.Text.Graphic
/-!
# `Text.Quoted` — texts and characters in quotes

A quoted text stands between double quotes, a quoted character between single ones. Inside, the
enclosing quote, the backslash and four control characters have short escapes, and every other
character without a shape of its own is written as `\u{…}` with its code point in hexadecimal.
-/

namespace Scripting.Text

/-- A code point in lower-case hexadecimal. -/
def hexNumber (n : Nat) : List Char := Nat.toDigits 16 n

/-- One character as it stands between the given quotes. -/
def escape (quote c : Char) : List Char :=
  if c == Char.ofNat 0 then ['\\', '0']
  else if c == '\t' then ['\\', 't']
  else if c == '\r' then ['\\', 'r']
  else if c == '\n' then ['\\', 'n']
  else if c == '\\' || c == quote then ['\\', c]
  else if isGraphic c then [c]
  else ['\\', 'u', Char.ofNat 0x7b] ++ hexNumber c.toNat ++ [Char.ofNat 0x7d]

def doubleQuote : Char := Char.ofNat 0x22

def singleQuote : Char := Char.ofNat 0x27

def quoted (s : String) : String :=
  String.ofList (doubleQuote :: (s.toList.flatMap (escape doubleQuote) ++ [doubleQuote]))

def quotedChar (c : Char) : String :=
  String.ofList (singleQuote :: (escape singleQuote c ++ [singleQuote]))

end Scripting.Text
