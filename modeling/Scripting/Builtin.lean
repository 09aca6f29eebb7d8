/-!
# `Builtin` — the built-in functions

The list of built-in functions is fixed. Instructions refer to a built-in by its place in
`Builtin.all`, so the order of the list is part of the code format.
-/

namespace Scripting

/-- The built-in functions, in the order of their numbers. -/
inductive Builtin
  | len | copy | append | delete | splice
  | string | int | bool | float | char | bytes | time
  | isInt | isFloat | isString | isBool | isChar | isBytes | isArray | isImmutableArray | isMap
  | isImmutableMap | isIterable | isTime | isError | isUndefined | isFunction | isCallable
  | typeName | format | range
  deriving DecidableEq, Repr

namespace Builtin

/-- Every built-in function, in the order of the numbers. -/
def all : List Builtin := [
  len, copy, append, delete, splice, string, int, bool, float, char, bytes, time, isInt, isFloat,
  isString, isBool, isChar, isBytes, isArray, isImmutableArray, isMap, isImmutableMap, isIterable,
  isTime, isError, isUndefined, isFunction, isCallable, typeName, format, range]

def name : Builtin → String
  | len => "len"
  | copy => "copy"
  | append => "append"
  | delete => "delete"
  | splice => "splice"
  | string => "string"
  | int => "int"
  | bool => "bool"
  | float => "float"
  | char => "char"
  | bytes => "bytes"
  | time => "time"
  | isInt => "is_int"
  | isFloat => "is_float"
  | isString => "is_string"
  | isBool => "is_bool"
  | isChar => "is_char"
  | isBytes => "is_bytes"
  | isArray => "is_array"
  | isImmutableArray => "is_immutable_array"
  | isMap => "is_map"
  | isImmutableMap => "is_immutable_map"
  | isIterable => "is_iterable"
  | isTime => "is_time"
  | isError => "is_error"
  | isUndefined => "is_undefined"
  | isFunction => "is_function"
  | isCallable => "is_callable"
  | typeName => "type_name"
  | format => "format"
  | range => "range"

def index (b : Builtin) : Nat := b.ctorIdx

def ofIndex? (i : Nat) : Option Builtin := all[i]?

def ofName? (s : String) : Option Builtin := all.find? (fun b => b.name == s)

@[simp] theorem ofIndex?_index (b : Builtin) : ofIndex? b.index = some b := by
  cases b <;> rfl

end Builtin

end Scripting
