import Scripting.Source
/-!
# `Diagnostic` — reporting errors to people

A diagnostic is a message about a place in the source. Reports of compile errors show the first
message and how many more there are; reports of run-time errors show the message and the places that
led to it, the innermost first.
-/

namespace Scripting

structure Diagnostic where
  message : String
  location : Location := {}
  deriving DecidableEq, Repr

namespace Diagnostic

def placeLine (l : Location) : String := "\n\tat " ++ l.text

def compileText (d : Diagnostic) : String :=
  "Compile Error: " ++ d.message ++ placeLine d.location

/-- All compile errors of a program in short. -/
def summary : List Diagnostic → String
  | [] => "no errors"
  | [only] => only.compileText
  | first :: rest => first.compileText ++ " (and " ++ rest.length.repr ++ " more errors)"

def runText (message : String) (trace : List Location) : String :=
  "Runtime Error: " ++ message ++ String.join (trace.map placeLine)

end Diagnostic

end Scripting
