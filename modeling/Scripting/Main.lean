import Scripting.CommandLine
/-!
# `Main` — the command
-/

/-- Read a file, or say why it cannot be read. -/
def readContent (path : String) : IO (Except String (List UInt8)) := do
  try
    return .ok (← IO.FS.readBinFile path).toList
  catch
    | .noFileOrDirectory .. => return .error "No such file or directory (os error 2)"
    | .permissionDenied .. => return .error "Permission denied (os error 13)"
    | .inappropriateType .. => return .error "Is a directory (os error 21)"
    | e => return .error (toString e)

def main (args : List String) : IO UInt32 := do
  let reply ← Scripting.CommandLine.answer readContent Scripting.Machine.ampleFuel
    (Scripting.CommandLine.parse args)
  (← IO.getStdout).putStr reply.out
  (← IO.getStderr).putStr reply.err
  return UInt32.ofNat reply.code
