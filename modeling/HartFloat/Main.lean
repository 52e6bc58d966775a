import HartFloat.CommandLine
import HartFloat.Elf.Parser

/-!
# The program

Reads the file to inspect, if there is one, and prints what the command line answers.
-/
namespace HartFloat.CommandLine

def contentsOf (path : String) : IO (Except ReadError Elf.Bytes) := do
  match ← (IO.FS.readBinFile path).toBaseIO with
  | .ok bytes => return .ok bytes.toList
  | .error (.noFileOrDirectory ..) => return .error .notFound
  | .error (.inappropriateType ..) => return .error .isDirectory
  | .error (.permissionDenied ..) => return .error .denied
  | .error e => return .error (.other (toString e))

end HartFloat.CommandLine

open HartFloat HartFloat.CommandLine in
def main (args : List String) : IO UInt32 := do
  let contents ← match inspectedFile? args with
    | some path => contentsOf path
    | none => pure (.error .notFound)
  let response := respond Backend.Host.canonical () Elf.parse (fun _ => contents) args
  (← IO.getStdout).putStr response.output
  (← IO.getStderr).putStr response.errors
  return response.code.toUInt32
