import ObjectMachine.CommandLine

/-!
# The program
-/

namespace ObjectMachine

def readFailure (e : IO.Error) : String :=
  match e with
  | .noFileOrDirectory _ _ _ => "No such file or directory (os error 2)"
  | .permissionDenied _ code _ => s!"Permission denied (os error {code})"
  | .inappropriateType _ code _ => s!"Is a directory (os error {code})"
  | e => toString e

/-- The content of a file or the reason why it cannot be read. -/
def readImage (path : String) : IO (Except String (List UInt8)) := do
  try
    return .ok (← IO.FS.readBinFile path).toList
  catch e =>
    return .error (readFailure e)

end ObjectMachine

open ObjectMachine in
def main (args : List String) : IO UInt32 := do
  let content ← match CommandLine.Options.parse args with
    | some ⟨some path, false, _, _⟩ => readImage path
    | _ => pure (.error "")
  let outcome := CommandLine.respond args fun _ => content
  IO.print outcome.stdout
  IO.eprint outcome.stderr
  return UInt32.ofNat outcome.status
