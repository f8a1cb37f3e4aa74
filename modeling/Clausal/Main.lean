import Clausal.Command.Run

/-! # The program -/

namespace Clausal

/-- The reason of a failed file operation, with the number of the system's error. -/
def failureText : IO.Error → String
  | .noFileOrDirectory .. => DiskFault.notFound.text
  | .inappropriateType _ code details => s!"{details} (os error {code})"
  | .permissionDenied _ code details => s!"{details} (os error {code})"
  | .resourceExhausted _ code details => s!"{details} (os error {code})"
  | .invalidArgument _ code details => s!"{details} (os error {code})"
  | .otherError code details => s!"{details} (os error {code})"
  | e => toString e

def realDisk : Disk IO where
  read path := do
    try
      match String.fromUTF8? (← IO.FS.readBinFile path) with
      | some text => return .ok text
      | none => return .error DiskFault.notText.text
    catch e => return .error (failureText e)
  isFile path := do
    try
      let _ ← IO.FS.readBinFile path
      return true
    catch _ => return false
  write path content := do
    try
      IO.FS.writeFile path content
      return .ok ()
    catch e => return .error (failureText e)

end Clausal

def main (args : List String) : IO UInt32 := do
  let outcome ← Clausal.runCommand Clausal.realDisk args
  IO.print outcome.out
  IO.eprint outcome.err
  return outcome.exit
