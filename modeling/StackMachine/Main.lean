import StackMachine.Command.Basic

/-!
# The program

The outer layer: files of the system, printing and the exit status. What is printed and which files
are touched is decided by `Command.respond`.
-/

namespace StackMachine

/-- A failure as the system words it. -/
def systemError : IO.Error → DeviceError
  | .noFileOrDirectory _ code details | .inappropriateType _ code details
  | .permissionDenied _ code details | .alreadyExists _ code details
  | .invalidArgument _ code details | .resourceExhausted _ code details =>
    .ofSystem details code.toNat
  | .otherError code details => .ofSystem details code.toNat
  | e => { message := toString e }

/-- What can be read from an open file. -/
def readHandle (handle : IO.FS.Handle) : IO Source := do
  try
    let bytes ← handle.readBinToEnd
    return .ofBytes bytes.toList
  catch e =>
    return { pieces := [], failure := some (systemError e) }

/-- Write to an open file. -/
def writeHandle (handle : IO.FS.Handle) (content : List UInt8) : IO (Except SaveError Unit) := do
  try
    handle.write ⟨content.toArray⟩
    handle.flush
    return .ok ()
  catch e =>
    return .error (.cannotWrite (systemError e))

/-- The files of the system. -/
def systemFiles : FileSystem IO where
  openFile path := do
    try
      return .ok (← readHandle (← IO.FS.Handle.mk path .read))
    catch e =>
      return .error (systemError e)
  storeFile path content := do
    try
      writeHandle (← IO.FS.Handle.mk path .write) content
    catch e =>
      return .error (.cannotCreate path (systemError e))

end StackMachine

/-- Respond to the arguments of the program. -/
def main (arguments : List String) : IO UInt32 := do
  let response ←
    StackMachine.Command.respond StackMachine.Executor.patience StackMachine.systemFiles arguments
  IO.print response.output
  IO.eprint response.diagnostics
  return response.status.toUInt32
