import FrameCode.CommandLine

/-! The program `triad`: reads files and the standard input, and prints what the
command answers. -/

namespace FrameCode.CommandLine

/-- The system's own text for an error, with its number. -/
def systemMessage (e : IO.Error) : String :=
  match e with
  | .noFileOrDirectory _ code details
  | .noSuchThing _ code details
  | .permissionDenied _ code details
  | .inappropriateType _ code details
  | .invalidArgument _ code details
  | .resourceExhausted _ code details
  | .otherError code details => s!"{details} (os error {code})"
  | e => toString e

def openFile (path : String) : IO File := do
  match ← (IO.FS.Handle.mk path .read).toBaseIO with
  | .error e => return .closed (systemMessage e)
  | .ok handle =>
    match ← handle.readBinToEnd.toBaseIO with
    | .error e => return .unreadable (systemMessage e)
    | .ok bytes => return .content bytes

/-- The files that the arguments name. -/
def openFiles (arguments : List String) : IO (String → File) := do
  match Request.ofArguments arguments with
  | some (.perform _ source input) =>
    let sourceFile ← openFile source
    let inputFile ← match input with
      | some path => openFile path
      | none => pure .absent
    return fun path => if path = source then sourceFile else inputFile
  | _ => return fun _ => .absent

def print (stdout stderr : String) : IO Unit := do
  let out ← IO.getStdout
  let err ← IO.getStderr
  out.putStr stdout
  out.flush
  err.putStr stderr
  err.flush

/-- The bytes of a stream up to its end. -/
partial def readAll (stream : IO.FS.Stream) (bytes : ByteArray) : IO ByteArray := do
  let more ← stream.read 65536
  if more.isEmpty then return bytes else readAll stream (bytes ++ more)

/-- Runs to the end, and prints what has been written from time to time. -/
partial def runToStop (p : Program) (m : Machine) : IO Outcome := do
  match m.run p 100000 with
  | .stopped why m => return .ofRun m why
  | .running m =>
    print m.host.output.text m.host.diagnostics.text
    let output := { m.host.output with text := "" }
    let diagnostics := { m.host.diagnostics with text := "" }
    runToStop p { m with host := { m.host with output, diagnostics } }

def answer (arguments : List String) : IO Outcome := do
  match plan (← openFiles arguments) arguments with
  | .done outcome => return outcome
  | .run p (some input) => runToStop p (.start { input })
  | .run p none =>
    let bytes ← readAll (← IO.getStdin) .empty
    runToStop p (.start { input := .ofBytes bytes.data.toList })

end FrameCode.CommandLine

def main (arguments : List String) : IO UInt32 := do
  let outcome ← FrameCode.CommandLine.answer arguments
  FrameCode.CommandLine.print outcome.stdout outcome.stderr
  return outcome.code.toUInt32
