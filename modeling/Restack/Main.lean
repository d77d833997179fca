import Restack.Program
import Restack.Recording

/-!
# Command line

The program takes the place of the repository's metadata as its argument, and what `git` says
about the branches there on standard input: for each a line with its name, its head and the first
parent of the head. It prints the commands that restack the branches, and runs none of them.
-/

namespace Restack.Terminal

partial def readText (input : IO.FS.Stream) (read : String := "") : IO String := do
  let line ← input.getLine
  if line.isEmpty then return read else readText input (read ++ line)

/-- Makes the directory of the log, and opens the log there: what came of the one and the other. -/
def openLog (log : Path) : IO (Bool × Except String IO.FS.Handle) := do
  try
    IO.FS.createDirAll (Utf8.decodeLossy log.directory)
  catch e => return (false, .error e.toString)
  try
    return (true, .ok (← IO.FS.Handle.mk (Utf8.decodeLossy log) .append))
  catch e => return (true, .error (e.toString ++ "\n"))

def platform (made : Bool) (opened : Except String IO.FS.Handle) : Platform Unit where
  makeDirectories _ _ := (made, ())
  openAppender _ _ _ := opened.map fun _ => ()
  admitsStart? _ := none
  notText := Utf8.decodeLossy

def environment : IO Program.Environment := do
  let bytes (name : String) : IO (Option (List UInt8)) :=
    return (← IO.getEnv name).map Utf8.encode
  let currentDirectory ←
    try pure (Except.ok (Utf8.encode (← IO.currentDir).toString))
    catch e => pure (.error e.toString)
  return {
    log := { home := ← bytes "HOME", stateHome := ← bytes "XDG_STATE_HOME", currentDirectory }
    logFilter := ← bytes "RUST_LOG"
    noColour := ← IO.getEnv "NO_COLOR"
    forceColour := ← IO.getEnv "CLICOLOR_FORCE" }

def run (args : List String) : IO UInt32 := do
  let env ← environment
  let argv := (Arguments.defaultName :: args).map Utf8.encode
  let (made, opened) ← match LogFile.path env.log with
    | .ok log => openLog log
    | .error e => pure (false, .error e)
  let listing ← match Arguments.parse argv with
    | .path _ => readText (← IO.getStdin)
    | .flag _ | .refused _ => pure ""
  let (report, _) := Program.run (platform made opened) (Git.recordingOfListing listing).host env ()
    argv
  -- a log that cannot be written stops nothing
  if let .ok handle := opened then
    try
      for line in Event.logLines report.events do
        handle.putStrLn line
    catch _ => pure ()
  IO.print report.stdout
  IO.eprint report.stderr
  return report.code.toUInt32

end Restack.Terminal

def main (args : List String) : IO UInt32 := Restack.Terminal.run args
