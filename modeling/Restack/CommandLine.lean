import Restack.Run
import Restack.Text.Blank

/-!
# Commands and the host that runs them

A command line is a program with its arguments. A host says what running it does: either the
program cannot be started, or it ends and leaves its output. The programs run here only answer
questions, so a status other than 0 is a failure.
-/

namespace Restack

structure CommandLine where
  program : String
  args : List String := []
deriving DecidableEq, Repr

/-- What a program leaves behind. Without a status it was ended by a signal. -/
structure Output where
  status : Option Int
  stdout : List UInt8
  stderr : List UInt8
deriving DecidableEq, Repr

abbrev Host := CommandLine → Except String Output

namespace CommandLine

def arg (c : CommandLine) (a : String) : CommandLine := { c with args := c.args ++ [a] }

def addArgs (c : CommandLine) (more : List String) : CommandLine :=
  { c with args := c.args ++ more }

def line (c : CommandLine) : String := " ".intercalate (c.program :: c.args)

def conclude (c : CommandLine) (output : Output) : Run (List String) Output :=
  if output.status = some 0 then do
    Run.note (.commandSucceeded c.program)
    return output
  else do
    let stderr := Text.trim (Utf8.decodeLossy output.stderr)
    Run.note (.commandFailed c.program c.args output.status stderr)
    Run.fail ⟨c.line, .failed output.status stderr⟩

def run (host : Host) (c : CommandLine) : Run (List String) Output := do
  Run.note (.commandStarted c.program c.args)
  match host c with
  | .error reason => Run.fail ⟨c.line, .notStarted reason⟩
  | .ok output =>
    Run.call c.args
    c.conclude output

def capture (host : Host) (c : CommandLine) : Run (List String) String := do
  let output ← c.run host
  match Utf8.decode output.stdout with
  | .error e => Run.fail ⟨c.line, .notText e⟩
  | .ok text => return Text.trim text

end CommandLine

end Restack
