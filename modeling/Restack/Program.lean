import Restack.Arguments
import Restack.Git
import Restack.LogFile

/-!
# The whole program

The program reads its arguments, then the repository, and prints either the whole plan or one
line that says which query failed. Before anything else it opens its log file; when there is no
place for one it goes on without. The first message in the log shows the arguments, so they all
have to be texts then. What the program says about its arguments can be in colours.
-/

namespace Restack.Program

structure Environment where
  log : LogFile.Environment
  logFilter : Option (List UInt8) := none
  noColour : Option String := none
  forceColour : Option String := none

-- colours are used if they are forced and not refused
def Environment.rendering (env : Environment) : Text.Rendering :=
  if env.forceColour.any (· ≠ "") && !env.noColour.any (· ≠ "") then .coloured else .printed

/-- Whether the first message goes to the log. A filter that is no text, or that no one can make
sense of, is replaced by the usual one, which admits it. -/
def Environment.notesStart {σ : Type} (env : Environment) (platform : Platform σ) : Bool :=
  let filter? := env.logFilter.bind fun f => (Utf8.decode f).toOption
  (filter?.bind platform.admitsStart?).getD true

structure Report where
  code : Nat
  stdout : String
  stderr : String
  calls : List (List String) := []
  events : List Event := []

def unlines (lines : List String) : String := String.join (lines.map (· ++ "\n"))

def Report.ofRun (run : Run (List String) (List String)) : Report :=
  match run.outcome with
  | .ok commands => ⟨0, unlines commands, "", run.calls, run.events⟩
  | .error e => ⟨1, "", unlines [Planner.failureLine e], run.calls, run.events⟩

def answer (host : Host) (rendering : Text.Rendering) (argv : List (List UInt8)) : Report :=
  let name := Arguments.programName argv
  match Arguments.parse argv with
  | .flag f => { code := 0, stdout := (f.text name).render rendering, stderr := "" }
  | .refused p => { code := 2, stdout := "", stderr := (p.text name).render rendering }
  | .path directory =>
    .ofRun (Planner.commands ((⟨directory⟩ : Git.Repository).backend host) {})

def crash (text : String) : Report := { code := 101, stdout := "", stderr := text }

def unreadable? (argv : List (List UInt8)) : Option (List UInt8) :=
  argv.find? fun a => (Utf8.decode a).toOption.isNone

variable {σ : Type}

/-- What ends the program before it has looked at its arguments: a log that is refused, or an
argument that the first message cannot show. -/
def panic? (platform : Platform σ) (env : Environment) (argv : List (List UInt8)) :
    LogFile.Opening → Option String
  | .refused text => some text
  | .unavailable => none
  | .opened => if env.notesStart platform then (unreadable? argv).map platform.notText else none

def run (platform : Platform σ) (host : Host) (env : Environment) (s : σ)
    (argv : List (List UInt8)) : Report × σ :=
  let (opening, s) := LogFile.openOn platform env.log s
  match panic? platform env argv opening with
  | some text => (crash text, s)
  | none => (answer host env.rendering argv, s)

end Restack.Program
