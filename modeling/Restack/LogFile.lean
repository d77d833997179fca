import Restack.Path
import Restack.Utf8

/-!
# The log file

Where the log goes: below the state directory of the user, if that is set, else below its usual
place in the home directory, and where there is no home either into the working directory. The
log is opened before all else. When there is no place for it the program goes on without it, but
an appender that cannot be opened ends the program.
-/

namespace Restack

/-- What the program takes from outside, where `σ` are the states of the files: how directories are
made with those above them, how a file is opened for appending or else the text that the program
ends with, whether a filter, if it is one, admits the first message, and the text that the program
ends with at an argument that is no text. -/
structure Platform (σ : Type) where
  makeDirectories : σ → Path → Bool × σ
  openAppender : σ → Path → String → Except String σ
  admitsStart? : String → Option Bool
  notText : List UInt8 → String

namespace LogFile

def program : Path := Utf8.encode "rebase-plan"

def fileName : Path := Utf8.encode "rebase-plan.log"

def inStateHome (stateHome : String) : Path :=
  (Path.join (Utf8.encode stateHome) program).join fileName

def underHome (home : Path) : Path :=
  (((home.join (Utf8.encode ".local")).join (Utf8.encode "state")).join program).join fileName

-- an empty state home counts as none
def path? (stateHome : Option String) (home : Option Path) : Option Path :=
  match stateHome.filter (· ≠ "") with
  | some s => some (inStateHome s)
  | none => home.map underHome

structure Environment where
  home : Option Path := none
  stateHome : Option Path := none
  accountHome : Option Path := none
  currentDirectory : Except String Path

-- an empty home is as good as none, and the account may have another
def Environment.homeDirectory (env : Environment) : Option Path :=
  (env.home.filter (· ≠ [])).or env.accountHome

def Environment.stateHomeText (env : Environment) : Option String :=
  env.stateHome.bind fun s => (Utf8.decode s).toOption

def path (env : Environment) : Except String Path :=
  match path? env.stateHomeText env.homeDirectory with
  | some p => .ok p
  | none => env.currentDirectory.map fun d => d.join fileName

def noFileName : String := "Invalid log file name"

def split? (p : Path) : Option (Path × String) := do
  let name ← p.fileName?
  let text ← (Utf8.decode name).toOption
  return (p.directory, text)

inductive Opening
  | opened
  | unavailable
  | refused (text : String)
deriving DecidableEq, Repr

def openOn {σ : Type} (platform : Platform σ) (env : Environment) (s : σ) : Opening × σ :=
  match path env with
  | .error _ => (.unavailable, s)
  | .ok p =>
    match platform.makeDirectories s p.directory with
    | (false, s) => (.unavailable, s)
    | (true, s) =>
      match split? p with
      | none => (.unavailable, s)
      | some (directory, name) =>
        match platform.openAppender s directory name with
        | .error text => (.refused text, s)
        | .ok s => (.opened, s)

end LogFile

end Restack
