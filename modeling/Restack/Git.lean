import Restack.CommandLine
import Restack.Path
import Restack.Planner

/-!
# Git as a backend

Every query is one `git` process that is told where the repository's metadata are, so no work
tree is needed. Only commands that read are ever formed. A session asks one repository for one thing
after the other, while the host that answers may change in between.
-/

namespace Restack.Git

structure Repository where
  directory : Path
deriving DecidableEq, Repr

def listArgs : List String := ["for-each-ref", "refs/heads/", "--format=%(refname:short)"]

def resolveArgs (revision : String) : List String := ["rev-parse", revision]

def headRevision (branch : String) : String := branch ++ "^0"

def ancestorRevision (branch : String) : String := branch ++ "~1"

namespace Repository

/-- The option that names the repository; bytes of the directory that are no text are replaced. -/
def option (r : Repository) : String := "--git-dir=" ++ Utf8.decodeLossy r.directory

def command (r : Repository) (args : List String) : CommandLine :=
  (CommandLine.arg ⟨"git", []⟩ r.option).addArgs args

def branches (r : Repository) (host : Host) : Run (List String) (List String) := do
  let text ← (r.command listArgs).capture host
  return Text.lines text

def resolve (r : Repository) (host : Host) (revision : String) : Run (List String) String :=
  (r.command (resolveArgs revision)).capture host

def backend (r : Repository) (host : Host) : Backend (List String) where
  name := "git"
  branches := r.branches host
  head b := r.resolve host (headRevision b)
  ancestor b := r.resolve host (ancestorRevision b)

end Repository

inductive Operation
  | useHost (host : Host)
  | backendName
  | directory
  | branches
  | head (branch : String)
  | ancestor (branch : String)
  | tips (settings : Settings)
  | commands (settings : Settings)

inductive Reply
  | done
  | text (value : String)
  | path (value : Path)
  | texts (values : List String)
  | tips (values : List Tip)
deriving DecidableEq, Repr

namespace Operation

def hostAfter (host : Host) : Operation → Host
  | .useHost next => next
  | _ => host

def perform (r : Repository) (host : Host) : Operation → Run (List String) Reply
  | .useHost _ => return .done
  | .backendName => return .text (r.backend host).name
  | .directory => return .path r.directory
  | .branches => return .texts (← (r.backend host).branches)
  | .head b => return .text (← (r.backend host).head b)
  | .ancestor b => return .text (← (r.backend host).ancestor b)
  | .tips settings => return .tips (← readTips (r.backend host) settings)
  | .commands settings => return .texts (← Planner.commands (r.backend host) settings)

end Operation

def Repository.session (r : Repository) (host : Host) :
    List Operation → List (Run (List String) Reply)
  | [] => []
  | o :: rest => o.perform r host :: r.session (o.hostAfter host) rest

end Restack.Git
