import Restack.Git

/-!
# Recorded hosts

A recording answers for `git`: it holds the output for argument lists, whatever repository they
are asked of. It can also stand for a machine on which there is no `git`. A listing that has a line
for each branch, with its name, its head and the first parent of the head if there is one, is enough
for a recording.
-/

namespace Restack

structure Response where
  args : List String
  output : Output
deriving DecidableEq, Repr

inductive Recording
  | missing
  | responses (answers : List Response)
deriving DecidableEq, Repr

namespace Recording

def nulInArgument : String := "nul byte found in provided data"

def noSuchFile : String := "No such file or directory (os error 2)"

def unknownRevision : Output := ⟨some 128, [], Utf8.encode "fatal: no such revision\n"⟩

def isRepositoryOption (a : String) : Bool := "--git-dir=".toList.isPrefixOf a.toList

def key : List String → List String
  | [] => []
  | a :: rest => if isRepositoryOption a then rest else a :: rest

def hasNul (s : String) : Bool := s.toList.contains '\x00'

def answer (answers : List Response) (args : List String) : Output :=
  match answers.find? fun r => r.args = key args with
  | some r => r.output
  | none => unknownRevision

def host (r : Recording) : Host := fun c =>
  if (c.program :: c.args).any hasNul then .error nulInArgument
  else
    match r with
    | .missing => .error noSuchFile
    | .responses answers =>
      if c.program = "git" then .ok (answer answers c.args) else .error noSuchFile

end Recording

namespace Git

def recorded (args : List String) (text : String) : Response :=
  ⟨args, ⟨some 0, Utf8.encode text, []⟩⟩

def recordedLine : List String → List Response
  | [name, head] => [recorded (resolveArgs (headRevision name)) head]
  | name :: head :: parent :: _ =>
    [recorded (resolveArgs (headRevision name)) head,
      recorded (resolveArgs (ancestorRevision name)) parent]
  | _ => []

def fields (line : String) : List String :=
  ((line.toList.splitOnP Text.isBlank).filter (!·.isEmpty)).map String.ofList

def recordingOfListing (text : String) : Recording :=
  let rows := (Text.lines text).map fields
  .responses
    (recorded listArgs ("\n".intercalate (rows.filterMap List.head?))
      :: rows.flatMap recordedLine)

end Git

end Restack
