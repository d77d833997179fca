import Restack.LogFile

/-!
# File trees

The files and directories of a machine, each with the names that lead to it from the root. A
directory is there if it is listed, or if something that is there lies below it. This is all that
placing a log file depends on.
-/

namespace Restack

abbrev FileTree.Place := List (List UInt8)

structure FileTree where
  files : List FileTree.Place
  directories : List FileTree.Place := []
  workingDirectory : FileTree.Place := []
deriving DecidableEq, Repr

namespace FileTree

-- the longest name of a file, and the longest path, in bytes
def maxName : Nat := 255

def maxPath : Nat := 4095

def isFile (t : FileTree) (place : Place) : Bool := t.files.contains place

def isDirectory (t : FileTree) (place : Place) : Bool :=
  (t.workingDirectory :: t.directories).any (fun d => place.isPrefixOf d) ||
    t.files.any fun f => place.isPrefixOf f && f ≠ place

def step (t : FileTree) (place : Place) : Path.Component → Option Place
  | .root => some []
  | .here => some place
  | .up => if t.isFile place then none else some place.dropLast
  | .name n => if t.isFile place || maxName < n.length then none else some (place ++ [n])

def follow (t : FileTree) (way : List Path.Component) : Option Place :=
  way.foldlM t.step t.workingDirectory

/-- Makes the directories on a way, one after the other, as far as it leads. -/
def makeDirectories (t : FileTree) (p : Path) : Bool × FileTree :=
  if maxPath < p.length then (false, t)
  else
    let way := p.components
    let places := (List.range (way.length + 1)).filterMap fun k => t.follow (way.take k)
    ((t.follow way).any fun place => !t.isFile place,
      { t with directories := t.directories ++ places.filter fun place => !t.isFile place })

inductive Refusal
  | isDirectory
  | tooLong
  | noWay
deriving DecidableEq, Repr

def openForAppend (t : FileTree) (p : Path) : Except Refusal FileTree :=
  if maxPath < p.length then .error .tooLong
  else
    match t.follow p.components with
    | none => .error .noWay
    | some place =>
      if t.isDirectory place then .error .isDirectory
      else if t.isFile place then .ok t
      else .ok { t with files := place :: t.files }

def platform (panic : Refusal → String) (admitsStart? : String → Option Bool)
    (notText : List UInt8 → String) : Platform FileTree where
  makeDirectories := makeDirectories
  openAppender t directory name :=
    (t.openForAppend (directory.join (Utf8.encode name))).mapError panic
  admitsStart? := admitsStart?
  notText := notText

def ofPaths (workingDirectory : Place) (paths : List Path) : FileTree :=
  paths.foldl (fun t p => ((t.makeDirectories p.directory).2.openForAppend p).toOption.getD t)
    ⟨[], [], workingDirectory⟩

def listing (t : FileTree) : List String :=
  let inside := t.files.filter fun f => t.workingDirectory.isPrefixOf f
  let shown := inside.map fun f =>
    Utf8.decodeLossy ([Path.slash].intercalate (f.drop t.workingDirectory.length))
  shown.mergeSort fun a b => decide (a ≤ b)

end FileTree

end Restack
