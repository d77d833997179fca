import Restack.Lineage
import Restack.Shell

/-!
# Plans

A step puts one branch onto its parent branch. The plan of a repository takes its branches in
name order, goes down the path of each from its root, and has a step for each branch below a root
where that branch is first met.

Several branches may point at one commit. Only the last of them in name order is found through
that commit, so each of the others is reported together with the next one that took its place.
-/

namespace Restack

structure Step where
  branch : String
  onto : String
deriving DecidableEq, Repr

namespace Step

def describe (s : Step) : String := s.branch ++ " onto " ++ s.onto

/-- The command that carries the step out. It replays the branch's own last commit, and no other,
on top of wherever the parent branch points by then. -/
def command (s : Step) (strategy : String) : String :=
  "git rebase -X " ++ Shell.quote strategy ++ " " ++ Shell.quoteRevision s.branch "~1" ++ " "
    ++ Shell.quote s.branch ++ " --onto=" ++ Shell.quote s.onto

def alongPath (path : List String) : List Step :=
  List.zipWith (fun parent child => ⟨child, parent⟩) path path.tail

def firsts (steps : List Step) : List Step :=
  steps.eraseDupsBy fun s t => s.branch == t.branch

end Step

def Lineage.steps (l : Lineage) : List Step :=
  Step.firsts (l.branches.flatMap fun b => Step.alongPath (l.climb b).path)

structure SharedHead where
  head : String
  kept : String
  shadowed : String
deriving DecidableEq, Repr

namespace SharedHead

/-- The report for a tip, when `seen` holds the tips before it, nearest first. -/
def with? (seen : List Tip) (t : Tip) : Option SharedHead :=
  match seen.find? fun s => s.head = t.head with
  | none => none
  | some s => if s.branch = t.branch then none else some ⟨t.head, t.branch, s.branch⟩

def after (seen : List Tip) : List Tip → List SharedHead
  | [] => []
  | t :: rest => (with? seen t).toList ++ after (t :: seen) rest

def ofTips (tips : List Tip) : List SharedHead := after [] (Tip.inOrder tips)

end SharedHead

structure Plan where
  steps : List Step
  sharedHeads : List SharedHead
deriving DecidableEq, Repr

namespace Plan

def ofTips (tips : List Tip) : Plan := ⟨(Lineage.ofTips tips).steps, SharedHead.ofTips tips⟩

def isEmpty (p : Plan) : Bool := p.steps.isEmpty

def commands (p : Plan) (strategy : String) : List String :=
  p.steps.map fun s => s.command strategy

end Plan

end Restack
