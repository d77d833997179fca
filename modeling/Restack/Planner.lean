import Restack.Backend
import Restack.Text.Blank

/-!
# Planning

The tips are read through a backend, one branch after the other, and the first failed query ends
the reading. Only when all have been read is a plan made, so a plan is never a part of one. The
settings name the branches that are left out, and the strategy option of the printed commands.
-/

namespace Restack

structure Settings where
  excluded : List String := ["wikidoc"]
  strategy : String := "theirs"
deriving DecidableEq, Repr

def Settings.excludes (s : Settings) (branch : String) : Bool := s.excluded.contains branch

variable {κ : Type}

def readTip (backend : Backend κ) (branch : String) : Run κ Tip := do
  let head ← backend.head branch
  let base ← backend.ancestor branch
  Run.note (.tipRead ⟨branch, head, base⟩)
  return ⟨branch, head, base⟩

def readListed (backend : Backend κ) (settings : Settings) : List String → Run κ (List Tip)
  | [] => return []
  | line :: rest => do
    let branch := Text.trim line
    if branch = "" then readListed backend settings rest
    else if settings.excludes branch then do
      Run.note (.branchSkipped branch)
      readListed backend settings rest
    else do
      let tip ← readTip backend branch
      let tips ← readListed backend settings rest
      return tip :: tips

def readTips (backend : Backend κ) (settings : Settings) : Run κ (List Tip) := do
  let lines ← backend.branches
  let tips ← readListed backend settings lines
  Run.note (.readCompleted backend.name tips.length)
  return tips

namespace Planner

def failureEvents (e : QueryError) : List Event :=
  match e.cause with
  | .failed status stderr => [.queryFailed e.command status stderr]
  | .notStarted _ | .notText _ => []

def summary (tips : List Tip) (plan : Plan) : List Event :=
  .planComputed tips.length plan.steps.length plan.sharedHeads.length
    :: plan.sharedHeads.map .headShared
    ++ (if plan.isEmpty then [.nothingToRestack] else [])
    ++ plan.steps.map .stepPlanned

def commands (backend : Backend κ) (settings : Settings) : Run κ (List String) := do
  let tips ← (readTips backend settings).notingFailure failureEvents
  let plan := Plan.ofTips tips
  Run.noteAll (Plan.derivation tips ++ summary tips plan)
  return plan.commands settings.strategy

def context : String := "Failed to read branches"

def failureChain (e : QueryError) : List String := context :: e.chain

def failureLine (e : QueryError) : String := QueryError.joinChain (failureChain e)

end Planner

end Restack
