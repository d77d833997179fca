import Restack.Plan
import Restack.Text.Shapeless

/-!
# Events

What happens on the way to a plan, as it is noted in a log: each event has a level, a message and
named fields. A field is shown either as it is or as a literal. A text as a literal stands in double
quotes, with what would be unreadable or ambiguous there escaped.
-/

namespace Restack

namespace Text

def escape (c : Char) : List Char :=
  if c = '\x00' then ['\\', '0']
  else if c = '\t' then ['\\', 't']
  else if c = '\r' then ['\\', 'r']
  else if c = '\n' then ['\\', 'n']
  else if c = '"' || c = '\\' then ['\\', c]
  else if isShapeless c then "\\u\x7b".toList ++ Nat.toDigits 16 c.toNat ++ ['}']
  else [c]

def literal (s : String) : String :=
  String.ofList ('"' :: s.toList.flatMap escape ++ ['"'])

def optionLiteral (shown : α → String) : Option α → String
  | none => "None"
  | some a => s!"Some({shown a})"

def listLiteral (items : List String) : String :=
  "[" ++ ", ".intercalate items ++ "]"

end Text

inductive Level
  | trace
  | debug
  | info
  | warn
deriving DecidableEq, Repr

def Level.isShown : Level → Bool
  | .trace | .debug => false
  | .info | .warn => true

def Level.name : Level → String
  | .trace => "TRACE"
  | .debug => "DEBUG"
  | .info => "INFO"
  | .warn => "WARN"

inductive Event
  | commandStarted (program : String) (args : List String)
  | commandSucceeded (program : String)
  | commandFailed (program : String) (args : List String) (status : Option Int) (stderr : String)
  | branchSkipped (branch : String)
  | tipRead (tip : Tip)
  | readCompleted (backend : String) (count : Nat)
  | parentResolved (branch : String) (parent : Option String)
  -- the parent of `root` lies on the path from `branch`
  | loopFound (branch : String) (root : String)
  | queryFailed (command : String) (status : Option Int) (stderr : String)
  | planComputed (branches steps sharedHeads : Nat)
  | headShared (shared : SharedHead)
  | nothingToRestack
  | stepPlanned (step : Step)
deriving DecidableEq, Repr

structure Event.Entry where
  level : Level
  message : String
  fields : List (String × String)
deriving DecidableEq, Repr

def Event.Entry.line (e : Event.Entry) : String :=
  " ".intercalate (e.level.name :: e.message :: e.fields.map fun f => f.1 ++ "=" ++ f.2)

namespace Event

def wordsLiteral (args : List String) : String :=
  Text.listLiteral (args.map Text.literal)

def statusLiteral (status : Option Int) : String :=
  Text.optionLiteral toString status

def entry : Event → Entry
  | .commandStarted program args =>
    ⟨.trace, "cmd:run start", [("command", Text.literal program), ("args", wordsLiteral args)]⟩
  | .commandSucceeded program =>
    ⟨.trace, "cmd:run success", [("command", Text.literal program)]⟩
  | .commandFailed program args status stderr =>
    ⟨.debug, "cmd:run failure",
      [("command", Text.literal program), ("args", wordsLiteral args),
        ("status", statusLiteral status), ("stderr", stderr)]⟩
  | .branchSkipped branch =>
    ⟨.debug, "vcs:skip excluded branch", [("branch", Text.literal branch)]⟩
  | .tipRead tip =>
    ⟨.debug, "vcs:read branch",
      [("branch", Text.literal tip.branch), ("head", tip.head), ("parent", tip.base)]⟩
  | .readCompleted backend count =>
    ⟨.debug, "vcs:read complete",
      [("backend", Text.literal backend), ("count", toString count)]⟩
  | .parentResolved branch parent =>
    ⟨.debug, "plan:resolve parent",
      [("branch", branch), ("parent", Text.optionLiteral Text.literal parent)]⟩
  | .loopFound branch root =>
    ⟨.debug, "plan:cycle in parent links",
      [("branch", Text.literal branch), ("at", Text.literal root)]⟩
  | .queryFailed command status stderr =>
    ⟨.warn, "plan:query failed",
      [("command", Text.literal command), ("status", statusLiteral status), ("stderr", stderr)]⟩
  | .planComputed branches steps sharedHeads =>
    ⟨.info, "plan:computed",
      [("branches", toString branches), ("steps", toString steps),
        ("collisions", toString sharedHeads)]⟩
  | .headShared shared =>
    ⟨.warn, "plan:branches share a head commit",
      [("head", shared.head), ("kept", shared.kept), ("shadowed", shared.shadowed)]⟩
  | .nothingToRestack => ⟨.info, "plan:no branch has a parent branch", []⟩
  | .stepPlanned step => ⟨.info, "plan:step", [("step", step.describe)]⟩

end Event

/-- The parent found for each tip, superseded ones included, in name order. -/
def Tip.resolutions (tips : List Tip) : List Event :=
  (Tip.inOrder tips).map fun t =>
    .parentResolved t.branch (Tip.lastHolder? (Tip.inOrder tips) t.base)

def Lineage.loopEvent? (l : Lineage) (branch : String) : Option Event :=
  let climb := l.climb branch
  if climb.looped then climb.path.head?.map (.loopFound branch) else none

def Event.logLines (events : List Event) : List String :=
  ((events.map Event.entry).filter fun e => e.level.isShown).map Event.Entry.line

def Plan.derivation (tips : List Tip) : List Event :=
  let l := Lineage.ofTips tips
  Tip.resolutions tips ++ l.branches.filterMap l.loopEvent?

end Restack
