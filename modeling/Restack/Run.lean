import Restack.Event
import Restack.Utf8

/-!
# Runs

A run of queries has an outcome, and it leaves two traces: the calls that were made, in order,
and the events that were noted. Runs compose in sequence; after a failure nothing follows. An error
names the command line of the query and the cause.
-/

namespace Restack

inductive QueryError.Cause
  | notStarted (reason : String)
  | failed (status : Option Int) (stderr : String)
  | notText (error : Utf8.DecodeError)
deriving DecidableEq, Repr

structure QueryError where
  command : String
  cause : QueryError.Cause
deriving DecidableEq, Repr

namespace QueryError

def message (e : QueryError) : String := "Error while calling: " ++ e.command

def source? (e : QueryError) : Option String :=
  match e.cause with
  | .notStarted reason => some reason
  | .failed _ _ => none
  | .notText error => some error.message

def chain (e : QueryError) : List String := e.message :: e.source?.toList

def joinChain (chain : List String) : String := ": ".intercalate chain

def line (e : QueryError) : String := joinChain e.chain

end QueryError

structure Run (κ α : Type) where
  outcome : Except QueryError α
  calls : List κ
  events : List Event

namespace Run

variable {κ α β : Type}

def ofExcept (x : Except QueryError α) : Run κ α := ⟨x, [], []⟩

def bind (r : Run κ α) (next : α → Run κ β) : Run κ β :=
  match r.outcome with
  | .error e => ⟨.error e, r.calls, r.events⟩
  | .ok a => ⟨(next a).outcome, r.calls ++ (next a).calls, r.events ++ (next a).events⟩

instance : Monad (Run κ) where
  pure a := ofExcept (.ok a)
  bind := Run.bind

def fail (e : QueryError) : Run κ α := ofExcept (.error e)

def note (e : Event) : Run κ Unit := ⟨.ok (), [], [e]⟩

def noteAll (events : List Event) : Run κ Unit := ⟨.ok (), [], events⟩

def call (k : κ) : Run κ Unit := ⟨.ok (), [k], []⟩

def notingFailure (r : Run κ α) (events : QueryError → List Event) : Run κ α :=
  match r.outcome with
  | .ok _ => r
  | .error e => ⟨r.outcome, r.calls, r.events ++ events e⟩

@[simp] theorem pure_eq (a : α) : (pure a : Run κ α) = ⟨.ok a, [], []⟩ := rfl

theorem bind_of_ok {r : Run κ α} {a : α} (h : r.outcome = .ok a) (next : α → Run κ β) :
    r >>= next =
      ⟨(next a).outcome, r.calls ++ (next a).calls, r.events ++ (next a).events⟩ := by
  show Run.bind r next = _
  simp [Run.bind, h]

theorem bind_of_error {r : Run κ α} {e : QueryError} (h : r.outcome = .error e)
    (next : α → Run κ β) : r >>= next = ⟨.error e, r.calls, r.events⟩ := by
  show Run.bind r next = _
  simp [Run.bind, h]

end Run

end Restack
