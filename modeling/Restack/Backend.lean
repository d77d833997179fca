import Restack.Run

/-!
# Backends

A backend answers the three queries that tips are read with. One that has its answers at hand
records each query as it is asked.
-/

namespace Restack

structure Backend (κ : Type) where
  name : String
  branches : Run κ (List String)
  head : String → Run κ String
  ancestor : String → Run κ String

inductive Query
  | branches
  | head (branch : String)
  | ancestor (branch : String)
deriving DecidableEq, Repr

structure Answers where
  branches : Except QueryError (List String)
  head : String → Except QueryError String
  ancestor : String → Except QueryError String

def Query.ask (q : Query) (x : Except QueryError α) : Run Query α := ⟨x, [q], []⟩

def Answers.backend (name : String) (a : Answers) : Backend Query where
  name := name
  branches := Query.branches.ask a.branches
  head b := (Query.head b).ask (a.head b)
  ancestor b := (Query.ancestor b).ask (a.ancestor b)

structure Memory where
  name : String
  branches : Except QueryError (List String)
  commits : List (String × Option (Except QueryError String) × Option (Except QueryError String))

namespace Memory

def unknown (m : Memory) (revision : String) : QueryError :=
  ⟨m.name ++ " rev-parse " ++ revision, .failed (some 128) ""⟩

def answers (m : Memory) : Answers where
  branches := m.branches
  head b := ((m.commits.lookup b).bind Prod.fst).getD (.error (m.unknown (b ++ "^0")))
  ancestor b := ((m.commits.lookup b).bind Prod.snd).getD (.error (m.unknown (b ++ "~1")))

def backend (m : Memory) : Backend Query := m.answers.backend m.name

end Memory

end Restack
