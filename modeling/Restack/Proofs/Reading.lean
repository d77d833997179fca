import Mathlib.Data.List.Basic
import Restack.Planner

/-!
# Reading tips

Reading goes through the listed branches that are not blank and not excluded, and asks two queries
about each. If all are answered the answers are the tips, and if not, the reading ends with the
first query that fails: its error is the outcome, and its calls are the last.
-/

namespace Restack

variable {κ α β : Type}

theorem forall_ok_or_exists_first_error {ε : Type} (f : α → Except ε β) (xs : List α) :
    (∀ x ∈ xs, ∃ y, f x = .ok y) ∨ ∃ earlier x later e, xs = earlier ++ x :: later ∧
      (∀ z ∈ earlier, ∃ y, f z = .ok y) ∧ f x = .error e := by
  induction xs with
  | nil => exact .inl (by simp)
  | cons x xs ih =>
    cases hx : f x with
    | error e => exact .inr ⟨[], x, xs, e, rfl, by simp, hx⟩
    | ok y =>
      rcases ih with hall | ⟨earlier, z, later, e, hsplit, hearlier, hz⟩
      · exact .inl (List.forall_mem_cons.2 ⟨⟨y, hx⟩, hall⟩)
      · exact .inr ⟨x :: earlier, z, later, e, by rw [hsplit, List.cons_append],
          List.forall_mem_cons.2 ⟨⟨y, hx⟩, hearlier⟩, hz⟩

theorem exists_tips_of_answers {ε : Type} {head base : String → Except ε String}
    {branches : List String}
    (h : ∀ b ∈ branches, (∃ text, head b = .ok text) ∧ ∃ text, base b = .ok text) :
    ∃ tips : List Tip, tips.map Tip.branch = branches ∧
      ∀ t ∈ tips, head t.branch = .ok t.head ∧ base t.branch = .ok t.base := by
  induction branches with
  | nil => exact ⟨[], rfl, by simp⟩
  | cons b rest ih =>
    obtain ⟨⟨⟨c, hhead⟩, ⟨d, hbase⟩⟩, hrest⟩ := List.forall_mem_cons.1 h
    obtain ⟨tips, hbranches, htips⟩ := ih hrest
    exact ⟨⟨b, c, d⟩ :: tips, congrArg (b :: ·) hbranches,
      List.forall_mem_cons.2 ⟨⟨hhead, hbase⟩, htips⟩⟩

namespace Run

def Gives (r : Run κ α) (outcome : Except QueryError α) (calls : List κ) : Prop :=
  r.outcome = outcome ∧ r.calls = calls

theorem gives_self {r : Run κ α} {outcome : Except QueryError α} (h : r.outcome = outcome) :
    r.Gives outcome r.calls := ⟨h, rfl⟩

theorem gives_pure (a : α) : (pure a : Run κ α).Gives (.ok a) [] := ⟨rfl, rfl⟩

theorem gives_noteAll (events : List Event) : (noteAll events : Run κ Unit).Gives (.ok ()) [] :=
  ⟨rfl, rfl⟩

theorem gives_note (event : Event) : (note event : Run κ Unit).Gives (.ok ()) [] := ⟨rfl, rfl⟩

theorem Gives.bind {r : Run κ α} {a : α} {calls calls' : List κ} {next : α → Run κ β}
    {outcome : Except QueryError β} (h : r.Gives (.ok a) calls)
    (hnext : (next a).Gives outcome calls') : (r >>= next).Gives outcome (calls ++ calls') := by
  rw [bind_of_ok h.1]
  exact ⟨hnext.1, by rw [h.2, hnext.2]⟩

theorem Gives.bind_error {r : Run κ α} {e : QueryError} {calls : List κ} {next : α → Run κ β}
    (h : r.Gives (.error e) calls) : (r >>= next).Gives (.error e) calls := by
  rw [bind_of_error h.1]
  exact ⟨rfl, h.2⟩

theorem Gives.bind_congr {r s : Run κ α} {next next' : α → Run κ β}
    (h : r.Gives s.outcome s.calls)
    (hnext : ∀ a, (next a).Gives (next' a).outcome (next' a).calls) :
    (r >>= next).Gives (s >>= next').outcome (s >>= next').calls := by
  cases hs : s.outcome with
  | error e =>
    rw [bind_of_error hs]
    rw [hs] at h
    exact h.bind_error
  | ok a =>
    rw [bind_of_ok hs]
    rw [hs] at h
    exact h.bind (hnext a)

theorem Gives.notingFailure {r : Run κ α} {outcome : Except QueryError α} {calls : List κ}
    (h : r.Gives outcome calls) (events : QueryError → List Event) :
    (r.notingFailure events).Gives outcome calls := by
  unfold Run.notingFailure
  split
  · exact h
  · exact h

end Run

/-- The branches that are read: the listed ones without blanks around them, blank lines and
excluded branches. -/
def Settings.chosen (s : Settings) (lines : List String) : List String :=
  (lines.map Text.trim).filter fun b => b ≠ "" && !s.excludes b

variable {backend : Backend κ} {settings : Settings} {lines : List String} {e : QueryError}

def readEach (backend : Backend κ) : List String → Run κ (List Tip)
  | [] => return []
  | b :: rest => do
    let tip ← readTip backend b
    let tips ← readEach backend rest
    return tip :: tips

theorem readListed_gives_readEach (lines : List String) :
    (readListed backend settings lines).Gives
      (readEach backend (settings.chosen lines)).outcome
      (readEach backend (settings.chosen lines)).calls := by
  induction lines with
  | nil => exact ⟨rfl, rfl⟩
  | cons line rest ih =>
    rw [readListed]
    by_cases hblank : Text.trim line = ""
    · have hchosen : settings.chosen (line :: rest) = settings.chosen rest := by
        simp [Settings.chosen, hblank]
      simp only [hblank, if_true, hchosen]
      exact ih
    by_cases hexcluded : settings.excludes (Text.trim line)
    · have hchosen : settings.chosen (line :: rest) = settings.chosen rest := by
        simp [Settings.chosen, hblank, hexcluded]
      simp only [hblank, hexcluded, if_true, if_false, hchosen]
      exact (Run.gives_note _).bind ih
    · have hchosen : settings.chosen (line :: rest) =
          Text.trim line :: settings.chosen rest := by
        simp [Settings.chosen, hblank, hexcluded]
      rw [if_neg hblank, if_neg hexcluded, hchosen]
      exact (Run.gives_self rfl).bind_congr fun tip => ih.bind_congr fun tips => ⟨rfl, rfl⟩

def Backend.queries (backend : Backend κ) (branches : List String) : List (Run κ String) :=
  branches.flatMap fun b => [backend.head b, backend.ancestor b]

theorem Backend.flatMap_calls_queries_cons (b : String) (rest : List String) :
    (backend.queries (b :: rest)).flatMap Run.calls =
      ((backend.head b).calls ++ (backend.ancestor b).calls) ++
        (backend.queries rest).flatMap Run.calls := by
  simp [queries]

theorem readTip_of_answered {t : Tip} (hhead : (backend.head t.branch).outcome = .ok t.head)
    (hbase : (backend.ancestor t.branch).outcome = .ok t.base) :
    (readTip backend t.branch).Gives (.ok t)
      ((backend.head t.branch).calls ++ (backend.ancestor t.branch).calls) := by
  have hgives : (readTip backend t.branch).Gives (.ok t)
      ((backend.head t.branch).calls ++ ((backend.ancestor t.branch).calls ++ ([] ++ []))) :=
    (Run.gives_self hhead).bind <| (Run.gives_self hbase).bind <|
      (Run.gives_note _).bind (Run.gives_pure t)
  simpa using hgives

theorem readEach_of_answered {tips : List Tip}
    (h : ∀ t ∈ tips, (backend.head t.branch).outcome = .ok t.head ∧
      (backend.ancestor t.branch).outcome = .ok t.base) :
    (readEach backend (tips.map Tip.branch)).Gives (.ok tips)
      ((backend.queries (tips.map Tip.branch)).flatMap Run.calls) := by
  induction tips with
  | nil => exact ⟨rfl, rfl⟩
  | cons t tips ih =>
    obtain ⟨hhead, hbase⟩ := h t List.mem_cons_self
    have hrest := ih fun s hs => h s (List.mem_cons_of_mem t hs)
    have hgives : (readEach backend (t.branch :: tips.map Tip.branch)).Gives (.ok (t :: tips))
        (((backend.head t.branch).calls ++ (backend.ancestor t.branch).calls) ++
          ((backend.queries (tips.map Tip.branch)).flatMap Run.calls ++ [])) :=
      (readTip_of_answered hhead hbase).bind (hrest.bind (Run.gives_pure _))
    rwa [List.append_nil, ← Backend.flatMap_calls_queries_cons] at hgives

theorem readEach_of_failure {branches : List String} {earlier later : List (Run κ String)}
    {q : Run κ String} (hqueries : backend.queries branches = earlier ++ q :: later)
    (hearlier : ∀ r ∈ earlier, ∃ text, r.outcome = .ok text) (hq : q.outcome = .error e) :
    (readEach backend branches).Gives (.error e) (earlier.flatMap Run.calls ++ q.calls) := by
  induction branches generalizing earlier with
  | nil => simp [Backend.queries] at hqueries
  | cons b rest ih =>
    change backend.head b :: backend.ancestor b :: backend.queries rest = earlier ++ q :: later
      at hqueries
    -- the query that fails is the first about this branch, the second, or about a later one
    rcases earlier with _ | ⟨r, _ | ⟨s, earlier⟩⟩
    · obtain ⟨rfl, -⟩ := List.cons.inj hqueries
      exact (Run.gives_self hq).bind_error.bind_error
    · simp only [List.cons_append, List.nil_append, List.cons.injEq] at hqueries
      obtain ⟨rfl, rfl, -⟩ := hqueries
      obtain ⟨head, hhead⟩ := hearlier _ List.mem_cons_self
      have htip : (readTip backend b).Gives (.error e)
          ((backend.head b).calls ++ (backend.ancestor b).calls) :=
        (Run.gives_self hhead).bind (Run.gives_self hq).bind_error
      have hgives : (readEach backend (b :: rest)).Gives (.error e)
          ((backend.head b).calls ++ (backend.ancestor b).calls) := htip.bind_error
      simpa using hgives
    · simp only [List.cons_append, List.cons.injEq] at hqueries
      obtain ⟨rfl, rfl, hqueries⟩ := hqueries
      obtain ⟨head, hhead⟩ := hearlier _ List.mem_cons_self
      obtain ⟨base, hbase⟩ := hearlier _ (List.mem_cons_of_mem _ List.mem_cons_self)
      have hrest := ih hqueries fun r hr => hearlier r (by simp [hr])
      have htip := @readTip_of_answered κ backend ⟨b, head, base⟩ hhead hbase
      have hgives : (readEach backend (b :: rest)).Gives (.error e)
          (((backend.head b).calls ++ (backend.ancestor b).calls) ++
            (earlier.flatMap Run.calls ++ q.calls)) := htip.bind hrest.bind_error
      simpa using hgives

theorem readTips_of_answered {tips : List Tip} (hlines : backend.branches.outcome = .ok lines)
    (hbranches : tips.map Tip.branch = settings.chosen lines)
    (h : ∀ t ∈ tips, (backend.head t.branch).outcome = .ok t.head ∧
      (backend.ancestor t.branch).outcome = .ok t.base) :
    (readTips backend settings).Gives (.ok tips) (backend.branches.calls ++
      (backend.queries (settings.chosen lines)).flatMap Run.calls) := by
  have hlisted := @readListed_gives_readEach κ backend settings lines
  rw [← hbranches, (readEach_of_answered h).1, (readEach_of_answered h).2] at hlisted
  have hgives : (readTips backend settings).Gives (.ok tips) (backend.branches.calls ++
      ((backend.queries (tips.map Tip.branch)).flatMap Run.calls ++ ([] ++ []))) :=
    (Run.gives_self hlines).bind <| hlisted.bind <| (Run.gives_note _).bind (Run.gives_pure tips)
  rw [← hbranches]
  simpa using hgives

theorem readTips_of_unlisted (hlines : backend.branches.outcome = .error e) :
    (readTips backend settings).Gives (.error e) backend.branches.calls :=
  (Run.gives_self hlines).bind_error

theorem readTips_of_failure {earlier later : List (Run κ String)} {q : Run κ String}
    (hlines : backend.branches.outcome = .ok lines)
    (hqueries : backend.queries (settings.chosen lines) = earlier ++ q :: later)
    (hearlier : ∀ r ∈ earlier, ∃ text, r.outcome = .ok text) (hq : q.outcome = .error e) :
    (readTips backend settings).Gives (.error e)
      (backend.branches.calls ++ (earlier.flatMap Run.calls ++ q.calls)) := by
  have hlisted := @readListed_gives_readEach κ backend settings lines
  have heach := readEach_of_failure hqueries hearlier hq
  rw [heach.1, heach.2] at hlisted
  exact (Run.gives_self hlines).bind hlisted.bind_error

namespace Planner

theorem commands_of_tips {tips : List Tip} {calls : List κ}
    (h : (readTips backend settings).Gives (.ok tips) calls) :
    (commands backend settings).Gives (.ok ((Plan.ofTips tips).commands settings.strategy))
      calls := by
  have hgives : (commands backend settings).Gives
      (.ok ((Plan.ofTips tips).commands settings.strategy)) (calls ++ ([] ++ [])) :=
    (h.notingFailure failureEvents).bind <| (Run.gives_noteAll _).bind (Run.gives_pure _)
  simpa using hgives

theorem commands_of_failure {calls : List κ}
    (h : (readTips backend settings).Gives (.error e) calls) :
    (commands backend settings).Gives (.error e) calls :=
  (h.notingFailure failureEvents).bind_error

end Planner

end Restack
