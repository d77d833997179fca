import Mathlib.Data.List.Forall2
import Restack.Proofs.Reading

/-!
# The order of the queries

A reading has its queries laid out before it: the listing, and then two for each chosen branch. It
asks them in this order. The first one that is not answered is the last that is asked, and its error
is what the reading returns; if all are answered it returns the tips that they make up. No other
query is asked, so a blank or excluded branch is never asked about.
-/

namespace Restack

def Query.about (branches : List String) : List Query :=
  branches.flatMap fun b => [.head b, .ancestor b]

theorem Query.length_about (branches : List String) :
    (about branches).length = 2 * branches.length := by
  induction branches with
  | nil => rfl
  | cons b rest ih =>
    change (about rest).length + 2 = _
    rw [ih, List.length_cons]
    omega

namespace Answers

variable {a : Answers} {name : String} {settings : Settings} {lines : List String}
  {branches : List String} {e : QueryError} {q : Query}

def reply (a : Answers) : Query → Except QueryError (List String)
  | .branches => a.branches
  | .head b => (a.head b).map fun head => [head]
  | .ancestor b => (a.ancestor b).map fun base => [base]

def queries (a : Answers) (settings : Settings) : List Query :=
  .branches ::
    match a.branches with
    | .error _ => []
    | .ok lines => Query.about (settings.chosen lines)

theorem queries_of_listing (h : a.branches = .ok lines) :
    a.queries settings = .branches :: Query.about (settings.chosen lines) := by
  simp only [queries, h]

theorem exists_chosen_of_mem_queries {b : String}
    (h : .head b ∈ a.queries settings ∨ .ancestor b ∈ a.queries settings) :
    ∃ lines, a.branches = .ok lines ∧ b ∈ settings.chosen lines := by
  cases hlisting : a.branches with
  | error e => simp [queries, hlisting] at h
  | ok lines => exact ⟨lines, rfl, by simpa [queries, hlisting, Query.about] using h⟩

/-- The run asks one query, and has the answer to it as its outcome. -/
structure Puts (a : Answers) (r : Run Query String) (q : Query) : Prop where
  calls : r.calls = [q]
  outcome : r.outcome.map (fun text => [text]) = a.reply q

theorem Puts.exists_ok {r : Run Query String} (h : a.Puts r q)
    (hq : ∃ lines, a.reply q = .ok lines) : ∃ text, r.outcome = .ok text := by
  obtain ⟨lines, hlines⟩ := hq
  have houtcome := h.outcome.trans hlines
  cases hr : r.outcome with
  | error e =>
    rw [hr] at houtcome
    cases houtcome
  | ok text => exact ⟨text, rfl⟩

theorem Puts.eq_error {r : Run Query String} (h : a.Puts r q) (hq : a.reply q = .error e) :
    r.outcome = .error e := by
  have houtcome := h.outcome.trans hq
  cases hr : r.outcome with
  | error e' =>
    rw [hr] at houtcome
    cases houtcome
    rfl
  | ok text =>
    rw [hr] at houtcome
    cases houtcome

theorem flatMap_calls_of_puts {runs : List (Run Query String)} {asked : List Query}
    (h : List.Forall₂ a.Puts runs asked) : runs.flatMap Run.calls = asked := by
  induction h with
  | nil => rfl
  | cons hput _ ih => rw [List.flatMap_cons, hput.calls, ih, List.singleton_append]

theorem exists_ok_of_puts {runs : List (Run Query String)} {asked : List Query}
    (h : List.Forall₂ a.Puts runs asked) (hasked : ∀ x ∈ asked, ∃ lines, a.reply x = .ok lines) :
    ∀ r ∈ runs, ∃ text, r.outcome = .ok text := by
  induction h with
  | nil => simp
  | cons hput _ ih =>
    obtain ⟨hfirst, hrest⟩ := List.forall_mem_cons.1 hasked
    exact List.forall_mem_cons.2 ⟨hput.exists_ok hfirst, ih hrest⟩

theorem puts_queries (a : Answers) (name : String) (branches : List String) :
    List.Forall₂ a.Puts ((a.backend name).queries branches) (Query.about branches) := by
  induction branches with
  | nil => exact .nil
  | cons b rest ih => exact .cons ⟨rfl, rfl⟩ (.cons ⟨rfl, rfl⟩ ih)

theorem readTips_of_first_failure {earlier later : List Query} (name : String)
    (hqueries : a.queries settings = earlier ++ q :: later)
    (hearlier : ∀ x ∈ earlier, ∃ lines, a.reply x = .ok lines) (hq : a.reply q = .error e) :
    (readTips (a.backend name) settings).Gives (.error e) (earlier ++ [q]) := by
  cases earlier with
  | nil =>
    obtain ⟨rfl, -⟩ := List.cons.inj hqueries
    exact readTips_of_unlisted hq
  | cons x earlier =>
    obtain ⟨rfl, habout⟩ := List.cons.inj hqueries
    obtain ⟨⟨lines, hlisting⟩, hearlier⟩ := List.forall_mem_cons.1 hearlier
    have hlisting : a.branches = .ok lines := hlisting
    simp only [hlisting] at habout
    have hputs := a.puts_queries name (settings.chosen lines)
    rw [habout] at hputs
    have hbefore := List.forall₂_take_append _ _ _ hputs
    obtain ⟨r, after, hr, -, hdrop⟩ :=
      List.forall₂_cons_right_iff.1 (List.forall₂_drop_append _ _ _ hputs)
    have hruns := (List.take_append_drop earlier.length _).symm.trans (congrArg _ hdrop)
    have hgives : (readTips (a.backend name) settings).Gives (.error e) _ :=
      readTips_of_failure hlisting hruns (exists_ok_of_puts hbefore hearlier) (hr.eq_error hq)
    rwa [flatMap_calls_of_puts hbefore, hr.calls] at hgives

theorem readTips_of_all_answered (name : String)
    (h : ∀ x ∈ a.queries settings, ∃ lines, a.reply x = .ok lines) :
    ∃ lines tips, a.branches = .ok lines ∧ tips.map Tip.branch = settings.chosen lines ∧
      (∀ t ∈ tips, a.head t.branch = .ok t.head ∧ a.ancestor t.branch = .ok t.base) ∧
      (readTips (a.backend name) settings).Gives (.ok tips) (a.queries settings) := by
  obtain ⟨⟨lines, hlisting⟩, habout⟩ := List.forall_mem_cons.1 h
  have hlisting : a.branches = .ok lines := hlisting
  simp only [hlisting] at habout
  have hputs := a.puts_queries name (settings.chosen lines)
  have hruns := exists_ok_of_puts hputs habout
  have hboth : ∀ b ∈ settings.chosen lines,
      (∃ head, a.head b = .ok head) ∧ ∃ base, a.ancestor b = .ok base := by
    intro b hb
    have hhead := hruns _ (List.mem_flatMap.2 ⟨b, hb, List.mem_cons_self⟩)
    have hbase := hruns _ (List.mem_flatMap.2
      ⟨b, hb, List.mem_cons_of_mem _ List.mem_cons_self⟩)
    exact ⟨hhead, hbase⟩
  obtain ⟨tips, hbranches, htips⟩ := exists_tips_of_answers hboth
  have hgives : (readTips (a.backend name) settings).Gives (.ok tips) _ :=
    readTips_of_answered hlisting hbranches htips
  rw [flatMap_calls_of_puts hputs] at hgives
  refine ⟨lines, tips, hlisting, hbranches, htips, ?_⟩
  rwa [queries_of_listing hlisting]

theorem calls_isPrefix_queries (a : Answers) (name : String) (settings : Settings) :
    (readTips (a.backend name) settings).calls <+: a.queries settings := by
  rcases forall_ok_or_exists_first_error a.reply (a.queries settings) with
    hall | ⟨earlier, q, later, e, hqueries, hearlier, hq⟩
  · obtain ⟨-, -, -, -, -, -, hcalls⟩ := readTips_of_all_answered name hall
    exact hcalls ▸ List.prefix_rfl
  · rw [(readTips_of_first_failure name hqueries hearlier hq).2, hqueries]
    exact ⟨later, by simp⟩

/-- A reading asks its queries in order. It stops at the first that is not answered, with its error,
and if there is none it returns the tips that the answers make up. Whatever it asks about is a
listed branch without blanks around it, and neither empty nor excluded. -/
theorem readTips_asks_until_failure (a : Answers) (name : String) (settings : Settings) :
    let queries := a.queries settings
    let r := readTips (a.backend name) settings
    (∀ earlier q later e, queries = earlier ++ q :: later →
      (∀ x ∈ earlier, ∃ lines, a.reply x = .ok lines) → a.reply q = .error e →
        r.outcome = .error e ∧ r.calls = earlier ++ [q]) ∧
    ((∀ x ∈ queries, ∃ lines, a.reply x = .ok lines) →
      ∃ lines tips, a.branches = .ok lines ∧
        r.calls = queries ∧ queries.length = 1 + 2 * (settings.chosen lines).length ∧
        r.outcome = .ok tips ∧ tips.map Tip.branch = settings.chosen lines ∧
        ∀ t ∈ tips, a.head t.branch = .ok t.head ∧ a.ancestor t.branch = .ok t.base) ∧
    ∀ b, .head b ∈ r.calls ∨ .ancestor b ∈ r.calls →
      ∃ lines, a.branches = .ok lines ∧ (∃ line ∈ lines, b = Text.trim line) ∧
        b ≠ "" ∧ settings.excludes b = false := by
  intro queries r
  refine ⟨fun earlier q later e hqueries hearlier hq => ?_, fun h => ?_, fun b hb => ?_⟩
  · exact readTips_of_first_failure name hqueries hearlier hq
  · obtain ⟨lines, tips, hlisting, hbranches, htips, houtcome, hcalls⟩ :=
      readTips_of_all_answered name h
    refine ⟨lines, tips, hlisting, hcalls, ?_, houtcome, hbranches, htips⟩
    simp only [queries, queries_of_listing hlisting, List.length_cons, Query.length_about]
    omega
  · have hasked := (a.calls_isPrefix_queries name settings).subset
    obtain ⟨lines, hlisting, hchosen⟩ :=
      exists_chosen_of_mem_queries (hb.imp (hasked ·) (hasked ·))
    obtain ⟨hlisted, hkept⟩ := List.mem_filter.1 hchosen
    obtain ⟨line, hline, rfl⟩ := List.mem_map.1 hlisted
    exact ⟨lines, hlisting, ⟨line, hline, rfl⟩, by simpa using hkept⟩

def withRoot (root : String) : Answers where
  branches := .ok [" main", "", "wikidoc", "lone\t", "topic"]
  head b := .ok (b ++ "2")
  ancestor b := if b = root then .error ⟨root ++ "~1", .failed (some 128) ""⟩ else .ok (b ++ "1")

theorem readTips_asks_until_failure_withRoot :
    let cut := readTips ((withRoot "lone").backend "memory") {}
    let whole := readTips ((withRoot "wikidoc").backend "memory") {}
    (cut.outcome = .error ⟨"lone~1", .failed (some 128) ""⟩ ∧
      cut.calls = [.branches, .head "main", .ancestor "main", .head "lone", .ancestor "lone"]) ∧
    whole.calls = .branches :: Query.about ["main", "lone", "topic"] ∧
    ∃ tips, whole.outcome = .ok tips ∧ tips.map Tip.branch = ["main", "lone", "topic"] := by
  intro cut whole
  have hchosen : Settings.chosen {} [" main", "", "wikidoc", "lone\t", "topic"] =
      ["main", "lone", "topic"] := by decide
  have hqueries : ∀ root, (withRoot root).queries {} =
      .branches :: Query.about ["main", "lone", "topic"] := fun root =>
    (queries_of_listing rfl).trans (congrArg (.branches :: Query.about ·) hchosen)
  obtain ⟨hcut, -, -⟩ := readTips_asks_until_failure (withRoot "lone") "memory" {}
  obtain ⟨-, hwhole, -⟩ := readTips_asks_until_failure (withRoot "wikidoc") "memory" {}
  refine ⟨hcut [.branches, .head "main", .ancestor "main", .head "lone"] (.ancestor "lone")
    [.head "topic", .ancestor "topic"] _ (hqueries "lone") ?_ rfl, ?_⟩
  · simp [reply, withRoot, Except.map]
  · obtain ⟨lines, tips, hlisting, hcalls, -, houtcome, hbranches, -⟩ := hwhole (by
      rw [hqueries]
      simp [Query.about, reply, withRoot, Except.map])
    rw [hqueries] at hcalls
    cases hlisting
    exact ⟨hcalls, tips, houtcome, hbranches.trans hchosen⟩

end Answers

end Restack
