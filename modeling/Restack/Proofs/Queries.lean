import Restack.Git
import Restack.Proofs.Encoding
import Restack.Proofs.Reading
import Restack.Recording

/-!
# The queries about a repository

A repository is asked one query after the other: for its listing, then for the head and the base
of each branch that is read. Either all are answered and the answers are the tips, or there is a
first query that fails, and it is the last that is asked.
-/

namespace Restack

namespace CommandLine

variable {host : Host} {c : CommandLine} {text : String} {cause : QueryError.Cause}

def answer (host : Host) (c : CommandLine) : Except QueryError.Cause String :=
  match host c with
  | .error reason => .error (.notStarted reason)
  | .ok output =>
    if output.status = some 0 then
      match Utf8.decode output.stdout with
      | .error e => .error (.notText e)
      | .ok text => .ok (Text.trim text)
    else .error (.failed output.status (Text.trim (Utf8.decodeLossy output.stderr)))

theorem answer_of_encode {output : Output} (h : host c = .ok output)
    (hstatus : output.status = some 0) (hstdout : output.stdout = Utf8.encode text) :
    c.answer host = .ok (Text.trim text) := by
  simp [answer, h, hstatus, hstdout, Utf8.decode_encode]

def Writes (host : Host) (c : CommandLine) (text : String) : Prop :=
  ∃ stderr, host c = .ok ⟨some 0, Utf8.encode text, stderr⟩

theorem Writes.answer (h : c.Writes host text) : c.answer host = .ok (Text.trim text) := by
  obtain ⟨stderr, hhost⟩ := h
  exact answer_of_encode hhost rfl rfl

def calls (host : Host) (c : CommandLine) : List (List String) :=
  match host c with
  | .error _ => []
  | .ok _ => [c.args]

theorem run_gives_of_not_started {reason : String} (h : host c = .error reason) :
    (c.run host).Gives (.error ⟨c.line, .notStarted reason⟩) [] := by
  rw [run, h]
  exact ⟨rfl, rfl⟩

theorem run_gives_of_succeeded {output : Output} (h : host c = .ok output)
    (hstatus : output.status = some 0) : (c.run host).Gives (.ok output) [c.args] := by
  rw [run, h]
  simp only [conclude, hstatus, if_true]
  exact ⟨rfl, rfl⟩

theorem run_gives_of_failed {output : Output} (h : host c = .ok output)
    (hstatus : output.status ≠ some 0) : (c.run host).Gives (.error ⟨c.line,
      .failed output.status (Text.trim (Utf8.decodeLossy output.stderr))⟩) [c.args] := by
  rw [run, h]
  simp only [conclude, hstatus, if_false]
  exact ⟨rfl, rfl⟩

theorem capture_gives (host : Host) (c : CommandLine) :
    (c.capture host).Gives ((c.answer host).mapError fun cause => ⟨c.line, cause⟩)
      (c.calls host) := by
  cases hhost : host c with
  | error reason =>
    have hgives : (c.capture host).Gives (.error ⟨c.line, .notStarted reason⟩) [] :=
      (run_gives_of_not_started hhost).bind_error
    simpa [answer, calls, hhost, Except.mapError] using hgives
  | ok output =>
    by_cases hstatus : output.status = some 0
    · have hrun := run_gives_of_succeeded hhost hstatus
      cases hdecode : Utf8.decode output.stdout with
      | error e =>
        have hgives : (c.capture host).Gives (.error ⟨c.line, .notText e⟩) ([c.args] ++ []) :=
          hrun.bind (by rw [hdecode]; exact ⟨rfl, rfl⟩)
        simpa [answer, calls, hhost, hstatus, hdecode, Except.mapError] using hgives
      | ok text =>
        have hgives : (c.capture host).Gives (.ok (Text.trim text)) ([c.args] ++ []) :=
          hrun.bind (by rw [hdecode]; exact Run.gives_pure _)
        simpa [answer, calls, hhost, hstatus, hdecode, Except.mapError] using hgives
    · have hgives : (c.capture host).Gives (.error ⟨c.line,
          .failed output.status (Text.trim (Utf8.decodeLossy output.stderr))⟩) [c.args] :=
        (run_gives_of_failed hhost hstatus).bind_error
      simpa [answer, calls, hhost, hstatus, Except.mapError] using hgives

theorem capture_gives_of_answer (h : c.answer host = .ok text) :
    (c.capture host).Gives (.ok text) [c.args] := by
  have hcalls : c.calls host = [c.args] := by
    unfold answer at h
    unfold calls
    cases hrun : host c with
    | error reason => simp [hrun] at h
    | ok output => rfl
  have hgives := capture_gives host c
  rwa [h, hcalls] at hgives

theorem capture_gives_of_failure (h : c.answer host = .error cause) :
    (c.capture host).Gives (.error ⟨c.line, cause⟩) (c.calls host) := by
  have hgives := capture_gives host c
  rwa [h] at hgives

end CommandLine

theorem Git.headRevision_ne_ancestorRevision (b c : String) :
    headRevision b ≠ ancestorRevision c := by
  intro h
  have hlast : (headRevision b).toList.getLast? = (ancestorRevision c).toList.getLast? := by rw [h]
  simp [headRevision, ancestorRevision] at hlast

namespace Git.Repository

open CommandLine

variable {r : Repository} {host : Host} {settings : Settings} {tips : List Tip} {c : CommandLine}

def listing (r : Repository) : CommandLine := r.command listArgs

def headQuery (r : Repository) (branch : String) : CommandLine :=
  r.command (resolveArgs (headRevision branch))

def baseQuery (r : Repository) (branch : String) : CommandLine :=
  r.command (resolveArgs (ancestorRevision branch))

def branchQueries (r : Repository) (branches : List String) : List CommandLine :=
  branches.flatMap fun b => [r.headQuery b, r.baseQuery b]

/-- The queries that are asked, in order, as long as they are answered. -/
def queries (r : Repository) (host : Host) (settings : Settings) : List CommandLine :=
  r.listing ::
    match r.listing.answer host with
    | .error _ => []
    | .ok text => r.branchQueries (settings.chosen (Text.lines text))

theorem queries_of_listing {text : String} (h : r.listing.answer host = .ok text) :
    r.queries host settings =
      r.listing :: r.branchQueries (settings.chosen (Text.lines text)) := by
  simp only [queries, h]

theorem of_mem_queries (h : c ∈ r.queries host settings) :
    c = r.listing ∨ ∃ text, r.listing.answer host = .ok text ∧
      ∃ b ∈ settings.chosen (Text.lines text), c = r.headQuery b ∨ c = r.baseQuery b := by
  rcases List.mem_cons.1 h with hlisting | hbranch
  · exact .inl hlisting
  · cases hanswer : r.listing.answer host with
    | error cause => simp [hanswer] at hbranch
    | ok text =>
      simp only [hanswer] at hbranch
      obtain ⟨b, hb, hc⟩ := List.mem_flatMap.1 hbranch
      exact .inr ⟨text, rfl, b, hb, List.mem_pair.1 hc⟩

theorem program_of_mem_queries (h : c ∈ r.queries host settings) : c.program = "git" := by
  rcases of_mem_queries h with rfl | ⟨_, _, _, _, rfl | rfl⟩ <;> rfl

structure Answers (r : Repository) (host : Host) (settings : Settings) (tips : List Tip) :
    Prop where
  listing : ∃ text, r.listing.answer host = .ok text ∧
    tips.map Tip.branch = settings.chosen (Text.lines text)
  head : ∀ t ∈ tips, (r.headQuery t.branch).answer host = .ok t.head
  base : ∀ t ∈ tips, (r.baseQuery t.branch).answer host = .ok t.base

/-- The query `c` fails, after queries that are answered. -/
structure FailsAt (r : Repository) (host : Host) (settings : Settings)
    (earlier : List CommandLine) (c : CommandLine) (cause : QueryError.Cause) : Prop where
  queries : ∃ later, r.queries host settings = earlier ++ c :: later
  earlier : ∀ d ∈ earlier, ∃ text, d.answer host = .ok text
  failure : c.answer host = .error cause

theorem FailsAt.mem_queries {earlier : List CommandLine} {cause : QueryError.Cause}
    (h : r.FailsAt host settings earlier c cause) : c ∈ r.queries host settings := by
  obtain ⟨later, hqueries⟩ := h.queries
  rw [hqueries]
  simp

theorem exists_answers (h : ∀ c ∈ r.queries host settings, ∃ text, c.answer host = .ok text) :
    ∃ tips, r.Answers host settings tips := by
  obtain ⟨text, hlisting⟩ := h r.listing List.mem_cons_self
  rw [queries_of_listing hlisting] at h
  have hboth : ∀ b ∈ settings.chosen (Text.lines text),
      (∃ head, (r.headQuery b).answer host = .ok head) ∧
        ∃ base, (r.baseQuery b).answer host = .ok base := by
    intro b hb
    have hmem : ∀ c ∈ [r.headQuery b, r.baseQuery b], ∃ text, c.answer host = .ok text :=
      fun c hc => h c (List.mem_cons_of_mem _ (List.mem_flatMap.2 ⟨b, hb, hc⟩))
    exact ⟨hmem (r.headQuery b) (by simp), hmem (r.baseQuery b) (by simp)⟩
  obtain ⟨tips, hbranches, htips⟩ := exists_tips_of_answers hboth
  exact ⟨tips, ⟨text, hlisting, hbranches⟩, fun t ht => (htips t ht).1, fun t ht => (htips t ht).2⟩

theorem answers_or_failsAt (r : Repository) (host : Host) (settings : Settings) :
    (∃ tips, r.Answers host settings tips) ∨
      ∃ earlier c cause, r.FailsAt host settings earlier c cause := by
  rcases forall_ok_or_exists_first_error (·.answer host) (r.queries host settings) with
    hall | ⟨earlier, c, later, cause, hqueries, hearlier, hc⟩
  · exact .inl (exists_answers hall)
  · exact .inr ⟨earlier, c, cause, ⟨later, hqueries⟩, hearlier, hc⟩

theorem Answers.answer_of_mem (h : r.Answers host settings tips) {c : CommandLine}
    (hc : c ∈ r.branchQueries (tips.map Tip.branch)) : ∃ text, c.answer host = .ok text := by
  obtain ⟨b, hb, hc⟩ := List.mem_flatMap.1 hc
  obtain ⟨t, ht, rfl⟩ := List.mem_map.1 hb
  rcases List.mem_pair.1 hc with rfl | rfl
  · exact ⟨t.head, h.head t ht⟩
  · exact ⟨t.base, h.base t ht⟩

theorem Answers.answer_of_mem_queries (h : r.Answers host settings tips)
    (hc : c ∈ r.queries host settings) : ∃ text, c.answer host = .ok text := by
  obtain ⟨text, hlisting, hbranches⟩ := h.listing
  rw [queries_of_listing hlisting, ← hbranches] at hc
  rcases List.mem_cons.1 hc with rfl | hc
  · exact ⟨text, hlisting⟩
  · exact h.answer_of_mem hc

theorem queries_backend (branches : List String) :
    (r.backend host).queries branches = (r.branchQueries branches).map (capture host) := by
  simp [Backend.queries, branchQueries, List.map_flatMap, backend, resolve, headQuery, baseQuery]

theorem branches_gives {text : String} (h : r.listing.answer host = .ok text) :
    (r.backend host).branches.Gives (.ok (Text.lines text)) [r.listing.args] :=
  (capture_gives_of_answer h).bind (Run.gives_pure _)

theorem flatMap_calls {commands : List CommandLine}
    (h : ∀ c ∈ commands, ∃ text, c.answer host = .ok text) :
    (commands.map (capture host)).flatMap Run.calls = commands.map CommandLine.args := by
  induction commands with
  | nil => rfl
  | cons c rest ih =>
    obtain ⟨hc, hrest⟩ := List.forall_mem_cons.1 h
    obtain ⟨text, hc⟩ := hc
    rw [List.map_cons, List.flatMap_cons, ih hrest, (capture_gives_of_answer hc).2]
    rfl

theorem readTips_of_answers (h : r.Answers host settings tips) :
    (readTips (r.backend host) settings).Gives (.ok tips)
      ((r.queries host settings).map CommandLine.args) := by
  obtain ⟨text, hlisting, hbranches⟩ := h.listing
  have hlines := branches_gives hlisting
  have hanswered : ∀ t ∈ tips, ((r.backend host).head t.branch).outcome = .ok t.head ∧
      ((r.backend host).ancestor t.branch).outcome = .ok t.base := fun t ht =>
    ⟨(capture_gives_of_answer (h.head t ht)).1, (capture_gives_of_answer (h.base t ht)).1⟩
  have hgives := readTips_of_answered hlines.1 hbranches hanswered
  rw [hlines.2, queries_backend, ← hbranches, flatMap_calls fun c => h.answer_of_mem] at hgives
  rw [queries_of_listing hlisting, ← hbranches]
  exact hgives

theorem readTips_of_failsAt {earlier : List CommandLine} {c : CommandLine}
    {cause : QueryError.Cause} (h : r.FailsAt host settings earlier c cause) :
    (readTips (r.backend host) settings).Gives (.error ⟨c.line, cause⟩)
      (earlier.map CommandLine.args ++ c.calls host) := by
  obtain ⟨later, hqueries⟩ := h.queries
  have hc := capture_gives_of_failure h.failure
  -- either the listing fails, or a query about a branch that it names
  rcases earlier with _ | ⟨d, earlier⟩
  · obtain ⟨rfl, -⟩ := List.cons.inj hqueries
    have hunlisted : (r.backend host).branches.Gives (.error ⟨r.listing.line, cause⟩)
        (r.listing.calls host) := hc.bind_error
    have hgives := @readTips_of_unlisted _ (r.backend host) settings _ hunlisted.1
    rwa [hunlisted.2] at hgives
  · obtain ⟨hlisting, hearlier⟩ := List.forall_mem_cons.1 h.earlier
    obtain ⟨rfl, -⟩ := List.cons.inj hqueries
    obtain ⟨text, hlisting⟩ := hlisting
    have hlines := branches_gives hlisting
    rw [queries_of_listing hlisting, List.cons_append] at hqueries
    have hrest := List.tail_eq_of_cons_eq hqueries
    have hbackend : (r.backend host).queries (settings.chosen (Text.lines text)) =
        earlier.map (capture host) ++ c.capture host :: later.map (capture host) := by
      rw [queries_backend, hrest, List.map_append, List.map_cons]
    have hanswered : ∀ run ∈ earlier.map (capture host), ∃ text, run.outcome = .ok text :=
      List.forall_mem_map.2 fun d hd => by
        obtain ⟨text, hd⟩ := hearlier d hd
        exact ⟨text, (capture_gives_of_answer hd).1⟩
    have hgives := readTips_of_failure hlines.1 hbackend hanswered hc.1
    rw [hlines.2, flatMap_calls hearlier, hc.2] at hgives
    simpa using hgives

theorem outcome_eq_ok_iff : (readTips (r.backend host) settings).outcome = .ok tips ↔
    r.Answers host settings tips := by
  constructor
  · intro h
    rcases answers_or_failsAt r host settings with hanswers | hfails
    · obtain ⟨tips', hanswers⟩ := hanswers
      have hsame := h.symm.trans (readTips_of_answers hanswers).1
      rwa [Except.ok.inj hsame]
    · obtain ⟨earlier, c, cause, hfails⟩ := hfails
      have hne := h.symm.trans (readTips_of_failsAt hfails).1
      cases hne
  · intro h
    exact (readTips_of_answers h).1

theorem exists_tips_iff : (∃ tips, (readTips (r.backend host) settings).outcome = .ok tips) ↔
    ∀ c ∈ r.queries host settings, ∃ text, c.answer host = .ok text := by
  simp only [outcome_eq_ok_iff]
  constructor
  · intro h c hc
    obtain ⟨tips, h⟩ := h
    exact h.answer_of_mem_queries hc
  · exact exists_answers

theorem Answers.map_branch_eq {text : String} (h : r.Answers host settings tips)
    (hlisting : r.listing.Writes host text) :
    tips.map Tip.branch = settings.chosen (Text.lines (Text.trim text)) := by
  obtain ⟨listed, hlisted, hbranches⟩ := h.listing
  rw [hlisting.answer] at hlisted
  rw [hbranches, ← Except.ok.inj hlisted]

theorem hasNul_option (h : 0 ∉ r.directory) : Recording.hasNul r.option = false := by
  have hlossy : '\x00' ∉ (Utf8.decodeLossy r.directory).toList := by
    intro hmem
    obtain ⟨before, more, hbytes⟩ := Utf8.exists_of_mem_decodeLossy hmem (by decide)
    have hzero : String.utf8EncodeChar '\x00' = [0] := by decide
    exact h (by rw [hbytes, hzero]; simp)
  have hname : '\x00' ∉ "--git-dir=".toList := by decide
  rw [Recording.hasNul, option, String.toList_append, List.contains_eq_mem,
    decide_eq_false_iff_not, List.mem_append]
  exact not_or.2 ⟨hname, hlossy⟩

theorem isRepositoryOption_option (r : Repository) :
    Recording.isRepositoryOption r.option = true := by
  rw [Recording.isRepositoryOption, option, String.toList_append, List.isPrefixOf_iff_prefix]
  exact List.prefix_append _ _

theorem recorded_command (h : 0 ∉ r.directory) (answers : List Response) {args : List String}
    (hargs : ∀ a ∈ args, Recording.hasNul a = false) (hkey : Recording.key args = args) :
    (Recording.responses answers).host (r.command args) =
      .ok (Recording.answer answers args) := by
  have hprogram : Recording.hasNul "git" = false := by decide
  have hnone : ("git" :: r.option :: args).any Recording.hasNul = false := by
    simp only [List.any_eq_false, List.forall_mem_cons, Bool.not_eq_true]
    exact ⟨hprogram, hasNul_option h, hargs⟩
  have hanswer : Recording.answer answers (r.option :: args) = Recording.answer answers args := by
    rw [Recording.answer, Recording.answer, hkey, Recording.key,
      if_pos r.isRepositoryOption_option]
  change (if ("git" :: r.option :: args).any Recording.hasNul then _ else _) = _
  rw [hnone, ← hanswer]
  rfl

end Git.Repository

end Restack
