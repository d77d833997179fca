import Restack.Proofs.EndToEnd
import Mathlib.Algebra.Ring.Nat

/-!
# The line about a failure

When a query fails, the program says so on one line: neither the name of a branch nor the reason of
the failure holds a newline. The path that the program was given is shown as it is, so each newline
in it, and nothing else, breaks the line.
-/

namespace Restack

open Git Text

open QueryError (Cause)

namespace Text

def newlines (s : String) : ℕ := s.toList.count '\n'

def IsSingleLine (s : String) : Prop := newlines s = 1 ∧ s.toList.getLast? = some '\n'

@[simp] theorem newlines_append (s t : String) : newlines (s ++ t) = newlines s + newlines t := by
  simp [newlines]

theorem newlines_eq_zero_iff {s : String} : newlines s = 0 ↔ '\n' ∉ s.toList :=
  List.count_eq_zero

theorem newlines_repr (n : ℕ) : newlines n.repr = 0 := by
  rw [newlines_eq_zero_iff, Nat.toList_repr]
  intro h
  have hdigit : '\n'.isDigit := Nat.isDigit_of_mem_toDigits (by decide) (by decide) h
  exact absurd hdigit (by decide)

theorem newlines_intercalate (parts : List String) :
    newlines (" ".intercalate parts) = (parts.map newlines).sum := by
  have hblank : newlines " " = 0 := rfl
  induction parts with
  | nil => rfl
  | cons first rest ih =>
    cases rest with
    | nil => simp
    | cons second rest =>
      rw [String.intercalate_cons_cons, newlines_append, newlines_append, ih, hblank]
      simp

end Text

theorem Utf8.newlines_message (e : DecodeError) : newlines e.message = 0 := by
  unfold DecodeError.message
  split
  · simp only [newlines_append, Nat.toString_eq_repr, newlines_repr]
    rfl
  · simp only [newlines_append, Nat.toString_eq_repr, newlines_repr]
    rfl

/-- What the host says of a command that it cannot start stands on one line. -/
def Host.SaysOnOneLine (host : Host) : Prop :=
  ∀ c reason, host c = .error reason → newlines reason = 0

theorem Recording.host_saysOnOneLine (script : Recording) : script.host.SaysOnOneLine := by
  intro c reason h
  unfold host at h
  split at h
  · cases h
    rfl
  · split at h
    · cases h
      rfl
    · split at h
      · cases h
      · cases h
        rfl

variable {host : Host} {c : CommandLine} {cause : Cause} {settings : Settings}

theorem CommandLine.newlines_suffix (hhost : host.SaysOnOneLine)
    (h : c.answer host = .error cause) : newlines cause.suffix = 0 := by
  unfold answer at h
  split at h
  next reason hreason =>
    cases h
    rw [Cause.suffix, newlines_append, hhost c reason hreason]
    rfl
  next output houtput =>
    split at h
    · split at h
      next e he =>
        cases h
        rw [Cause.suffix, newlines_append, Utf8.newlines_message]
        rfl
      next => cases h
    · cases h
      rfl

namespace Git.Repository

variable {r : Repository}

theorem newlines_option (r : Repository) : newlines r.option = r.directory.count 0x0A := by
  have hlossy : newlines (Utf8.decodeLossy r.directory) = r.directory.count 0x0A :=
    Utf8.count_decodeLossy (by decide) r.directory
  rw [option, newlines_append, hlossy]
  exact Nat.zero_add _

theorem newlines_line_command (r : Repository) {args : List String}
    (h : ∀ a ∈ args, newlines a = 0) :
    newlines (r.command args).line = r.directory.count 0x0A := by
  have hargs : (args.map newlines).sum = 0 := by
    rw [List.map_congr_left h]
    simp
  have hprogram : newlines "git" = 0 := rfl
  change newlines (" ".intercalate ("git" :: r.option :: args)) = _
  rw [newlines_intercalate, List.map_cons, List.map_cons, List.sum_cons, List.sum_cons, hargs,
    hprogram, newlines_option]
  omega

theorem newlines_line (h : c ∈ r.queries host settings) :
    newlines c.line = r.directory.count 0x0A := by
  rcases of_mem_queries h with rfl | ⟨text, -, b, hb, rfl | rfl⟩
  · exact r.newlines_line_command (by decide)
  all_goals
    have hname := newlines_eq_zero_iff.2 (Settings.newline_not_mem_of_mem_chosen hb)
    apply r.newlines_line_command
    simp only [resolveArgs, headRevision, ancestorRevision, List.forall_mem_cons, newlines_append,
      hname]
    exact ⟨rfl, rfl, by simp⟩

end Git.Repository

namespace Program

open Arguments

variable {σ : Type} {platform : Platform σ} {env : Environment} {s : σ}
  {argv : List (List UInt8)} {directory : Path}

theorem newlines_failureLine {r : Repository} {earlier : List CommandLine}
    (hhost : host.SaysOnOneLine) (h : r.FailsAt host settings earlier c cause) :
    newlines (Planner.failureLine ⟨c.line, cause⟩) = r.directory.count 0x0A := by
  have hstart : newlines "Failed to read branches: Error while calling: " = 0 := rfl
  rw [Planner.failureLine_eq, newlines_append, newlines_append, hstart,
    Repository.newlines_line h.mem_queries, CommandLine.newlines_suffix hhost h.failure]
  omega

theorem exists_failsAt_of_code (hcode : (run platform host env s argv).1.code = 1) :
    ∃ directory earlier c cause, parse argv = .path directory ∧
      (⟨directory⟩ : Repository).FailsAt host {} earlier c cause ∧
      (run platform host env s argv).1.stderr = Planner.failureLine ⟨c.line, cause⟩ ++ "\n" := by
  by_cases hearly : EndsEarly platform env s argv
  · rw [(report_of_endsEarly hearly).1] at hcode
    cases hcode
  rw [run_of_not_endsEarly hearly] at hcode ⊢
  cases hparse : parse argv with
  | flag flag => simp [answer, hparse] at hcode
  | refused problem => simp [answer, hparse] at hcode
  | path directory =>
    rcases (⟨directory⟩ : Repository).answers_or_failsAt host {} with
      ⟨tips, hanswers⟩ | ⟨earlier, c, cause, hfails⟩
    · have hok := (answer_of_answers env.rendering hparse hanswers).1
      rw [hok] at hcode
      cases hcode
    · obtain ⟨-, -, hstderr, -⟩ := answer_of_failsAt env.rendering hparse hfails
      exact ⟨directory, earlier, c, cause, rfl, hfails, hstderr⟩

/-- When the program ends because a query failed, its last word is a newline, and the newlines before
are those of the path that it was given: it is one line exactly if the path has none. -/
theorem newlines_stderr (platform : Platform σ) (script : Recording) (env : Environment) (s : σ)
    (argv : List (List UInt8)) (hcode : (run platform script.host env s argv).1.code = 1) :
    let stderr := (run platform script.host env s argv).1.stderr
    ∃ directory, parse argv = .path directory ∧ stderr.toList.getLast? = some '\n' ∧
      newlines stderr = directory.count 0x0A + 1 ∧ (IsSingleLine stderr ↔ 0x0A ∉ directory) := by
  intro stderr
  obtain ⟨directory, earlier, c, cause, hparse, hfails, hstderr⟩ := exists_failsAt_of_code hcode
  have hlast : stderr.toList.getLast? = some '\n' := by simp [stderr, hstderr]
  have hcount : newlines stderr = directory.count 0x0A + 1 := by
    have hend : newlines "\n" = 1 := rfl
    have hline := newlines_failureLine script.host_saysOnOneLine hfails
    simp only [stderr, hstderr, newlines_append, hline, hend]
  refine ⟨directory, hparse, hlast, hcount, ?_⟩
  rw [IsSingleLine, hcount, ← List.count_eq_zero]
  simp [hlast]

theorem failsAt_responses_nil {r : Repository} (hnul : 0 ∉ r.directory) :
    r.FailsAt (Recording.responses []).host settings [] r.listing
      (.failed (some 128) (trim (Utf8.decodeLossy Recording.unknownRevision.stderr))) := by
  have hhost : (Recording.responses []).host r.listing = .ok Recording.unknownRevision :=
    Repository.recorded_command hnul [] (by decide) rfl
  refine ⟨⟨_, rfl⟩, by simp, ?_⟩
  rw [CommandLine.answer, hhost]
  rfl

theorem report_responses_nil {args : List String} {path : String}
    (hparse : parse (args.map Utf8.encode) = .path (Utf8.encode path))
    (hnul : 0 ∉ Utf8.encode path) :
    let report := (run machine (Recording.responses []).host atHome ⟨[], [], []⟩
      (args.map Utf8.encode)).1
    report.code = 1 ∧ report.stderr = "Failed to read branches: Error while calling: git " ++
      ("--git-dir=" ++ path) ++ " for-each-ref refs/heads/ --format=%(refname:short)\n" := by
  intro report
  let r : Repository := ⟨Utf8.encode path⟩
  have hfails : r.FailsAt (Recording.responses []).host {} [] r.listing _ :=
    failsAt_responses_nil hnul
  obtain ⟨hcode, -, hstderr, -⟩ := answer_of_failsAt atHome.rendering hparse hfails
  have hreport : report =
      answer (Recording.responses []).host atHome.rendering (args.map Utf8.encode) :=
    run_of_not_endsEarly (not_endsEarly_atHome args)
  rw [hreport]
  refine ⟨hcode, hstderr.trans ?_⟩
  have hline : CommandLine.line (Repository.listing ⟨Utf8.encode path⟩) =
      " ".intercalate ["git", "--git-dir=" ++ Utf8.decodeLossy (Utf8.encode path),
        "for-each-ref", "refs/heads/", "--format=%(refname:short)"] := rfl
  rw [Planner.failureLine_eq, hline, Cause.suffix, Utf8.decodeLossy_encode]
  simp [String.intercalate_cons_cons, ← String.toList_inj]

theorem newlines_stderr_plainPath :
    let argv := ["rebase-plan", "repo/.git"].map Utf8.encode
    let report := (run machine (Recording.responses []).host atHome ⟨[], [], []⟩ argv).1
    report.code = 1 ∧ IsSingleLine report.stderr := by
  intro argv report
  have hparse : parse argv = .path (Utf8.encode "repo/.git") := by decide
  obtain ⟨hcode, -⟩ := report_responses_nil hparse (by decide)
  obtain ⟨directory, hdirectory, -, -, hsingle⟩ :=
    newlines_stderr machine (Recording.responses []) atHome ⟨[], [], []⟩ argv hcode
  obtain rfl : Utf8.encode "repo/.git" = directory :=
    Outcome.path.inj (hparse.symm.trans hdirectory)
  exact ⟨hcode, hsingle.2 (by decide)⟩

/-- A path with a newline in it takes two lines. -/
theorem not_isSingleLine_brokenPath :
    let argv := ["rebase-plan", "repo\n/.git"].map Utf8.encode
    let report := (run machine (Recording.responses []).host atHome ⟨[], [], []⟩ argv).1
    report.code = 1 ∧
    report.stderr = "Failed to read branches: Error while calling: git --git-dir=repo\n/.git " ++
      "for-each-ref refs/heads/ --format=%(refname:short)\n" ∧
    ¬ IsSingleLine report.stderr := by
  intro argv report
  have hparse : parse argv = .path (Utf8.encode "repo\n/.git") := by decide
  obtain ⟨hcode, hstderr⟩ := report_responses_nil hparse (by decide)
  refine ⟨hcode, hstderr.trans (by decide), fun h => ?_⟩
  have hcount : newlines report.stderr = 2 := by
    rw [hstderr]
    simp only [newlines_append]
    rfl
  rw [h.1] at hcount
  cases hcount

end Program

end Restack
