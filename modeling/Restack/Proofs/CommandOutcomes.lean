import Restack.Proofs.Decoding
import Restack.Proofs.Queries

/-!
# What becomes of a command

A command that is run is not started, or it is started and fails, or its output is returned as it
is. To capture what it writes is to run it once, and its failures stay what they are. Only where it
ends well is its output taken for a text, and if it is none, the error says how far it is one.
-/

namespace Restack.CommandLine

variable {host : Host} {c : CommandLine} {output : Output} {e : QueryError}

theorem outcome_run (host : Host) (c : CommandLine) : (c.run host).outcome =
    match host c with
    | .error reason => .error ⟨c.line, .notStarted reason⟩
    | .ok output =>
      if output.status = some 0 then .ok output
      else .error ⟨c.line,
        .failed output.status (Text.trim (Utf8.decodeLossy output.stderr))⟩ := by
  cases hhost : host c with
  | error reason => exact (run_gives_of_not_started hhost).1
  | ok output =>
    dsimp only
    split_ifs with hstatus
    · exact (run_gives_of_succeeded hhost hstatus).1
    · exact (run_gives_of_failed hhost hstatus).1

theorem outcome_run_eq_notStarted_iff {reason : String} :
    (c.run host).outcome = .error ⟨c.line, .notStarted reason⟩ ↔ host c = .error reason := by
  rw [outcome_run]
  cases host c with
  | error r => simp
  | ok output =>
    dsimp only
    split_ifs <;> simp

theorem outcome_run_eq_failed_iff {status : Option Int} {stderr : String} :
    (c.run host).outcome = .error ⟨c.line, .failed status stderr⟩ ↔
      ∃ stdout bytes, host c = .ok ⟨status, stdout, bytes⟩ ∧ status ≠ some 0 ∧
        stderr = Text.trim (Utf8.decodeLossy bytes) := by
  rw [outcome_run]
  cases host c with
  | error r => simp
  | ok output =>
    obtain ⟨ended, stdout, bytes⟩ := output
    dsimp only
    split_ifs with hstatus
    · refine iff_of_false (by simp) fun h => ?_
      obtain ⟨_, _, hsame, hne, -⟩ := h
      cases hsame
      exact hne hstatus
    · constructor
      · intro h
        cases h
        exact ⟨stdout, bytes, rfl, hstatus, rfl⟩
      · intro h
        obtain ⟨_, _, hsame, -, rfl⟩ := h
        cases hsame
        rfl

theorem outcome_run_eq_ok_iff : (c.run host).outcome = .ok output ↔
    host c = .ok output ∧ output.status = some 0 := by
  rw [outcome_run]
  cases host c with
  | error r => simp
  | ok left =>
    dsimp only
    split_ifs with hstatus
    · simp only [Except.ok.injEq]
      exact ⟨fun h => ⟨h, h ▸ hstatus⟩, fun h => h.1⟩
    · refine iff_of_false (by simp) fun h => ?_
      obtain ⟨hsame, hok⟩ := h
      cases hsame
      exact hstatus hok

theorem calls_run (host : Host) (c : CommandLine) : (c.run host).calls = c.calls host := by
  unfold calls
  cases hhost : host c with
  | error reason => exact (run_gives_of_not_started hhost).2
  | ok output =>
    by_cases hstatus : output.status = some 0
    · exact (run_gives_of_succeeded hhost hstatus).2
    · exact (run_gives_of_failed hhost hstatus).2

theorem outcome_capture_of_error (h : (c.run host).outcome = .error e) :
    (c.capture host).outcome = .error e := by
  rw [capture, Run.bind_of_error h]

theorem outcome_capture_of_ok (h : (c.run host).outcome = .ok output) :
    (c.capture host).outcome =
      ((Utf8.decode output.stdout).map Text.trim).mapError fun e => ⟨c.line, .notText e⟩ := by
  rw [capture, Run.bind_of_ok h]
  cases Utf8.decode output.stdout <;> rfl

theorem command_of_outcome_capture (h : (c.capture host).outcome = .error e) :
    e.command = c.line := by
  rw [(capture_gives host c).1] at h
  cases hanswer : c.answer host with
  | error cause =>
    rw [hanswer] at h
    cases h
    rfl
  | ok text =>
    rw [hanswer] at h
    cases h

theorem exists_notText (h : (c.run host).outcome = .ok output)
    (hstdout : ¬ Utf8.IsText output.stdout) : ∃ error,
      Utf8.decode output.stdout = .error error ∧
        (c.capture host).outcome = .error ⟨c.line, .notText error⟩ := by
  rw [outcome_capture_of_ok h]
  cases hdecode : Utf8.decode output.stdout with
  | error error => exact ⟨error, rfl, rfl⟩
  | ok text => exact absurd ⟨text, (Utf8.decode_eq_ok_iff.1 hdecode).symm⟩ hstdout

/-- Running a command and capturing what it writes, for every host. A run cannot be started, fails,
or returns the output; captured is the text of the output, or the place is told up to which it is a
text. All errors name the command line. -/
theorem run_and_capture_outcomes (host : Host) (c : CommandLine) :
    let line := " ".intercalate (c.program :: c.args)
    let run := c.run host
    let capture := c.capture host
    (∀ reason, run.outcome = .error ⟨line, .notStarted reason⟩ ↔ host c = .error reason) ∧
    (∀ status stderr, run.outcome = .error ⟨line, .failed status stderr⟩ ↔
      ∃ stdout bytes, host c = .ok ⟨status, stdout, bytes⟩ ∧ status ≠ some 0 ∧
        stderr = Text.trim (Utf8.decodeLossy bytes)) ∧
    (∀ output, run.outcome = .ok output ↔ host c = .ok output ∧ output.status = some 0) ∧
    (run.calls = c.calls host ∧ capture.calls = run.calls) ∧
    (∀ e, run.outcome = .error e → capture.outcome = .error e) ∧
    (∀ output, run.outcome = .ok output →
      (∀ text, output.stdout = Utf8.encode text → capture.outcome = .ok (Text.trim text)) ∧
      (¬ Utf8.IsText output.stdout → ∃ error,
        capture.outcome = .error ⟨line, .notText error⟩ ∧
        IsGreatest {n | n ≤ output.stdout.length ∧ Utf8.IsText (output.stdout.take n)}
          error.index ∧
        (error.size = none ↔ ∃ more, Utf8.IsText (output.stdout ++ more)))) ∧
    (∀ e, capture.outcome = .error e → e.command = line) ∧
    ∀ bytes text, bytes = Utf8.encode text →
      Utf8.decode bytes = .ok text ∧ Utf8.decodeLossy bytes = text := by
  intro line run capture
  refine ⟨fun reason => outcome_run_eq_notStarted_iff,
    fun status stderr => outcome_run_eq_failed_iff, fun output => outcome_run_eq_ok_iff,
    ⟨calls_run host c, ?_⟩, fun e => outcome_capture_of_error,
    fun output h => ⟨fun text hstdout => ?_, fun hstdout => ?_⟩,
    fun e => command_of_outcome_capture, fun bytes text h => ?_⟩
  · rw [(capture_gives host c).2, calls_run]
  · rw [outcome_capture_of_ok h, hstdout, Utf8.decode_encode]
    rfl
  · obtain ⟨error, hdecode, hcapture⟩ := exists_notText h hstdout
    exact ⟨error, hcapture, Utf8.isGreatest_index hdecode, Utf8.size_eq_none_iff hdecode⟩
  · rw [h]
    exact ⟨Utf8.decode_encode text, Utf8.decodeLossy_encode text⟩

example : (capture (fun _ => .ok ⟨some 0, [0x61, 0xE2, 0x82], []⟩) ⟨"git", ["log"]⟩).outcome =
    .error ⟨"git log", .notText ⟨1, none⟩⟩ := by
  cbv

end Restack.CommandLine
