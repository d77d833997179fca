import Restack.Proofs.EndToEnd

/-!
# The program and its log

Where the log goes, what is let through to it, and whether there can be one at all, changes what the
program answers in no way but one: the program may end before it has looked at its arguments.
-/

namespace Restack.Program

open LogFile (Environment)

variable {σ : Type}

theorem code_answer_ne (host : Host) (rendering : Text.Rendering)
    (argv : List (List UInt8)) : (answer host rendering argv).code ≠ 101 := by
  intro hcode
  unfold answer Report.ofRun at hcode
  split at hcode
  · cases hcode
  · cases hcode
  · split at hcode <;> cases hcode

/-- In any two surroundings the program answers the same, unless it ends early in one of them: there
the appender of the log cannot be opened in the directory made for it, or the first message goes to
the log and shows an argument that is no text. Then it prints nothing and asks nothing. -/
theorem run_eq_run_of_not_endsEarly (platform : Platform σ) (host : Host)
    (env : Program.Environment) (log : LogFile.Environment) (logFilter : Option (List UInt8))
    (s s' : σ) (argv : List (List UInt8)) :
    let env' := { env with log := log, logFilter := logFilter }
    let report := (run platform host env s argv).1
    let report' := (run platform host env' s' argv).1
    (¬ EndsEarly platform env s argv → ¬ EndsEarly platform env' s' argv → report = report') ∧
    (EndsEarly platform env s argv →
      report.code = 101 ∧ report.stdout = "" ∧ report.calls = []) ∧
    ((∀ a ∈ argv, Utf8.IsText a) → (report.code = 101 ↔ platform.BlocksLog env.log s)) := by
  intro env' report report'
  have hanswer (h : ¬ EndsEarly platform env s argv) :
      report = answer host env.rendering argv := run_of_not_endsEarly h
  refine ⟨fun h h' => ?_, report_of_endsEarly, fun htexts => ⟨fun hcode => ?_, fun hblocks => ?_⟩⟩
  · have hanswer' : report' = answer host env.rendering argv := run_of_not_endsEarly h'
    rw [hanswer h, hanswer']
  · by_contra hblocks
    have hearly : ¬ EndsEarly platform env s argv :=
      not_or.2 ⟨hblocks, not_notesNonText_of_isText htexts⟩
    rw [hanswer hearly] at hcode
    exact code_answer_ne host env.rendering argv hcode
  · exact (report_of_endsEarly (.inl hblocks)).1

/-- The plan is not printed when there is a directory in the place of the log. -/
theorem run_ne_of_logDirectory :
    let platform := FileTree.platform (fun _ => "Is a directory\n") (fun _ => none) fun _ => ""
    let host := (Recording.responses (Recording.answersFor stacked)).host
    let env : Program.Environment :=
      { log := { home := some (Utf8.encode "home"), currentDirectory := .ok (Utf8.encode "/run") } }
    let argv := [Utf8.encode "rebase-plan", Utf8.encode "repo/.git"]
    let report (paths : List Path) :=
      (run platform host env (.ofPaths [Utf8.encode "run"] paths) argv).1
    let blocked := report [Utf8.encode "home/.local/state/rebase-plan/rebase-plan.log/old"]
    (report []).code = 0 ∧
    (report []).stdout = "git rebase -X theirs topic~1 topic --onto=main\n" ∧
    blocked.code = 101 ∧ blocked.stdout = "" ∧ blocked.calls = [] := by
  intro platform host env argv report blocked
  have hopens : platform.OpensLog env.log (.ofPaths [Utf8.encode "run"] []) :=
    ⟨_, rfl, by decide, _, rfl⟩
  have hearly : ¬ EndsEarly platform env (.ofPaths [Utf8.encode "run"] []) argv :=
    not_or.2 ⟨Platform.not_blocksLog_of_opens hopens,
      not_notesNonText_of_texts ["rebase-plan", "repo/.git"]⟩
  have hblocks : platform.BlocksLog env.log (.ofPaths [Utf8.encode "run"]
      [Utf8.encode "home/.local/state/rebase-plan/rebase-plan.log/old"]) :=
    ⟨_, rfl, by decide, _, rfl⟩
  have hparse : Arguments.parse argv = .path (Utf8.encode "repo/.git") := by decide
  obtain ⟨hcode, -, hstdout⟩ := report_of_describes hearly hparse (by decide) isListable_stacked
    (Recording.describes_answersFor nodup_stacked)
  have hplan : unlines ((Plan.ofTips (Settings.kept {} stacked)).commands "theirs") =
      "git rebase -X theirs topic~1 topic --onto=main\n" := by
    rw [Plan.commands, steps_stacked]
    decide
  exact ⟨hcode, hstdout.trans hplan, report_of_endsEarly (.inl hblocks)⟩

/-- Of all files the program adds its log only, whatever it is told to do. -/
theorem files_run (panic : FileTree.Refusal → String) (admitsStart? : String → Option Bool)
    (notText : List UInt8 → String) (host : Host) (env : Program.Environment) (t : FileTree)
    (argv : List (List UInt8)) :
    let t' := (run (FileTree.platform panic admitsStart? notText) host env t argv).2
    t'.files = t.files ∨ ∃ p place, LogFile.path env.log = .ok p ∧
      t.follow p.components = some place ∧ t'.files = place :: t.files := by
  intro t'
  have hfiles : t' = (LogFile.openOn (FileTree.platform panic admitsStart? notText) env.log t).2 :=
    snd_run _ host env t argv
  rw [hfiles]
  exact FileTree.files_openOn

end Restack.Program
