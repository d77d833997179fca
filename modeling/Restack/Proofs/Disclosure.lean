import Restack.Proofs.AllOrNothing

/-!
# What is disclosed of an output

Of what `git` leaves behind the program shows the standard output, and that only if `git` succeeded.
What it wrote on standard error, and how it failed if it did, goes into the log and nowhere else:
hosts that differ in nothing more lead to the same report.
-/

namespace Restack

open QueryError (Cause)

def Output.shown (o : Output) : Option (List UInt8) :=
  if o.status = some 0 then some o.stdout else none

/-- Where the hosts run `git`, they differ only in what is not shown. -/
def Host.Alike (host host' : Host) : Prop :=
  ∀ c : CommandLine, c.program = "git" →
    (host c).map Output.shown = (host' c).map Output.shown

variable {host host' : Host} {c : CommandLine} {cause : Cause} {text : String}

namespace CommandLine

def told : Except String (Option (List UInt8)) → Except String String
  | .error reason => .error (": " ++ reason)
  | .ok none => .error ""
  | .ok (some stdout) =>
    match Utf8.decode stdout with
    | .error e => .error (": " ++ e.message)
    | .ok text => .ok (Text.trim text)

theorem mapError_answer (host : Host) (c : CommandLine) :
    (c.answer host).mapError Cause.suffix = told ((host c).map Output.shown) := by
  unfold answer
  cases host c with
  | error reason => rfl
  | ok output =>
    by_cases hstatus : output.status = some 0
    · have hshown : output.shown = some output.stdout := by simp [Output.shown, hstatus]
      simp only [Except.map, hshown, told, if_pos hstatus]
      cases Utf8.decode output.stdout <;> rfl
    · have hshown : output.shown = none := by simp [Output.shown, hstatus]
      simp only [Except.map, hshown, told, if_neg hstatus]
      rfl

end CommandLine

namespace Host.Alike

theorem mapError_answer_eq (h : host.Alike host') (hc : c.program = "git") :
    (c.answer host).mapError Cause.suffix = (c.answer host').mapError Cause.suffix := by
  rw [CommandLine.mapError_answer, CommandLine.mapError_answer, h c hc]

theorem calls_eq (h : host.Alike host') (hc : c.program = "git") :
    c.calls host = c.calls host' := by
  have hsame := h c hc
  unfold CommandLine.calls
  cases hhost : host c <;> cases hhost' : host' c <;> simp [hhost, hhost', Except.map] at hsame ⊢

theorem answer_eq_ok (h : host.Alike host') (hc : c.program = "git")
    (hanswer : c.answer host = .ok text) : c.answer host' = .ok text := by
  have hsame := h.mapError_answer_eq hc
  cases hanswer' : c.answer host' with
  | error cause => simp [hanswer, hanswer', Except.mapError] at hsame
  | ok text' => simpa [hanswer, hanswer', Except.mapError, eq_comm] using hsame

theorem answer_eq_error (h : host.Alike host') (hc : c.program = "git")
    (hanswer : c.answer host = .error cause) :
    ∃ cause', c.answer host' = .error cause' ∧ cause.suffix = cause'.suffix := by
  have hsame := h.mapError_answer_eq hc
  cases hanswer' : c.answer host' with
  | error cause' => exact ⟨cause', rfl, by simpa [hanswer, hanswer', Except.mapError] using hsame⟩
  | ok text => simp [hanswer, hanswer', Except.mapError] at hsame

end Host.Alike

namespace Git.Repository

variable {r : Repository} {settings : Settings} {tips : List Tip} {earlier : List CommandLine}

theorem queries_congr (h : host.Alike host') :
    r.queries host settings = r.queries host' settings := by
  cases hlisting : r.listing.answer host with
  | error cause =>
    obtain ⟨cause', hlisting', -⟩ := h.answer_eq_error rfl hlisting
    simp only [queries, hlisting, hlisting']
  | ok text =>
    have hlisting' := h.answer_eq_ok rfl hlisting
    rw [queries_of_listing hlisting, queries_of_listing hlisting']

theorem Answers.of_alike (h : host.Alike host') (hanswers : r.Answers host settings tips) :
    r.Answers host' settings tips where
  listing := by
    obtain ⟨text, hlisting, hbranches⟩ := hanswers.listing
    exact ⟨text, h.answer_eq_ok rfl hlisting, hbranches⟩
  head t ht := h.answer_eq_ok rfl (hanswers.head t ht)
  base t ht := h.answer_eq_ok rfl (hanswers.base t ht)

theorem FailsAt.of_alike (h : host.Alike host') (hfails : r.FailsAt host settings earlier c cause) :
    ∃ cause', r.FailsAt host' settings earlier c cause' ∧ cause.suffix = cause'.suffix := by
  obtain ⟨later, hqueries⟩ := hfails.queries
  have hprogram := program_of_mem_queries hfails.mem_queries
  obtain ⟨cause', hfailure, hsuffix⟩ := h.answer_eq_error hprogram hfails.failure
  refine ⟨cause', ⟨⟨later, queries_congr h ▸ hqueries⟩, fun d hd => ?_, hfailure⟩, hsuffix⟩
  have hmem : d ∈ r.queries host settings := by
    rw [hqueries]
    exact List.mem_append_left _ hd
  obtain ⟨text, hanswer⟩ := hfails.earlier d hd
  exact ⟨text, h.answer_eq_ok (program_of_mem_queries hmem) hanswer⟩

end Git.Repository

namespace Program

open Git Arguments

/-- What `git` writes on standard error never reaches the user, nor does what it wrote before it
failed, or its status then. -/
theorem report_eq_of_alike {σ : Type} (h : host.Alike host') (platform : Platform σ)
    (env : Environment) (s : σ) (argv : List (List UInt8)) :
    let report := (run platform host env s argv).1
    let report' := (run platform host' env s argv).1
    report.code = report'.code ∧ report.stdout = report'.stdout ∧
      report.stderr = report'.stderr ∧ report.calls = report'.calls := by
  intro report report'
  by_cases hearly : EndsEarly platform env s argv
  -- nothing is asked then, whoever would answer
  · obtain ⟨text, htext⟩ := exists_run_eq_crash hearly
    have hcrash : report = crash text ∧ report' = crash text := ⟨htext host, htext host'⟩
    rw [hcrash.1, hcrash.2]
    exact ⟨rfl, rfl, rfl, rfl⟩
  have hreport : report = answer host env.rendering argv := run_of_not_endsEarly hearly
  have hreport' : report' = answer host' env.rendering argv := run_of_not_endsEarly hearly
  rw [hreport, hreport']
  cases hparse : parse argv with
  | flag flag => simp [answer, hparse]
  | refused problem => simp [answer, hparse]
  | path directory =>
    let r : Repository := ⟨directory⟩
    rcases r.answers_or_failsAt host {} with ⟨tips, hanswers⟩ | ⟨earlier, c, cause, hfails⟩
    · obtain ⟨hcode, hstderr, hstdout, hcalls⟩ := answer_of_answers env.rendering hparse hanswers
      obtain ⟨hcode', hstderr', hstdout', hcalls'⟩ :=
        answer_of_answers env.rendering hparse (hanswers.of_alike h)
      rw [hcode, hstderr, hstdout, hcalls, hcode', hstderr', hstdout', hcalls',
        Repository.queries_congr h]
      exact ⟨rfl, rfl, rfl, rfl⟩
    · obtain ⟨cause', hfails', hsuffix⟩ := hfails.of_alike h
      obtain ⟨hcode, hstdout, hstderr, hcalls⟩ := answer_of_failsAt env.rendering hparse hfails
      obtain ⟨hcode', hstdout', hstderr', hcalls'⟩ :=
        answer_of_failsAt env.rendering hparse hfails'
      rw [hcode, hstdout, hstderr, hcalls, hcode', hstdout', hstderr', hcalls',
        Planner.failureLine_eq, Planner.failureLine_eq, hsuffix,
        h.calls_eq (Repository.program_of_mem_queries hfails.mem_queries)]
      exact ⟨rfl, rfl, rfl, rfl⟩

def disturb (o : Output) : Output :=
  if o.status = some 0 then { o with stderr := Utf8.encode "warning: ambiguous\n" }
  else ⟨none, Utf8.encode "c1\n", Utf8.encode "fatal: bad object\n"⟩

def disturbed (host : Host) : Host := fun c => (host c).map disturb

theorem alike_disturbed (host : Host) : host.Alike (disturbed host) := by
  intro c _
  unfold disturbed
  cases host c with
  | error reason => rfl
  | ok output =>
    by_cases hstatus : output.status = some 0
    · simp [Except.map, disturb, Output.shown, hstatus]
    · simp [Except.map, disturb, Output.shown, hstatus]

theorem report_eq_of_alike_loneRoot :
    let files : FileTree := ⟨[], [], []⟩
    let argv := [Utf8.encode "rebase-plan", Utf8.encode "repo/.git"]
    let r : Repository := ⟨Utf8.encode "repo/.git"⟩
    let report (host : Host) := (run machine host atHome files argv).1
    loneRoot.Alike (disturbed loneRoot) ∧
    loneRoot (r.baseQuery "main") = .ok ⟨some 128, [], []⟩ ∧
    disturbed loneRoot (r.baseQuery "main") =
      .ok ⟨none, Utf8.encode "c1\n", Utf8.encode "fatal: bad object\n"⟩ ∧
    (report (disturbed loneRoot)).code = 1 ∧
    (report (disturbed loneRoot)).stderr = Planner.failureLine
      ⟨(r.baseQuery "main").line, .failed (some 128) ""⟩ ++ "\n" ∧
    (report (disturbed loneRoot)).calls = [r.option :: listArgs, [r.option, "rev-parse", "main^0"],
      [r.option, "rev-parse", "main~1"]] := by
  intro files argv r report
  have hearly : ¬ EndsEarly machine atHome files argv :=
    not_endsEarly_atHome ["rebase-plan", "repo/.git"]
  have hparse : parse argv = .path r.directory := by decide
  have halike := alike_disturbed loneRoot
  obtain ⟨hcode, -, hstderr, hcalls⟩ :=
    answer_of_failsAt atHome.rendering hparse (failsAt_loneRoot r)
  obtain ⟨hcode', -, hstderr', hcalls'⟩ := report_eq_of_alike halike machine atHome files argv
  rw [run_of_not_endsEarly hearly] at hcode' hstderr' hcalls'
  exact ⟨halike, rfl, rfl, hcode'.symm.trans hcode, hstderr'.symm.trans hstderr,
    hcalls'.symm.trans hcalls⟩

end Program

end Restack
