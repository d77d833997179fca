import Restack.Proofs.LogOpening
import Restack.Proofs.Recordings

/-!
# All or nothing

If all queries are answered the program prints the whole plan. If one is not, it prints one line
about the first such query and nothing of a plan, and asks no more. Where its arguments name no
repository it asks nothing, and nothing either where the log cannot show them.
-/

namespace Restack

namespace QueryError

def Cause.suffix : Cause → String
  | .notStarted reason => ": " ++ reason
  | .notText error => ": " ++ error.message
  | .failed _ _ => ""

theorem line_eq (e : QueryError) :
    e.line = "Error while calling: " ++ e.command ++ e.cause.suffix := by
  obtain ⟨command, cause⟩ := e
  unfold line joinChain chain message
  cases cause <;>
    simp only [source?, Cause.suffix, Option.toList_some, Option.toList_none,
      String.intercalate_cons_cons, String.intercalate_singleton, String.append_assoc,
      String.append_empty]

end QueryError

theorem Planner.failureLine_eq (e : QueryError) : failureLine e =
    "Failed to read branches: Error while calling: " ++ e.command ++ e.cause.suffix := by
  have hline : failureLine e = context ++ ": " ++ e.line := by
    unfold failureLine failureChain QueryError.line QueryError.chain QueryError.joinChain
    rw [String.intercalate_cons_cons]
  have hstart : "Failed to read branches: Error while calling: " =
      context ++ (": " ++ "Error while calling: ") := by simp [context]
  rw [hline, e.line_eq, hstart]
  simp only [String.append_assoc]

namespace Text

end Text

namespace Arguments

end Arguments

namespace Program

open Git Arguments

variable {σ : Type} {host : Host} {directory : Path} {argv : List (List UInt8)}

theorem answer_of_answers (rendering : Text.Rendering) (hparse : parse argv = .path directory)
    {tips : List Tip} (h : (⟨directory⟩ : Repository).Answers host {} tips) :
    let report := answer host rendering argv
    report.code = 0 ∧ report.stderr = "" ∧
      report.stdout = unlines ((Plan.ofTips tips).commands "theirs") ∧
      report.calls = ((⟨directory⟩ : Repository).queries host {}).map CommandLine.args := by
  obtain ⟨houtcome, hcalls⟩ := Planner.commands_of_tips (Repository.readTips_of_answers h)
  simp [answer, hparse, Report.ofRun, houtcome, hcalls]

theorem answer_of_failsAt (rendering : Text.Rendering) (hparse : parse argv = .path directory)
    {earlier : List CommandLine} {c : CommandLine} {cause : QueryError.Cause}
    (h : (⟨directory⟩ : Repository).FailsAt host {} earlier c cause) :
    let report := answer host rendering argv
    report.code = 1 ∧ report.stdout = "" ∧
      report.stderr = Planner.failureLine ⟨c.line, cause⟩ ++ "\n" ∧
      report.calls = earlier.map CommandLine.args ++ c.calls host := by
  obtain ⟨houtcome, hcalls⟩ := Planner.commands_of_failure (Repository.readTips_of_failsAt h)
  simp [answer, hparse, Report.ofRun, houtcome, hcalls, unlines]

def loneRoot : Host := fun c =>
  if c.args.drop 1 = listArgs then .ok ⟨some 0, Utf8.encode "main\n", []⟩
  else if c.args.drop 1 = resolveArgs (headRevision "main") then
    .ok ⟨some 0, Utf8.encode "c1\n", []⟩
  else .ok ⟨some 128, [], []⟩

theorem failsAt_loneRoot (r : Repository) : r.FailsAt loneRoot {} [r.listing, r.headQuery "main"]
    (r.baseQuery "main") (.failed (some 128) "") := by
  have htrim : Text.trim "main\n" = "main" ∧ Text.trim "c1\n" = "c1" := by decide
  have hlisting : r.listing.answer loneRoot = .ok (Text.trim "main\n") :=
    CommandLine.answer_of_encode rfl rfl rfl
  have hhead : (r.headQuery "main").answer loneRoot = .ok (Text.trim "c1\n") :=
    CommandLine.answer_of_encode rfl rfl rfl
  have hchosen : ({} : Settings).chosen (Text.lines "main") = ["main"] := by decide
  rw [htrim.1] at hlisting
  refine ⟨⟨[], ?_⟩, ?_, ?_⟩
  · rw [Repository.queries_of_listing hlisting, hchosen]
    rfl
  · simp [hlisting, hhead]
  · have hrun : loneRoot (r.baseQuery "main") = .ok ⟨some 128, [], []⟩ := rfl
    have hstderr : Text.trim (Utf8.decodeLossy []) = "" := by
      simp [Utf8.decodeLossy, Utf8.pieces, Text.trim, Text.Chars.trim, Text.Chars.trimStart,
        Text.Chars.trimEnd]
    simp [CommandLine.answer, hrun, hstderr]

end Program

end Restack
