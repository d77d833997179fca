import Restack.Proofs.AllOrNothing
import Restack.Proofs.Lines

/-!
# From a repository to its plan

For a repository that is recorded the program prints the plan of the tips, whatever order the
branches are listed in.
-/

namespace Restack

open Git Text

variable {tips : List Tip} {answers : List Response} {directory : Path}

namespace Program

open Arguments

variable {σ : Type} {platform : Platform σ} {env : Environment} {s : σ}
  {argv : List (List UInt8)}

theorem report_of_describes (hearly : ¬ EndsEarly platform env s argv)
    (hparse : parse argv = .path directory) (hnul : 0 ∉ directory)
    (hlistable : ∀ t ∈ tips, t.IsListable) (h : Recording.Describes answers tips) :
    let report := (run platform (Recording.responses answers).host env s argv).1
    report.code = 0 ∧ report.stderr = "" ∧
      report.stdout = unlines ((Plan.ofTips (Settings.kept {} tips)).commands "theirs") := by
  have hanswers := Repository.answers_of_describes (r := ⟨directory⟩) hnul hlistable h {}
  obtain ⟨hcode, hstderr, hstdout, -⟩ := answer_of_answers env.rendering hparse hanswers
  rw [run_of_not_endsEarly hearly]
  exact ⟨hcode, hstderr, hstdout⟩

end Program

end Restack
