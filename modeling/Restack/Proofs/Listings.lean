import Restack.Proofs.BranchNames

/-!
# Listings of any form

A listing may have blanks anywhere, end its lines in either way and lack the last newline. The
branches that are read are always what stands between its newlines, each without the blanks around
it. So to trim the listing as a whole before it is taken apart by lines loses no branch, and makes
no two of one.
-/

namespace Restack

open Text

theorem CommandLine.exists_capture_iff {host : Host} {c : CommandLine} :
    (∃ text, (c.capture host).outcome = .ok text) ↔ ∃ text, c.answer host = .ok text := by
  rw [(capture_gives host c).1]
  cases c.answer host <;> simp [Except.mapError]

namespace Git.Repository

variable {r : Repository} {host : Host} {settings : Settings} {text : String}

theorem exists_answers_iff {branches : List String} :
    (∀ c ∈ r.branchQueries branches, ∃ text, c.answer host = .ok text) ↔ ∀ b ∈ branches,
      (∃ head, ((r.backend host).head b).outcome = .ok head) ∧
        ∃ base, ((r.backend host).ancestor b).outcome = .ok base := by
  simp only [branchQueries, List.forall_mem_flatMap, List.mem_pair, forall_eq_or_imp, forall_eq,
    ← CommandLine.exists_capture_iff]
  rfl

/-- The names that are read from a listing are the pieces between its newlines, in order, without
the blanks around them, those left out that are empty or excluded. They are read if and only if
both queries about each of them succeed. -/
theorem readTips_reads_pieces (settings : Settings) (hlisting : r.listing.Writes host text) :
    let pieces := (text.toList.splitOn '\n').map String.ofList
    let names := (pieces.map trim).filter fun b => b ≠ "" && !settings.excludes b
    let read := (readTips (r.backend host) settings).outcome
    ((∃ tips, read = .ok tips) ↔ ∀ b ∈ names,
      (∃ head, ((r.backend host).head b).outcome = .ok head) ∧
        ∃ base, ((r.backend host).ancestor b).outcome = .ok base) ∧
    (∀ tips, read = .ok tips → tips.map Tip.branch = names) ∧
    ∀ b ∈ names, '\n' ∉ b.toList := by
  intro pieces names read
  have hchosen : settings.chosen (lines (trim text)) = names := settings.chosen_lines_trim text
  refine ⟨?_, fun tips h => ?_, fun b hb => ?_⟩
  · rw [exists_tips_iff, queries_of_listing hlisting.answer, hchosen, List.forall_mem_cons,
      exists_answers_iff]
    exact and_iff_right ⟨_, hlisting.answer⟩
  · rw [(outcome_eq_ok_iff.1 h).map_branch_eq hlisting, hchosen]
  · rw [← hchosen] at hb
    exact Settings.newline_not_mem_of_mem_chosen hb

def echo (text : String) : Host := fun _ => .ok ⟨some 0, Utf8.encode text, []⟩

theorem exists_capture_echo (text : String) (c : CommandLine) :
    ∃ written, (c.capture (echo text)).outcome = .ok written :=
  CommandLine.exists_capture_iff.2 ⟨_, CommandLine.Writes.answer ⟨[], rfl⟩⟩

theorem readTips_reads_pieces_echo :
    let r : Repository := ⟨Utf8.encode "repo/.git"⟩
    let text := "\u3000\r\n main\t\r\n\r\nwikidoc\u2003\n\u00A0topic\na\u2028b \r\r\n\x0b\nlast\r"
    r.listing.Writes (echo text) text ∧
    ∃ tips, (readTips (r.backend (echo text)) {}).outcome = .ok tips ∧
      tips.map Tip.branch = ["main", "topic", "a\u2028b", "last"] := by
  intro r text
  have hlisting : r.listing.Writes (echo text) text := ⟨[], rfl⟩
  obtain ⟨hreads, hbranches, -⟩ := readTips_reads_pieces {} hlisting
  obtain ⟨tips, h⟩ := hreads.2 fun b _ => ⟨exists_capture_echo text _, exists_capture_echo text _⟩
  refine ⟨hlisting, tips, h, (hbranches tips h).trans ?_⟩
  decide

end Git.Repository

end Restack
