import Restack.Proofs.EndToEnd

/-!
# The names that branches are read under

A branch's name may begin or end with a character that is white space in Unicode, though not in
ASCII. It is then read without these characters, so it is the name without them that the repository
is asked about. A name with no such character at its ends is read as it is.
-/

namespace Restack

open Text

namespace Git

def isAllowed (c : Char) : Bool :=
  0x20 < c.toNat && c ≠ '\x7F' && "~^:?*[\\".toList.all (c ≠ ·)

def IsBranchName (b : String) : Prop := b ≠ "" ∧ b.toList.all isAllowed

instance (b : String) : Decidable (IsBranchName b) := inferInstanceAs (Decidable (_ ∧ _))

theorem IsBranchName.newline_not_mem {b : String} (h : IsBranchName b) : '\n' ∉ b.toList := by
  intro hmem
  have hallowed : isAllowed '\n' := List.all_eq_true.1 h.2 '\n' hmem
  exact absurd hallowed (by decide)

def listed (names : List String) : String := String.join (names.map (· ++ "\n"))

namespace Repository

variable {r : Repository} {host : Host} {settings : Settings} {names : List String}
  {tips : List Tip}

theorem chosen_listed (hnames : ∀ b ∈ names, IsBranchName b) (settings : Settings) :
    settings.chosen (lines (trim (listed names))) = settings.chosen names :=
  settings.chosen_join fun b hb => (hnames b hb).newline_not_mem

theorem map_branch_of_answers (hnames : ∀ b ∈ names, IsBranchName b)
    (hlisting : r.listing.Writes host (listed names)) (h : r.Answers host settings tips) :
    tips.map Tip.branch = settings.chosen names := by
  rw [h.map_branch_eq hlisting, chosen_listed hnames]

theorem exists_outcome_iff (hnames : ∀ b ∈ names, IsBranchName b)
    (hlisting : r.listing.Writes host (listed names)) :
    (∃ tips, (readTips (r.backend host) settings).outcome = .ok tips) ↔
      ∀ c ∈ r.branchQueries (settings.chosen names), ∃ text, c.answer host = .ok text := by
  rw [exists_tips_iff, queries_of_listing hlisting.answer, chosen_listed hnames,
    List.forall_mem_cons]
  exact and_iff_right ⟨_, hlisting.answer⟩

/-- If the listing is of branches with these names, they are read without the blanks around them.
So a branch is read under its own name exactly when no blank stands at its ends. -/
theorem readTips_of_listed (settings : Settings) (hnames : ∀ b ∈ names, IsBranchName b)
    (hlisting : r.listing.Writes host (listed names)) :
    let read := (readTips (r.backend host) settings).outcome
    ((∀ b ∈ names, Chars.IsTrimmed b.toList) →
      (∀ c ∈ r.branchQueries names, ∃ text, c.answer host = .ok text) →
      ∃ tips, read = .ok tips ∧
        tips.map Tip.branch = names.filter fun b => !settings.excludes b) ∧
    ((∃ tips, read = .ok tips) ↔
      ∀ c ∈ r.branchQueries (settings.chosen names), ∃ text, c.answer host = .ok text) ∧
    ∀ tips, read = .ok tips →
      (tips.map Tip.branch =
        (names.map trim).filter fun b => b ≠ "" && !settings.excludes b) ∧
      ∀ b ∈ names, settings.excludes b = false →
        (b ∈ tips.map Tip.branch ↔ Chars.IsTrimmed b.toList) := by
  intro read
  have hreads : (∃ tips, read = .ok tips) ↔
      ∀ c ∈ r.branchQueries (settings.chosen names), ∃ text, c.answer host = .ok text :=
    exists_outcome_iff hnames hlisting
  have hbranches : ∀ tips, read = .ok tips → tips.map Tip.branch = settings.chosen names :=
    fun tips h => map_branch_of_answers hnames hlisting (outcome_eq_ok_iff.1 h)
  refine ⟨fun htrimmed hanswered => ?_, hreads, fun tips h => ?_⟩
  · have hchosen := settings.chosen_of_isTrimmed fun b hb => ⟨(hnames b hb).1, htrimmed b hb⟩
    obtain ⟨tips, h⟩ := hreads.2 fun c hc => by
      rw [hchosen] at hc
      obtain ⟨b, hb, hc⟩ := List.mem_flatMap.1 hc
      exact hanswered c (List.mem_flatMap.2 ⟨b, List.mem_of_mem_filter hb, hc⟩)
    exact ⟨tips, h, (hbranches tips h).trans hchosen⟩
  · refine ⟨hbranches tips h, fun b hb hkept => ?_⟩
    rw [hbranches tips h]
    exact Settings.mem_chosen_iff_isTrimmed hb (hnames b hb).1 hkept

def oneCommit (r : Repository) (names : List String) : Host := fun c =>
  .ok ⟨some 0, Utf8.encode (if c = r.listing then listed names else "c1\n"), []⟩

theorem writes_listing_oneCommit (r : Repository) (names : List String) :
    r.listing.Writes (oneCommit r names) (listed names) :=
  ⟨[], by rw [oneCommit, if_pos rfl]⟩

theorem exists_answer_oneCommit (r : Repository) (names : List String) (c : CommandLine) :
    ∃ text, c.answer (oneCommit r names) = .ok text :=
  ⟨_, CommandLine.Writes.answer ⟨[], rfl⟩⟩

theorem readTips_of_listed_oneCommit :
    let r : Repository := ⟨Utf8.encode "repo/.git"⟩
    let read (names : List String) := (readTips (r.backend (oneCommit r names)) {}).outcome
    (∃ tips, read ["main", "wikidoc", "a\u3000b"] = .ok tips ∧
      tips.map Tip.branch = ["main", "a\u3000b"]) ∧
    ∃ tips, read ["main", "topic\u00A0", "wikidoc", "\u2003", "a\u3000b"] = .ok tips ∧
      tips.map Tip.branch = ["main", "topic", "a\u3000b"] ∧
      "topic\u00A0" ∉ tips.map Tip.branch := by
  intro r read
  constructor
  · have hlisting := writes_listing_oneCommit r ["main", "wikidoc", "a\u3000b"]
    obtain ⟨hreads, -⟩ := readTips_of_listed {} (by decide) hlisting
    obtain ⟨tips, h, hbranches⟩ := hreads (by decide) fun c _ => exists_answer_oneCommit r _ c
    refine ⟨tips, h, hbranches.trans ?_⟩
    decide
  · have hlisting :=
      writes_listing_oneCommit r ["main", "topic\u00A0", "wikidoc", "\u2003", "a\u3000b"]
    obtain ⟨-, hreads, hbranches⟩ := readTips_of_listed {} (by decide) hlisting
    obtain ⟨tips, h⟩ := hreads.2 fun c _ => exists_answer_oneCommit r _ c
    obtain ⟨hbranches, hown⟩ := hbranches tips h
    refine ⟨tips, h, hbranches.trans ?_, fun hmem => ?_⟩
    · decide
    · have htrimmed := (hown "topic\u00A0" (by decide) (by decide)).1 hmem
      exact absurd htrimmed (by decide)

def blankEnded : List Tip := [⟨"main", "c2", "c1"⟩, ⟨"main\u00A0", "c3", "c2"⟩]

/-- Both branches are listed and known, and one of them is read twice. -/
theorem readTips_blankEnded :
    let r : Repository := ⟨Utf8.encode "repo/.git"⟩
    let host := (Recording.responses (Recording.answersFor blankEnded)).host
    let names := blankEnded.map Tip.branch
    names.Nodup ∧ (∀ b ∈ names, IsBranchName b) ∧ r.listing.Writes host (listed names) ∧
    (∀ c ∈ r.branchQueries names, ∃ text, c.answer host = .ok text) ∧
    (readTips (r.backend host) {}).outcome = .ok [⟨"main", "c2", "c1"⟩, ⟨"main", "c2", "c1"⟩] ∧
    names.filter (fun b => !Settings.excludes {} b) ≠ ["main", "main"] := by
  intro r host names
  have hnodup : names.Nodup := by decide
  have hbranch : ∀ b ∈ names, IsBranchName b := by decide
  have hdirectory : 0 ∉ r.directory := by decide
  have hnul : ∀ t ∈ blankEnded, '\x00' ∉ t.branch.toList := by decide
  have hdescribes := Recording.describes_answersFor hnodup
  have hlisting : r.listing.Writes host (listed names) :=
    writes_listing_of_describes hdirectory hdescribes
  have hhead : ∀ t ∈ blankEnded, (r.headQuery t.branch).Writes host (t.head ++ "\n") :=
    fun t ht => writes_headQuery_of_describes hdirectory hdescribes ht (hnul t ht)
  have hbase : ∀ t ∈ blankEnded, (r.baseQuery t.branch).Writes host (t.base ++ "\n") :=
    fun t ht => writes_baseQuery_of_describes hdirectory hdescribes ht (hnul t ht)
  refine ⟨hnodup, hbranch, hlisting, fun c hc => ?_, ?_, by decide⟩
  · obtain ⟨b, hb, hc⟩ := List.mem_flatMap.1 hc
    obtain ⟨t, ht, rfl⟩ := List.mem_map.1 hb
    rcases List.mem_pair.1 hc with rfl | rfl
    · exact ⟨_, (hhead t ht).answer⟩
    · exact ⟨_, (hbase t ht).answer⟩
  -- what is read is the first branch, and then the first branch again
  · have hmain : (⟨"main", "c2", "c1"⟩ : Tip) ∈ blankEnded := List.mem_cons_self
    have htrim : trim ("c2" ++ "\n") = "c2" ∧ trim ("c1" ++ "\n") = "c1" := by decide
    refine outcome_eq_ok_iff.2 ⟨⟨_, hlisting.answer, ?_⟩, fun t ht => ?_, fun t ht => ?_⟩
    · rw [chosen_listed hbranch]
      decide
    · obtain rfl : t = ⟨"main", "c2", "c1"⟩ := by simpa using ht
      exact (hhead _ hmain).answer.trans (congrArg Except.ok htrim.1)
    · obtain rfl : t = ⟨"main", "c2", "c1"⟩ := by simpa using ht
      exact (hbase _ hmain).answer.trans (congrArg Except.ok htrim.2)

end Repository

end Git

end Restack
