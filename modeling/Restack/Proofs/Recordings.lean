import Restack.Recording
import Restack.Proofs.Agreement
import Restack.Proofs.Lines
import Restack.Proofs.Queries

/-!
# Recordings of a repository

A recording that describes a repository lists its branches and knows the head and the base of each.
It answers all queries about the branches that are not left out, with their tips.
-/

namespace Restack

open Git Text

variable {tips : List Tip} {answers : List Response} {directory : Path}

def Recording.Writes (answers : List Response) (args : List String) (text : String) : Prop :=
  ∃ stderr, answer answers args = ⟨some 0, Utf8.encode text, stderr⟩

/-- The recording is of a repository with these tips, and lists the branches in this order. -/
structure Recording.Describes (answers : List Response) (tips : List Tip) : Prop where
  listing : Writes answers ["for-each-ref", "refs/heads/", "--format=%(refname:short)"]
    (String.join (tips.map fun t => t.branch ++ "\n"))
  head : ∀ t ∈ tips, Writes answers ["rev-parse", t.branch ++ "^0"] (t.head ++ "\n")
  base : ∀ t ∈ tips, Writes answers ["rev-parse", t.branch ++ "~1"] (t.base ++ "\n")

def Recording.answersFor (tips : List Tip) : List Response :=
  recorded listArgs (String.join (tips.map fun t => t.branch ++ "\n")) ::
    tips.flatMap fun t => [recorded (resolveArgs (headRevision t.branch)) (t.head ++ "\n"),
      recorded (resolveArgs (ancestorRevision t.branch)) (t.base ++ "\n")]

theorem Recording.writes_of_mem {args : List String} {text : String}
    (hnodup : (answers.map Response.args).Nodup) (hkey : key args = args)
    (h : recorded args text ∈ answers) : Writes answers args text := by
  obtain ⟨before, after, rfl⟩ := List.append_of_mem h
  have hnew : ∀ r ∈ before, r.args ≠ args := by
    intro r hr
    rw [List.map_append, List.map_cons] at hnodup
    exact (List.nodup_append.1 hnodup).2.2 _ (List.mem_map_of_mem hr) _ List.mem_cons_self
  have hfind : before.find? (fun r => r.args = args) = none := by simpa using hnew
  refine ⟨[], ?_⟩
  rw [answer, hkey, List.find?_append, hfind]
  simp [recorded]

theorem Recording.nodup_args_answersFor (hnames : (tips.map Tip.branch).Nodup) :
    ((answersFor tips).map Response.args).Nodup := by
  have hargs : (answersFor tips).map Response.args = listArgs :: (tips.map Tip.branch).flatMap
      fun b => [resolveArgs (headRevision b), resolveArgs (ancestorRevision b)] := by
    simp [answersFor, recorded, List.map_flatMap, List.flatMap_map]
  have hne : ∀ b c : String, b ++ "^0" ≠ c ++ "~1" := headRevision_ne_ancestorRevision
  have hne' : ∀ b c : String, c ++ "~1" ≠ b ++ "^0" := fun b c => (hne b c).symm
  rw [hargs, List.nodup_cons, List.nodup_flatMap]
  refine ⟨by simp [listArgs, resolveArgs], fun b _ => ?_, ?_⟩
  · simp [resolveArgs, headRevision, ancestorRevision]
  · refine hnames.imp fun {b c} hbc => ?_
    simp [Function.onFun, resolveArgs, headRevision, ancestorRevision, hbc.symm, hne, hne']

theorem Recording.describes_answersFor (hnames : (tips.map Tip.branch).Nodup) :
    Describes (answersFor tips) tips := by
  have hnodup := nodup_args_answersFor hnames
  refine ⟨writes_of_mem hnodup rfl List.mem_cons_self, fun t ht => ?_, fun t ht => ?_⟩
  · refine writes_of_mem hnodup rfl (List.mem_cons_of_mem _ (List.mem_flatMap.2 ⟨t, ht, ?_⟩))
    exact List.mem_cons_self
  · refine writes_of_mem hnodup rfl (List.mem_cons_of_mem _ (List.mem_flatMap.2 ⟨t, ht, ?_⟩))
    exact List.mem_cons_of_mem _ List.mem_cons_self

/-- A tip that comes back as it is when it is listed and its commits are written. -/
structure Tip.IsListable (t : Tip) : Prop where
  ne_empty : t.branch ≠ ""
  newline : '\n' ∉ t.branch.toList
  nul : '\x00' ∉ t.branch.toList
  branch : Chars.IsTrimmed t.branch.toList
  head : Chars.IsTrimmed t.head.toList
  base : Chars.IsTrimmed t.base.toList

def Settings.kept (s : Settings) (tips : List Tip) : List Tip :=
  tips.filter fun t => !s.excludes t.branch

namespace Git.Repository

variable {r : Repository}

theorem writes_command {args : List String} {text : String} (hnul : 0 ∉ r.directory)
    (hargs : ∀ a ∈ args, Recording.hasNul a = false) (hkey : Recording.key args = args)
    (h : Recording.Writes answers args text) :
    (r.command args).Writes (Recording.responses answers).host text := by
  obtain ⟨stderr, hanswer⟩ := h
  have hhost := recorded_command hnul answers hargs hkey
  rw [hanswer] at hhost
  exact ⟨stderr, hhost⟩

theorem hasNul_resolveArgs {b suffix : String} (hb : '\x00' ∉ b.toList)
    (hsuffix : '\x00' ∉ suffix.toList) :
    ∀ a ∈ resolveArgs (b ++ suffix), Recording.hasNul a = false := by
  have hprogram : Recording.hasNul "rev-parse" = false := by decide
  have hname : Recording.hasNul (b ++ suffix) = false := by simp [Recording.hasNul, hb, hsuffix]
  simp [resolveArgs, hprogram, hname]

theorem writes_listing_of_describes (hnul : 0 ∉ r.directory) (h : Recording.Describes answers tips) :
    r.listing.Writes (Recording.responses answers).host
      (String.join ((tips.map Tip.branch).map (· ++ "\n"))) := by
  rw [List.map_map]
  exact writes_command hnul (by decide) rfl h.listing

theorem writes_headQuery_of_describes (hnul : 0 ∉ r.directory)
    (h : Recording.Describes answers tips) {t : Tip} (ht : t ∈ tips)
    (hname : '\x00' ∉ t.branch.toList) :
    (r.headQuery t.branch).Writes (Recording.responses answers).host (t.head ++ "\n") :=
  writes_command hnul (hasNul_resolveArgs hname (by decide)) rfl (h.head t ht)

theorem writes_baseQuery_of_describes (hnul : 0 ∉ r.directory)
    (h : Recording.Describes answers tips) {t : Tip} (ht : t ∈ tips)
    (hname : '\x00' ∉ t.branch.toList) :
    (r.baseQuery t.branch).Writes (Recording.responses answers).host (t.base ++ "\n") :=
  writes_command hnul (hasNul_resolveArgs hname (by decide)) rfl (h.base t ht)

theorem answers_of_describes (hnul : 0 ∉ r.directory)
    (hlistable : ∀ t ∈ tips, t.IsListable) (h : Recording.Describes answers tips)
    (settings : Settings) :
    r.Answers (Recording.responses answers).host settings (settings.kept tips) := by
  refine ⟨⟨_, (writes_listing_of_describes hnul h).answer, ?_⟩, ?_, ?_⟩
  · rw [settings.chosen_listing, List.filter_map]
    · rfl
    · exact List.forall_mem_map.2 fun t ht =>
        ⟨(hlistable t ht).ne_empty, (hlistable t ht).newline, (hlistable t ht).branch⟩
  · intro t ht
    have ht := List.mem_of_mem_filter ht
    have hanswer := (writes_headQuery_of_describes (r := r) hnul h ht (hlistable t ht).nul).answer
    rwa [trim_append_newline (hlistable t ht).head] at hanswer
  · intro t ht
    have ht := List.mem_of_mem_filter ht
    have hanswer := (writes_baseQuery_of_describes (r := r) hnul h ht (hlistable t ht).nul).answer
    rwa [trim_append_newline (hlistable t ht).base] at hanswer

end Git.Repository

def stacked : List Tip :=
  [⟨"main", "c2", "c1"⟩, ⟨"topic", "c3", "c2"⟩, ⟨"wikidoc", "c4", "c3"⟩]

theorem steps_stacked : (Plan.ofTips (Settings.kept {} stacked)).steps = [⟨"topic", "main"⟩] := by
  have hlinks : (Lineage.ofTips (Settings.kept {} stacked)).links =
      [("main", none), ("topic", some "main")] := by
    rw [Lineage.links_ofTips_of_pairwise (by decide)]
    decide
  simp [Plan.ofTips, Lineage.steps, Lineage.branches, Lineage.climb, hlinks, take?, Climb.along,
    Step.alongPath, Step.firsts]
  rfl

theorem isListable_stacked : ∀ t ∈ stacked, t.IsListable := by
  simp only [stacked, List.forall_mem_cons]
  refine ⟨?_, ?_, ?_, by simp⟩ <;> constructor <;> decide

theorem nodup_stacked : (stacked.map Tip.branch).Nodup := by decide

end Restack
