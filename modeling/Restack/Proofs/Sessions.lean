import Restack.Proofs.Invocations

/-!
# What a session asks

A session runs `git` and nothing else, and runs it for three queries only, all of which read. Where
it reads the tips, it asks about the branches that its own listing names, and about the base of a
branch only after it was told the head.
-/

namespace Restack

theorem CommandLine.capture_congr {host host' : Host} {c : CommandLine} (h : host c = host' c) :
    c.capture host = c.capture host' := by
  rw [capture, capture, run, run, h]

theorem CommandLine.eq_of_args {c d : CommandLine} (hprogram : c.program = d.program)
    (hargs : c.args = d.args) : c = d := by
  cases c
  cases d
  exact congrArg₂ CommandLine.mk hprogram hargs

theorem CommandLine.mem_of_args_mem {commands : List CommandLine} {c : CommandLine}
    (hprogram : ∀ d ∈ commands, d.program = c.program) (hargs : c.args ∈ commands.map args) :
    c ∈ commands := by
  obtain ⟨d, hd, hsame⟩ := List.mem_map.1 hargs
  exact eq_of_args (hprogram d hd) hsame ▸ hd

theorem Run.calls_bind_pure {κ α β : Type} (r : Run κ α) (f : α → β) :
    (r >>= fun a => pure (f a)).calls = r.calls := by
  cases h : r.outcome with
  | error e => rw [bind_of_error h]
  | ok a =>
    rw [bind_of_ok h]
    exact List.append_nil r.calls

theorem Planner.calls_commands {κ : Type} (backend : Backend κ) (settings : Settings) :
    (commands backend settings).calls = (readTips backend settings).calls := by
  cases h : (readTips backend settings).outcome with
  | error e => exact (commands_of_failure (Run.gives_self h)).2
  | ok tips => exact (commands_of_tips (Run.gives_self h)).2

namespace Git

def Operation.turns (host : Host) : List Operation → List (Host × Operation)
  | [] => []
  | o :: rest => (host, o) :: turns (o.hostAfter host) rest

namespace Repository

open CommandLine (capture_gives_of_answer)

variable {r : Repository} {host host' : Host} {settings : Settings}
  {calls : List (List String)} {b : String}

theorem session_eq_map (r : Repository) (host : Host) (operations : List Operation) :
    r.session host operations =
      (Operation.turns host operations).map fun t => t.2.perform r t.1 := by
  induction operations generalizing host with
  | nil => rfl
  | cons o rest ih => exact congrArg _ (ih _)

inductive IsQuery (r : Repository) : List String → Prop
  | listing : IsQuery r [r.option, "for-each-ref", "refs/heads/", "--format=%(refname:short)"]
  | head (b : String) : IsQuery r [r.option, "rev-parse", b ++ "^0"]
  | base (b : String) : IsQuery r [r.option, "rev-parse", b ++ "~1"]

theorem onlyAsks_isQuery (r : Repository) : r.OnlyAsks r.IsQuery where
  listing := .listing
  head := .head
  base := .base

theorem backend_congr (h : ∀ args, r.IsQuery args → host ⟨"git", args⟩ = host' ⟨"git", args⟩) :
    r.backend host = r.backend host' := by
  have hlisting : r.listing.capture host = r.listing.capture host' :=
    CommandLine.capture_congr (h _ .listing)
  have hhead : ∀ b, (r.headQuery b).capture host = (r.headQuery b).capture host' := fun b =>
    CommandLine.capture_congr (h _ (.head b))
  have hbase : ∀ b, (r.baseQuery b).capture host = (r.baseQuery b).capture host' := fun b =>
    CommandLine.capture_congr (h _ (.base b))
  have hbranches : r.branches host = r.branches host' := congrArg (· >>= _) hlisting
  rw [backend, backend, hbranches]
  exact congrArg₂ (Backend.mk "git" _) (funext hhead) (funext hbase)

theorem perform_congr (h : ∀ args, r.IsQuery args → host ⟨"git", args⟩ = host' ⟨"git", args⟩)
    (o : Operation) : o.perform r host = o.perform r host' := by
  have hbackend := backend_congr h
  cases o <;> simp only [Operation.perform, hbackend]

theorem headQuery_inj {c : String} : r.headQuery b = r.headQuery c ↔ b = c := by
  simp [headQuery, command, CommandLine.arg, CommandLine.addArgs, resolveArgs, headRevision]

theorem baseQuery_inj {c : String} : r.baseQuery b = r.baseQuery c ↔ b = c := by
  simp [baseQuery, command, CommandLine.arg, CommandLine.addArgs, resolveArgs, ancestorRevision]

theorem headQuery_ne_baseQuery (r : Repository) (b c : String) : r.headQuery b ≠ r.baseQuery c := by
  have hne := headRevision_ne_ancestorRevision b c
  simp [headQuery, baseQuery, command, CommandLine.arg, CommandLine.addArgs, resolveArgs, hne]

theorem headQuery_ne_listing (r : Repository) (b : String) : r.headQuery b ≠ r.listing := by
  simp [headQuery, listing, command, CommandLine.arg, CommandLine.addArgs, resolveArgs, listArgs]

theorem baseQuery_ne_listing (r : Repository) (b : String) : r.baseQuery b ≠ r.listing := by
  simp [baseQuery, listing, command, CommandLine.arg, CommandLine.addArgs, resolveArgs, listArgs]

theorem mem_chosen_of_mem_queries
    (h : r.headQuery b ∈ r.queries host settings ∨ r.baseQuery b ∈ r.queries host settings) :
    ∃ text, r.listing.answer host = .ok text ∧ b ∈ settings.chosen (Text.lines text) := by
  rcases h with h | h
  · rcases of_mem_queries h with hlisting | ⟨text, htext, c, hc, hhead | hbase⟩
    · exact absurd hlisting (r.headQuery_ne_listing b)
    · exact ⟨text, htext, headQuery_inj.1 hhead ▸ hc⟩
    · exact absurd hbase (r.headQuery_ne_baseQuery b c)
  · rcases of_mem_queries h with hlisting | ⟨text, htext, c, hc, hhead | hbase⟩
    · exact absurd hlisting (r.baseQuery_ne_listing b)
    · exact absurd hhead.symm (r.headQuery_ne_baseQuery c b)
    · exact ⟨text, htext, baseQuery_inj.1 hbase ▸ hc⟩

theorem exists_concat_of_branchQueries {branches : List String} {before after : List CommandLine}
    (h : r.branchQueries branches = before ++ r.baseQuery b :: after) :
    ∃ earlier, before = earlier ++ [r.headQuery b] := by
  induction branches generalizing before with
  | nil => simp [branchQueries] at h
  | cons d rest ih =>
    change r.headQuery d :: r.baseQuery d :: r.branchQueries rest = _ at h
    rcases before with _ | ⟨x, _ | ⟨y, before⟩⟩
    · exact absurd (List.cons.inj h).1 (r.headQuery_ne_baseQuery d b)
    · simp only [List.cons_append, List.nil_append, List.cons.injEq, baseQuery_inj] at h
      obtain ⟨rfl, rfl, -⟩ := h
      exact ⟨[], rfl⟩
    · simp only [List.cons_append, List.cons.injEq] at h
      obtain ⟨rfl, rfl, hrest⟩ := h
      obtain ⟨earlier, rfl⟩ := ih hrest
      exact ⟨_ :: _ :: earlier, rfl⟩

theorem exists_concat_of_queries {before after : List CommandLine}
    (h : r.queries host settings = before ++ r.baseQuery b :: after) :
    ∃ earlier, before = earlier ++ [r.headQuery b] := by
  have hmem : r.baseQuery b ∈ r.queries host settings := by simp [h]
  obtain ⟨text, htext, -⟩ := mem_chosen_of_mem_queries (.inr hmem)
  rw [queries_of_listing htext] at h
  cases before with
  | nil => exact absurd (List.cons.inj h).1.symm (r.baseQuery_ne_listing b)
  | cons first before =>
    obtain ⟨earlier, rfl⟩ := exists_concat_of_branchQueries (List.cons.inj h).2
    exact ⟨first :: earlier, rfl⟩

theorem exists_asked (r : Repository) (host : Host) (settings : Settings) :
    ∃ asked, asked <+: r.queries host settings ∧
      (readTips (r.backend host) settings).calls = asked.map CommandLine.args ∧
      ∀ c ∈ asked.dropLast, ∃ text, c.answer host = .ok text := by
  rcases r.answers_or_failsAt host settings with ⟨tips, hanswers⟩ | ⟨earlier, c, cause, hfails⟩
  · refine ⟨_, List.prefix_rfl, (readTips_of_answers hanswers).2, fun c hc => ?_⟩
    exact hanswers.answer_of_mem_queries (List.dropLast_subset _ hc)
  · obtain ⟨later, hqueries⟩ := hfails.queries
    have hcalls := (readTips_of_failsAt hfails).2
    cases hhost : host c with
    | error reason =>
      refine ⟨earlier, ⟨c :: later, hqueries.symm⟩, ?_, fun d hd => ?_⟩
      · simpa [CommandLine.calls, hhost] using hcalls
      · exact hfails.earlier d (List.dropLast_subset _ hd)
    | ok output =>
      refine ⟨earlier ++ [c], ⟨later, by simp [hqueries]⟩, ?_, fun d hd => ?_⟩
      · simpa [CommandLine.calls, hhost] using hcalls
      · exact hfails.earlier d (by simpa using hd)

/-- The calls of a reading: whom they are about, and in which order they come. -/
structure ReadsInTurn (r : Repository) (host : Host) (settings : Settings)
    (calls : List (List String)) : Prop where
  listed : ∀ b, [r.option, "rev-parse", b ++ "^0"] ∈ calls ∨
      [r.option, "rev-parse", b ++ "~1"] ∈ calls →
    ∃ lines, (r.backend host).branches.outcome = .ok lines ∧
      (∃ line ∈ lines, b = Text.trim line) ∧ b ≠ "" ∧ settings.excludes b = false
  headFirst : ∀ before b after, calls = before ++ [r.option, "rev-parse", b ++ "~1"] :: after →
    ∃ earlier head, before = earlier ++ [[r.option, "rev-parse", b ++ "^0"]] ∧
      ((r.backend host).head b).outcome = .ok head

theorem readsInTurn_readTips (r : Repository) (host : Host) (settings : Settings) :
    r.ReadsInTurn host settings (readTips (r.backend host) settings).calls := by
  obtain ⟨asked, hasked, hcalls, hanswered⟩ := r.exists_asked host settings
  have hprogram : ∀ c ∈ asked, c.program = "git" := fun c hc =>
    program_of_mem_queries (hasked.subset hc)
  rw [hcalls]
  constructor
  · intro b hb
    have hmem : r.headQuery b ∈ asked ∨ r.baseQuery b ∈ asked :=
      hb.imp (CommandLine.mem_of_args_mem hprogram) (CommandLine.mem_of_args_mem hprogram)
    obtain ⟨text, htext, hchosen⟩ :=
      mem_chosen_of_mem_queries (hmem.imp (hasked.subset ·) (hasked.subset ·))
    obtain ⟨hlisted, hkept⟩ := List.mem_filter.1 hchosen
    obtain ⟨line, hline, rfl⟩ := List.mem_map.1 hlisted
    refine ⟨_, (branches_gives htext).1, ⟨line, hline, rfl⟩, ?_⟩
    simpa using hkept
  · intro before b after h
    obtain ⟨front, back, rfl, rfl, hback⟩ := List.map_eq_append_iff.1 h
    obtain ⟨c, back, rfl, hargs, rfl⟩ := List.map_eq_cons_iff.1 hback
    obtain rfl : c = r.baseQuery b := CommandLine.eq_of_args (hprogram c (by simp)) hargs
    obtain ⟨later, hqueries⟩ := hasked
    rw [List.append_assoc] at hqueries
    obtain ⟨earlier, rfl⟩ := exists_concat_of_queries hqueries.symm
    have hmem : r.headQuery b ∈ (earlier ++ [r.headQuery b] ++ r.baseQuery b :: back).dropLast := by
      rw [List.dropLast_append_cons]
      simp
    obtain ⟨head, hhead⟩ := hanswered _ hmem
    exact ⟨_, head, List.map_append, (capture_gives_of_answer hhead).1⟩

/-- Whatever a repository is asked, the processes that are started are its three queries: each call
has the arguments of one of them, and no other answer of a host counts. -/
theorem session_only_queries (r : Repository) (host : Host) (operations : List Operation) :
    r.session host operations =
      (Operation.turns host operations).map (fun t => t.2.perform r t.1) ∧
    ∀ t ∈ Operation.turns host operations,
      let run := t.2.perform r t.1
      (∀ args ∈ run.calls, r.IsQuery args) ∧
      (∀ host' : Host, (∀ args, r.IsQuery args → t.1 ⟨"git", args⟩ = host' ⟨"git", args⟩) →
        t.2.perform r host' = run) ∧
      ∀ settings, t.2 = .tips settings ∨ t.2 = .commands settings →
        r.ReadsInTurn t.1 settings run.calls := by
  refine ⟨r.session_eq_map host operations, fun t _ => ?_⟩
  intro run
  refine ⟨r.onlyAsks_isQuery.perform t.1 t.2, fun host' h => (perform_congr h t.2).symm, ?_⟩
  intro settings h
  have hcalls : run.calls = (readTips (r.backend t.1) settings).calls := by
    rcases h with h | h
    · simp only [run, h, Operation.perform, Run.calls_bind_pure]
    · simp only [run, h, Operation.perform, Run.calls_bind_pure, Planner.calls_commands]
  rw [hcalls]
  exact r.readsInTurn_readTips t.1 settings

end Repository

end Git

end Restack
