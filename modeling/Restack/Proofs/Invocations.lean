import Restack.Git
import Restack.Proofs.Queries

/-!
# The processes of a session

Whatever a repository is asked, each process that is started is one of three queries, and its first
argument names the repository's directory. The argument is a text: it has the very bytes of the
directory if these are a text, and other bytes if they are not.
-/

namespace Restack

variable {κ α β : Type} {P : κ → Prop}

namespace Run

def OnlyCalls (P : κ → Prop) (r : Run κ α) : Prop := ∀ k ∈ r.calls, P k

theorem onlyCalls_pure (a : α) : (pure a : Run κ α).OnlyCalls P := by simp [OnlyCalls]

theorem onlyCalls_note (event : Event) : (note event : Run κ Unit).OnlyCalls P := by
  simp [OnlyCalls, note]

theorem onlyCalls_noteAll (events : List Event) : (noteAll events : Run κ Unit).OnlyCalls P := by
  simp [OnlyCalls, noteAll]

theorem OnlyCalls.bind {r : Run κ α} {next : α → Run κ β} (h : r.OnlyCalls P)
    (hnext : ∀ a, (next a).OnlyCalls P) : (r >>= next).OnlyCalls P := by
  cases hr : r.outcome with
  | error e =>
    rw [bind_of_error hr]
    exact h
  | ok a =>
    rw [bind_of_ok hr]
    intro k hk
    rcases List.mem_append.1 hk with hk | hk
    · exact h k hk
    · exact hnext a k hk

theorem OnlyCalls.notingFailure {r : Run κ α} (h : r.OnlyCalls P)
    (events : QueryError → List Event) : (r.notingFailure events).OnlyCalls P := by
  unfold Run.notingFailure
  split
  · exact h
  · exact h

end Run

structure Backend.OnlyCalls (P : κ → Prop) (backend : Backend κ) : Prop where
  branches : backend.branches.OnlyCalls P
  head : ∀ b, (backend.head b).OnlyCalls P
  ancestor : ∀ b, (backend.ancestor b).OnlyCalls P

namespace Backend.OnlyCalls

variable {backend : Backend κ}

theorem readTip (h : backend.OnlyCalls P) (b : String) : (readTip backend b).OnlyCalls P := by
  apply (h.head b).bind
  intro head
  apply (h.ancestor b).bind
  intro base
  exact (Run.onlyCalls_note _).bind fun _ => Run.onlyCalls_pure _

theorem readListed (h : backend.OnlyCalls P) (settings : Settings) (lines : List String) :
    (readListed backend settings lines).OnlyCalls P := by
  induction lines with
  | nil => exact Run.onlyCalls_pure []
  | cons line rest ih =>
    simp only [Restack.readListed]
    split_ifs
    · exact ih
    · exact (Run.onlyCalls_note _).bind fun _ => ih
    · apply (h.readTip _).bind
      intro tip
      exact ih.bind fun tips => Run.onlyCalls_pure _

theorem readTips (h : backend.OnlyCalls P) (settings : Settings) :
    (readTips backend settings).OnlyCalls P := by
  apply h.branches.bind
  intro lines
  apply (h.readListed settings lines).bind
  intro tips
  exact (Run.onlyCalls_note _).bind fun _ => Run.onlyCalls_pure tips

theorem commands (h : backend.OnlyCalls P) (settings : Settings) :
    (Planner.commands backend settings).OnlyCalls P := by
  apply ((h.readTips settings).notingFailure _).bind
  intro tips
  exact (Run.onlyCalls_noteAll _).bind fun _ => Run.onlyCalls_pure _

end Backend.OnlyCalls

theorem CommandLine.onlyCalls_capture {P : List String → Prop} (host : Host) {c : CommandLine}
    (h : P c.args) : (c.capture host).OnlyCalls P := by
  intro args hargs
  rw [(capture_gives host c).2, calls] at hargs
  split at hargs
  · cases hargs
  · exact List.mem_singleton.1 hargs ▸ h

namespace Git.Repository

variable {r : Repository} {P : List String → Prop}

structure OnlyAsks (r : Repository) (P : List String → Prop) : Prop where
  listing : P r.listing.args
  head : ∀ b, P (r.headQuery b).args
  base : ∀ b, P (r.baseQuery b).args

theorem OnlyAsks.backend (h : r.OnlyAsks P) (host : Host) : (r.backend host).OnlyCalls P where
  branches := (CommandLine.onlyCalls_capture host h.listing).bind fun _ => Run.onlyCalls_pure _
  head b := CommandLine.onlyCalls_capture host (h.head b)
  ancestor b := CommandLine.onlyCalls_capture host (h.base b)

theorem OnlyAsks.perform (h : r.OnlyAsks P) (host : Host) (o : Operation) :
    (o.perform r host).OnlyCalls P := by
  have hbackend := h.backend host
  cases o with
  | useHost next => exact Run.onlyCalls_pure _
  | backendName => exact Run.onlyCalls_pure _
  | directory => exact Run.onlyCalls_pure _
  | branches => exact hbackend.branches.bind fun _ => Run.onlyCalls_pure _
  | head b => exact (hbackend.head b).bind fun _ => Run.onlyCalls_pure _
  | ancestor b => exact (hbackend.ancestor b).bind fun _ => Run.onlyCalls_pure _
  | tips settings => exact (hbackend.readTips settings).bind fun _ => Run.onlyCalls_pure _
  | commands settings => exact (hbackend.commands settings).bind fun _ => Run.onlyCalls_pure _

theorem OnlyAsks.session (h : r.OnlyAsks P) (host : Host) (operations : List Operation) :
    ∀ run ∈ r.session host operations, run.OnlyCalls P := by
  induction operations generalizing host with
  | nil => simp [Repository.session]
  | cons o rest ih => exact List.forall_mem_cons.2 ⟨h.perform host o, ih _⟩

/-- The first argument is the option that names a repository, with the bytes of the directory. -/
def NamesDirectory (directory : Path) (args : List String) : Prop :=
  ∃ a, args.head? = some a ∧ Utf8.encode a = Utf8.encode "--git-dir=" ++ directory

theorem encode_option_eq_iff : Utf8.encode r.option = Utf8.encode "--git-dir=" ++ r.directory ↔
    Utf8.IsText r.directory := by
  rw [option, Utf8.encode_append, List.append_cancel_left_eq, Utf8.encode_decodeLossy_iff]

theorem eq_of_option_eq {r' : Repository} (h : Utf8.IsText r.directory)
    (h' : Utf8.IsText r'.directory) (he : r.option = r'.option) : r = r' := by
  have hbytes : r.directory = r'.directory := by
    have hprefixed := congrArg Utf8.encode he
    rwa [encode_option_eq_iff.2 h, encode_option_eq_iff.2 h', List.append_cancel_left_eq]
      at hprefixed
  cases r
  cases r'
  exact congrArg Repository.mk hbytes

theorem head?_of_mem_calls {host : Host} {operations : List Operation}
    {run : Run (List String) Reply} (hrun : run ∈ r.session host operations) {args : List String}
    (hargs : args ∈ run.calls) : args.head? = some r.option := by
  have hasks : r.OnlyAsks fun args => args.head? = some r.option :=
    ⟨rfl, fun _ => rfl, fun _ => rfl⟩
  exact hasks.session host operations run hrun args hargs

/-- The processes of a session are given the directory as it is exactly when it is a text, and then
they tell it from every other such directory. -/
theorem namesDirectory_iff_isText (r : Repository) (host : Host) (operations : List Operation) :
    (∀ run ∈ r.session host operations, ∀ args ∈ run.calls,
      args.head? = some ("--git-dir=" ++ Utf8.decodeLossy r.directory) ∧
      (NamesDirectory r.directory args ↔ Utf8.IsText r.directory)) ∧
    ∀ (r' : Repository) (host' : Host) (operations' : List Operation),
      Utf8.IsText r.directory → Utf8.IsText r'.directory →
      ∀ run ∈ r.session host operations, ∀ run' ∈ r'.session host' operations',
        ∀ args ∈ run.calls, args ∈ run'.calls → r = r' := by
  refine ⟨fun run hrun args hargs => ?_, ?_⟩
  · have hfirst := head?_of_mem_calls hrun hargs
    refine ⟨hfirst, ?_⟩
    rw [← encode_option_eq_iff, NamesDirectory, hfirst]
    simp only [Option.some.injEq, exists_eq_left']
  · intro r' host' operations' h h' run hrun run' hrun' args hargs hargs'
    have hfirst := (head?_of_mem_calls hrun hargs).symm.trans (head?_of_mem_calls hrun' hargs')
    exact eq_of_option_eq h h' (Option.some.inj hfirst)

def oneLine : Host := fun _ => .ok ⟨some 0, Utf8.encode "main\n", []⟩

theorem calls_session_branches (r : Repository) :
    (r.session oneLine [.branches]).map Run.calls = [[r.option :: listArgs]] := by
  have hanswer : r.listing.answer oneLine = .ok (Text.trim "main\n") :=
    CommandLine.answer_of_encode rfl rfl rfl
  have hgives : (Operation.branches.perform r oneLine).Gives
      (.ok (.texts (Text.lines (Text.trim "main\n")))) ([r.listing.args] ++ []) :=
    (branches_gives hanswer).bind (Run.gives_pure _)
  exact congrArg (fun calls => [calls]) hgives.2

theorem exists_call_session_branches (r : Repository) :
    ∃ run ∈ r.session oneLine [.branches], (r.option :: listArgs) ∈ run.calls := by
  have hmem : [r.option :: listArgs] ∈ (r.session oneLine [.branches]).map Run.calls := by
    rw [calls_session_branches]
    exact List.mem_cons_self
  obtain ⟨run, hrun, hcalls⟩ := List.mem_map.1 hmem
  exact ⟨run, hrun, hcalls ▸ List.mem_cons_self⟩

theorem namesDirectory_repo :
    let r : Repository := ⟨Utf8.encode "repo/.git"⟩
    let other : Repository := ⟨Utf8.encode "repö/.git"⟩
    Utf8.IsText r.directory ∧ Utf8.IsText other.directory ∧
    ∃ run ∈ r.session oneLine [.branches], ∃ args ∈ run.calls, NamesDirectory r.directory args ∧
      ∀ run' ∈ other.session oneLine [.branches], args ∉ run'.calls := by
  intro r other
  have htext : Utf8.IsText r.directory := ⟨_, rfl⟩
  have htext' : Utf8.IsText other.directory := ⟨_, rfl⟩
  have hne : r ≠ other := by decide
  obtain ⟨run, hrun, hargs⟩ := exists_call_session_branches r
  obtain ⟨hcalls, hapart⟩ := namesDirectory_iff_isText r oneLine [.branches]
  refine ⟨htext, htext', run, hrun, _, hargs, (hcalls run hrun _ hargs).2.2 htext, ?_⟩
  intro run' hrun' hargs'
  exact hne (hapart other oneLine [.branches] htext htext' run hrun run' hrun' _ hargs hargs')

/-- Two directories that are no texts, and are called the same. -/
theorem not_namesDirectory_stray :
    let r : Repository := ⟨[0xFF]⟩
    let other : Repository := ⟨[0xFE]⟩
    0 ∉ r.directory ∧ 0 ∉ other.directory ∧ r ≠ other ∧
    (r.session oneLine [.branches]).map Run.calls =
      (other.session oneLine [.branches]).map Run.calls ∧
    ∃ run ∈ r.session oneLine [.branches], ∃ args ∈ run.calls,
      ¬ NamesDirectory r.directory args := by
  intro r other
  have hlossy : Utf8.decodeLossy r.directory = "\uFFFD" ∧
      Utf8.decodeLossy other.directory = "\uFFFD" := by
    constructor <;> cbv
  have hoption : r.option = other.option := by rw [option, option, hlossy.1, hlossy.2]
  obtain ⟨run, hrun, hargs⟩ := exists_call_session_branches r
  refine ⟨by decide, by decide, by decide, ?_, run, hrun, _, hargs, ?_⟩
  · rw [calls_session_branches, calls_session_branches, hoption]
  · intro h
    obtain ⟨a, ha, hbytes⟩ := h
    obtain rfl : r.option = a := Option.some.inj ha
    rw [encode_option_eq_iff, ← Utf8.encode_decodeLossy_iff, hlossy.1] at hbytes
    exact absurd hbytes (by decide)

end Git.Repository

end Restack
