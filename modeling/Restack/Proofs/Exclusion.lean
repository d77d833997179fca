import Restack.Proofs.Reading
import Restack.Proofs.SharedHeads

/-!
# Excluded branches

Reading depends on a backend through the branches that are chosen from its listing, and through the
answers about these branches. An excluded branch is never among them, so neither its commits nor
the failures of queries about it can reach a plan, and no plan names it.
-/

namespace Restack

variable {κ κ' α β ε : Type}

theorem Run.outcome_bind (r : Run κ α) (next : α → Run κ β) :
    (r >>= next).outcome = r.outcome >>= fun a => (next a).outcome := by
  cases h : r.outcome with
  | error e => rw [bind_of_error h]; rfl
  | ok a => rw [bind_of_ok h]; rfl

theorem Run.outcome_notingFailure (r : Run κ α) (events : QueryError → List Event) :
    (r.notingFailure events).outcome = r.outcome := by
  unfold notingFailure
  split <;> rfl

theorem mapM_eq_ok_iff {f : α → Except ε β} {xs : List α} {ys : List β} :
    xs.mapM f = .ok ys ↔ List.Forall₂ (fun x y => f x = .ok y) xs ys := by
  induction xs generalizing ys with
  | nil => simp [pure, Except.pure, eq_comm]
  | cons x xs ih =>
    rw [List.mapM_cons, List.forall₂_cons_left_iff]
    cases hx : f x with
    | error e => simp [bind, Except.bind]
    | ok y =>
      cases hxs : xs.mapM f with
      | error e => simp [← ih, hxs, bind, Except.bind]
      | ok rest => simp [← ih, hxs, bind, Except.bind, pure, Except.pure, eq_comm]

theorem mapM_congr {f g : α → Except ε β} {xs : List α} (h : ∀ x ∈ xs, f x = g x) :
    xs.mapM f = xs.mapM g := by
  induction xs with
  | nil => rfl
  | cons x xs ih =>
    rw [List.mapM_cons, List.mapM_cons, h x List.mem_cons_self,
      ih fun y hy => h y (List.mem_cons_of_mem x hy)]

namespace Backend

variable {backend : Backend κ} {backend' : Backend κ'} {settings : Settings}
  {branches : List String} {tips : List Tip} {b : String}

def tip (backend : Backend κ) (b : String) : Except QueryError Tip := do
  let head ← (backend.head b).outcome
  let base ← (backend.ancestor b).outcome
  return ⟨b, head, base⟩

theorem branch_of_tip {t : Tip} (h : backend.tip b = .ok t) : t.branch = b := by
  unfold tip at h
  cases hhead : (backend.head b).outcome with
  | error e => simp [hhead, bind, Except.bind] at h
  | ok head =>
    cases hbase : (backend.ancestor b).outcome with
    | error e => simp [hhead, hbase, bind, Except.bind] at h
    | ok base =>
      simp only [hhead, hbase, bind, Except.bind, pure, Except.pure, Except.ok.injEq] at h
      rw [← h]

theorem tip_congr (hhead : (backend.head b).outcome = (backend'.head b).outcome)
    (hbase : (backend.ancestor b).outcome = (backend'.ancestor b).outcome) :
    backend.tip b = backend'.tip b := by
  rw [tip, tip, hhead, hbase]

theorem outcome_readTip (backend : Backend κ) (b : String) :
    (readTip backend b).outcome = backend.tip b := by
  unfold readTip tip
  simp only [Run.outcome_bind]
  rfl

theorem outcome_readEach (backend : Backend κ) (branches : List String) :
    (readEach backend branches).outcome = branches.mapM backend.tip := by
  induction branches with
  | nil => rfl
  | cons b rest ih =>
    rw [readEach, List.mapM_cons, Run.outcome_bind, outcome_readTip]
    congr 1
    funext t
    rw [Run.outcome_bind, ih]
    rfl

theorem outcome_readTips (backend : Backend κ) (settings : Settings) :
    (readTips backend settings).outcome =
      backend.branches.outcome.map settings.chosen >>= fun bs => bs.mapM backend.tip := by
  unfold readTips
  rw [Run.outcome_bind]
  cases backend.branches.outcome with
  | error e => rfl
  | ok lines =>
    have hlisted : (readListed backend settings lines).outcome =
        (settings.chosen lines).mapM backend.tip := by
      rw [(readListed_gives_readEach lines).1, outcome_readEach]
    change (readListed backend settings lines >>= _).outcome =
      (settings.chosen lines).mapM backend.tip
    rw [Run.outcome_bind, hlisted]
    cases (settings.chosen lines).mapM backend.tip <;> rfl

theorem readTips_eq_ok_iff : (readTips backend settings).outcome = .ok tips ↔
    ∃ lines, backend.branches.outcome = .ok lines ∧
      List.Forall₂ (fun b t => backend.tip b = .ok t) (settings.chosen lines) tips := by
  rw [outcome_readTips]
  cases backend.branches.outcome with
  | error e => simp [bind, Except.bind, Except.map]
  | ok lines => simp [bind, Except.bind, Except.map, mapM_eq_ok_iff]

theorem map_branch_of_forall₂ (h : List.Forall₂ (fun b t => backend.tip b = .ok t) branches tips) :
    tips.map Tip.branch = branches := by
  have hsame : List.Forall₂ (fun b t => b = t.branch) branches tips :=
    h.imp fun b t ht => (branch_of_tip ht).symm
  rw [← List.forall₂_map_right_iff, List.forall₂_eq_eq_eq] at hsame
  exact hsame.symm

theorem outcome_commands (backend : Backend κ) (settings : Settings) :
    (Planner.commands backend settings).outcome = (readTips backend settings).outcome.map
      fun tips => (Plan.ofTips tips).commands settings.strategy := by
  unfold Planner.commands
  rw [Run.outcome_bind, Run.outcome_notingFailure]
  cases (readTips backend settings).outcome <;> rfl

end Backend

namespace Planner

open Backend

/-- Backends that list the same branches besides blanks and excluded ones, and answer the same about
these, give the same commands or the same error; and an excluded branch is in no plan. -/
theorem outcome_commands_eq_of_chosen (settings : Settings) (backend : Backend κ)
    (backend' : Backend κ')
    (hlisting : backend.branches.outcome.map settings.chosen =
      backend'.branches.outcome.map settings.chosen)
    (hanswers : ∀ lines, backend.branches.outcome = .ok lines → ∀ b ∈ settings.chosen lines,
      (backend.head b).outcome = (backend'.head b).outcome ∧
      (backend.ancestor b).outcome = (backend'.ancestor b).outcome) :
    (commands backend settings).outcome = (commands backend' settings).outcome ∧
    ∀ lines, (commands backend settings).outcome = .ok lines →
      ∃ tips, (readTips backend settings).outcome = .ok tips ∧
        (readTips backend' settings).outcome = .ok tips ∧
        lines = (Plan.ofTips tips).commands settings.strategy ∧
        (∀ s ∈ (Plan.ofTips tips).steps,
          settings.excludes s.branch = false ∧ settings.excludes s.onto = false) ∧
        ∀ r ∈ (Plan.ofTips tips).sharedHeads,
          settings.excludes r.kept = false ∧ settings.excludes r.shadowed = false := by
  -- the backends agree before anything is planned
  have hsame : (readTips backend settings).outcome = (readTips backend' settings).outcome := by
    rw [outcome_readTips, outcome_readTips, ← hlisting]
    cases hlines : backend.branches.outcome with
    | error e => rfl
    | ok lines =>
      exact mapM_congr fun b hb =>
        tip_congr (hanswers lines hlines b hb).1 (hanswers lines hlines b hb).2
  refine ⟨by rw [outcome_commands, outcome_commands, hsame], fun lines h => ?_⟩
  rw [outcome_commands] at h
  cases hread : (readTips backend settings).outcome with
  | error e =>
    rw [hread] at h
    cases h
  | ok tips =>
    rw [hread] at h
    obtain ⟨listed, -, htips⟩ := readTips_eq_ok_iff.1 hread
    have hkept : ∀ t ∈ tips, settings.excludes t.branch = false := by
      intro t ht
      have hchosen : t.branch ∈ settings.chosen listed :=
        map_branch_of_forall₂ htips ▸ List.mem_map_of_mem ht
      rw [Settings.chosen, List.mem_filter] at hchosen
      simpa using (Bool.and_eq_true_iff.1 hchosen.2).2
    refine ⟨tips, rfl, hsame.symm.trans hread, (Except.ok.inj h).symm, fun s hs => ?_, fun r hr => ?_⟩
    · obtain ⟨t, ht, u, hu, hbranch, honto⟩ := Plan.exists_tips_of_mem_steps hs
      exact ⟨hbranch ▸ hkept t ht, honto ▸ hkept u hu⟩
    · obtain ⟨t, ht, u, hu, hbranch, hshadowed⟩ := SharedHead.exists_tips_of_mem_ofTips hr
      exact ⟨hbranch ▸ hkept t ht, hshadowed ▸ hkept u hu⟩

def plain : Memory where
  name := "plain"
  branches := .ok ["main", "topic"]
  commits := [("main", some (.ok "c2"), some (.ok "c1")), ("topic", some (.ok "c3"), some (.ok "c2"))]

def padded : Memory where
  name := "padded"
  branches := .ok [" wikidoc", "main\t", "", "topic", "wikidoc\n"]
  commits := ("wikidoc", some (.ok "c2"), none) :: plain.commits

theorem outcome_commands_plain_padded :
    (padded.backend.head "wikidoc").outcome = (plain.backend.head "main").outcome ∧
    (∃ e, (padded.backend.ancestor "wikidoc").outcome = .error e) ∧
    (commands padded.backend {}).outcome =
      .ok ((Plan.ofTips [⟨"main", "c2", "c1"⟩, ⟨"topic", "c3", "c2"⟩]).commands "theirs") := by
  have hlisting : plain.backend.branches.outcome.map (Settings.chosen {}) =
      padded.backend.branches.outcome.map (Settings.chosen {}) := by decide
  have hanswers : ∀ lines, plain.backend.branches.outcome = .ok lines →
      ∀ b ∈ Settings.chosen {} lines,
        (plain.backend.head b).outcome = (padded.backend.head b).outcome ∧
        (plain.backend.ancestor b).outcome = (padded.backend.ancestor b).outcome := by
    intro lines hlines
    cases hlines
    decide
  obtain ⟨hsame, -⟩ := outcome_commands_eq_of_chosen {} plain.backend padded.backend hlisting hanswers
  have hread : (readTips plain.backend {}).outcome =
      .ok [⟨"main", "c2", "c1"⟩, ⟨"topic", "c3", "c2"⟩] := by
    rw [outcome_readTips]
    decide
  refine ⟨by decide, ⟨_, rfl⟩, ?_⟩
  rw [← hsame, outcome_commands, hread]
  rfl

end Planner

end Restack
