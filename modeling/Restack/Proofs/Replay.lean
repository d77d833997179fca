import Mathlib.Logic.Function.Basic
import Restack.Proofs.StepOrder

/-!
# Carrying out a plan

A step puts its branch onto wherever the parent stands at that moment, so a step that comes too
early leaves the branch behind. Without loops no branch is left behind: in the end each one stands
where the final position of its parent puts it, and only one state is like that.
-/

namespace Restack

variable {α : Type*} {f : String → α → α}

namespace Step

def carryOut (f : String → α → α) (s : Step) (state : String → α) : String → α :=
  Function.update state s.branch (f s.branch (state s.onto))

def replay (f : String → α → α) : List Step → (String → α) → String → α
  | [], state => state
  | s :: rest, state => replay f rest (s.carryOut f state)

theorem replay_of_not_mem {steps : List Step} {b : String} (hb : b ∉ steps.map branch)
    (state : String → α) : replay f steps state b = state b := by
  induction steps generalizing state with
  | nil => rfl
  | cons s rest ih =>
    rw [List.map_cons, List.mem_cons, not_or] at hb
    rw [replay, ih hb.2, carryOut, Function.update_of_ne hb.1]

theorem replay_branch {steps : List Step} {s : Step}
    (h : steps.Pairwise fun s t => t.branch ≠ s.branch ∧ t.branch ≠ s.onto)
    (hself : ∀ t ∈ steps, t.onto ≠ t.branch) (hs : s ∈ steps) (state : String → α) :
    replay f steps state s.branch = f s.branch (replay f steps state s.onto) := by
  induction steps generalizing state with
  | nil => cases hs
  | cons t rest ih =>
    obtain ⟨hlater, hrest⟩ := List.pairwise_cons.1 h
    rcases List.mem_cons.1 hs with he | hs
    · subst he
      have hbranch : s.branch ∉ rest.map branch := by
        intro hmem
        obtain ⟨t, ht, he⟩ := List.mem_map.1 hmem
        exact (hlater t ht).1 he
      have honto : s.onto ∉ rest.map branch := by
        intro hmem
        obtain ⟨t, ht, he⟩ := List.mem_map.1 hmem
        exact (hlater t ht).2 he
      rw [replay, replay_of_not_mem hbranch, replay_of_not_mem honto, carryOut,
        Function.update_self, Function.update_of_ne (hself s List.mem_cons_self)]
    · exact ih hrest (fun t ht => hself t (List.mem_cons_of_mem _ ht)) hs _

end Step

namespace Lineage

variable {l : Lineage} {start : String → α}

/-- Every branch that has another branch as parent stands where `f` puts it for the parent's
position in the same state; everything else stands where it stood at the start. -/
structure Settled (l : Lineage) (f : String → α → α) (start state : String → α) : Prop where
  moved : ∀ b p, l.parent? b = some p → p ≠ b → state b = f b (state p)
  kept : ∀ b, (∀ p, l.parent? b = some p → p = b) → state b = start b

theorem Settled.unique {state state' : String → α} (hl : l.Loopless)
    (h : l.Settled f start state) (h' : l.Settled f start state') : state = state' := by
  funext b
  have hpath := l.climb_isPath b
  -- down the path of `b`, from the root
  refine hpath.linked.induction (fun x => state x = state' x) _ ?_ ?_ b (l.mem_climb_self b)
  · intro p c hpc hp
    by_cases hne : p = c
    · exact hne ▸ hp
    · rw [h.moved c p hpc hne, h'.moved c p hpc hne, hp]
  · intro hnonempty
    have hroot : ∀ p, l.parent? ((l.climb b).path.head hnonempty) = some p →
        p = (l.climb b).path.head hnonempty := fun p hp =>
      hpath.eq_root_of_loopless hl (List.head?_eq_some_head hnonempty) hp
    rw [h.kept _ hroot, h'.kept _ hroot]

theorem pairwise_steps (hl : l.Loopless) :
    l.steps.Pairwise fun s t => t.branch ≠ s.branch ∧ t.branch ≠ s.onto := by
  apply List.pairwise_iff_forall_sublist.2
  intro s t hst
  have hbranches : Step.Precedes l.steps s.branch t.branch := hst.map Step.branch
  constructor
  · intro he
    have hnodup := l.nodup_map_branch_steps.sublist hbranches
    simp [he] at hnodup
  · intro he
    have hs : s ∈ l.steps := hst.subset (by simp)
    have hearly : s ∈ Step.early l.steps := mem_early.2 ⟨mem_steps.1 hs, he ▸ hbranches⟩
    simp [hl.early_eq_nil] at hearly

theorem replay_settled (hl : l.Loopless) (f : String → α → α) (start : String → α) :
    l.Settled f start (Step.replay f l.steps start) := by
  constructor
  · intro b p hp hne
    have hself : ∀ s ∈ l.steps, s.onto ≠ s.branch := fun s hs => (mem_steps.1 hs).2
    have hs : (⟨b, p⟩ : Step) ∈ l.steps := mem_steps.2 ⟨hp, hne⟩
    exact Step.replay_branch (pairwise_steps hl) hself hs start
  · intro b hroot
    apply Step.replay_of_not_mem
    intro hb
    obtain ⟨p, hp, hne⟩ := mem_map_branch_steps.1 hb
    exact hne (hroot p hp)

end Lineage

namespace Plan

/-- Without loops, carrying out the steps of a plan in their order leads to the settled state, and
to no other. -/
theorem replay_steps_eq_iff_settled (tips : List Tip) (hl : (Lineage.ofTips tips).Loopless)
    (f : String → α → α) (start state : String → α) :
    Step.replay f (ofTips tips).steps start = state ↔
      (Lineage.ofTips tips).Settled f start state := by
  constructor
  · intro he
    exact he ▸ Lineage.replay_settled hl f start
  · intro h
    exact (Lineage.replay_settled hl f start).unique hl h

theorem replay_steps_stack :
    (Lineage.ofTips stack).Loopless ∧
    Step.replay (fun b under => under ++ [b]) (ofTips stack).steps (fun b => [b]) "d" =
      ["z", "a", "b", "x", "d"] := by
  refine ⟨loopless_stack, ?_⟩
  have h := (replay_steps_eq_iff_settled stack loopless_stack (fun b under => under ++ [b])
    (fun b => [b]) _).1 rfl
  have hparent : ∀ b p, (b, some p) ∈ (Lineage.ofTips stack).links →
      (Lineage.ofTips stack).parent? b = some p := fun b p => Lineage.parent?_eq_some_iff.2
  rw [links_stack] at hparent
  have hroot : ∀ p, (Lineage.ofTips stack).parent? "z" = some p → p = "z" := by
    intro p hp
    exact (Option.some.inj (hp.symm.trans (hparent "z" "z" (by simp))))
  rw [h.moved "d" "x" (hparent _ _ (by simp)) (by decide),
    h.moved "x" "b" (hparent _ _ (by simp)) (by decide),
    h.moved "b" "a" (hparent _ _ (by simp)) (by decide),
    h.moved "a" "z" (hparent _ _ (by simp)) (by decide), h.kept "z" hroot]
  rfl

end Plan

end Restack
