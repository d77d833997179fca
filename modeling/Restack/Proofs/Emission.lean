import Mathlib.Data.List.Nodup
import Restack.Plan
import Restack.Proofs.Ancestry

/-!
# The steps of a plan

The branches that have a step are those with a parent other than themselves, and each of them has
one. The order of the steps is read off the paths: going through the branches in name order, a
branch is met for the first time below the root of some path, and exactly those branches come
before it that an earlier path has below its root, or that lie above it on this path.
-/

namespace Restack

theorem nodup_eraseDups {α : Type*} [BEq α] [LawfulBEq α] (xs : List α) : xs.eraseDups.Nodup := by
  induction xs using List.reverseRecOn with
  | nil => exact List.nodup_nil
  | append_singleton xs x ih =>
    rw [List.eraseDups_append]
    by_cases hx : x ∈ xs
    · simpa [List.removeAll, hx] using ih
    · simpa [List.removeAll, hx, List.eraseDups_cons] using ih.concat (List.mem_eraseDups.not.2 hx)

theorem pair_sublist_of_nodup_iff {α : Type*} {before after : List α} {a b : α}
    (h : (before ++ b :: after).Nodup) :
    [a, b].Sublist (before ++ b :: after) ↔ a ∈ before := by
  constructor
  · intro hsub
    by_contra ha
    have hb : b ∉ after := (List.nodup_cons.1 (List.nodup_append.1 h).2.1).1
    obtain ⟨xs, ys, hsplit, hxs, hys⟩ := List.sublist_append_iff.1 hsub
    cases xs with
    | cons x xs =>
      obtain ⟨rfl, -⟩ := List.cons.inj hsplit
      exact ha (hxs.subset List.mem_cons_self)
    | nil =>
      obtain rfl : [a, b] = ys := hsplit
      rcases List.sublist_cons_iff.1 hys with hys | ⟨rest, hrest, hys⟩
      · exact hb (hys.subset (by simp))
      · obtain ⟨-, rfl⟩ := List.cons.inj hrest
        exact hb (hys.subset (by simp))
  · intro ha
    exact (List.singleton_sublist.2 ha).append (List.singleton_sublist.2 List.mem_cons_self)

theorem pair_sublist_iff_not_swap {α : Type*} {xs : List α} {a b : α} (h : xs.Nodup)
    (ha : a ∈ xs) (hb : b ∈ xs) (hne : a ≠ b) : [a, b].Sublist xs ↔ ¬ [b, a].Sublist xs := by
  obtain ⟨before, after, rfl⟩ := List.append_of_mem hb
  rw [pair_sublist_of_nodup_iff h]
  constructor
  · intro hmem
    obtain ⟨front, back, rfl⟩ := List.append_of_mem hmem
    rw [List.append_assoc, List.cons_append] at h ⊢
    rw [pair_sublist_of_nodup_iff h]
    intro hb'
    exact (List.nodup_append.1 h).2.2 b hb' b (by simp) rfl
  · intro hswap
    rcases List.mem_append.1 ha with hmem | hmem
    · exact hmem
    · have hafter : a ∈ after := (List.mem_cons.1 hmem).resolve_left hne
      have hpair : [b, a].Sublist (b :: after) := (List.singleton_sublist.2 hafter).cons_cons b
      exact absurd (hpair.trans (List.sublist_append_right before _)) hswap

theorem pair_sublist_eraseDups_iff {α : Type*} [BEq α] [LawfulBEq α] {before after : List α}
    {a b : α} (hb : b ∉ before) :
    [a, b].Sublist (before ++ b :: after).eraseDups ↔ a ∈ before := by
  have hremove : (b :: after).removeAll before = b :: after.removeAll before := by
    simp [List.removeAll, hb]
  have hnodup := nodup_eraseDups (before ++ b :: after)
  rw [List.eraseDups_append, hremove, List.eraseDups_cons] at hnodup ⊢
  rw [pair_sublist_of_nodup_iff hnodup, List.mem_eraseDups]

theorem exists_first {α : Type*} {P : α → Prop} [DecidablePred P] {xs : List α}
    (h : ∃ x ∈ xs, P x) :
    ∃ before x after, xs = before ++ x :: after ∧ P x ∧ ∀ y ∈ before, ¬ P y := by
  obtain ⟨y, hy, hPy⟩ := h
  have hsome : (xs.find? (P ·)).isSome := List.find?_isSome.2 ⟨y, hy, decide_eq_true hPy⟩
  obtain ⟨x, hx⟩ := Option.isSome_iff_exists.1 hsome
  obtain ⟨hPx, before, after, hsplit, hbefore⟩ := List.find?_eq_some_iff_append.1 hx
  exact ⟨before, x, after, hsplit, of_decide_eq_true hPx, fun z hz => by simpa using hbefore z hz⟩

namespace Step

theorem firsts_cons (s : Step) (rest : List Step) :
    firsts (s :: rest) = s :: firsts (rest.filter fun t => !t.branch == s.branch) := by
  have hfilter : (fun t : Step => decide ((t.branch == s.branch) = false)) =
      fun t => !t.branch == s.branch := by
    funext t
    cases t.branch == s.branch <;> rfl
  rw [firsts, List.eraseDupsBy_cons, hfilter, firsts]

theorem firsts_sublist : ∀ steps, (firsts steps).Sublist steps
  | [] => List.Sublist.slnil
  | s :: rest => by
    rw [firsts_cons]
    exact ((firsts_sublist _).trans List.filter_sublist).cons_cons s
termination_by steps => steps.length
decreasing_by exact Nat.lt_succ_of_le (List.length_filter_le _ _)

theorem map_branch_firsts : ∀ steps, (firsts steps).map branch = (steps.map branch).eraseDups
  | [] => rfl
  | s :: rest => by
    rw [firsts_cons, List.map_cons, map_branch_firsts, List.map_cons, List.eraseDups_cons,
      List.filter_map]
    rfl
termination_by steps => steps.length
decreasing_by exact Nat.lt_succ_of_le (List.length_filter_le _ _)

theorem map_branch_alongPath (path : List String) : (alongPath path).map branch = path.tail := by
  induction path with
  | nil => rfl
  | cons r rest ih =>
    cases rest with
    | nil => rfl
    | cons b rest => exact congrArg (b :: ·) ih

theorem of_mem_alongPath {R : String → String → Prop} {path : List String} {s : Step}
    (h : path.IsChain R) (hs : s ∈ alongPath path) : R s.onto s.branch := by
  induction h with
  | nil => cases hs
  | singleton r => cases hs
  | cons_cons hrel _ ih =>
    rcases List.mem_cons.1 hs with rfl | hs
    · exact hrel
    · exact ih hs

def Precedes (steps : List Step) (a b : String) : Prop := [a, b].Sublist (steps.map branch)

instance (steps : List Step) (a b : String) : Decidable (Precedes steps a b) :=
  inferInstanceAs (Decidable ([a, b].Sublist (steps.map branch)))

end Step

namespace Lineage

variable {l : Lineage}

def below (l : Lineage) (b : String) : List String := (l.climb b).path.tail

theorem climb_eq_cons (l : Lineage) (b : String) : ∃ r, (l.climb b).path = r :: l.below b := by
  rw [below]
  cases hpath : (l.climb b).path with
  | nil => exact absurd (l.mem_climb_self b) (by simp [hpath])
  | cons r rest => exact ⟨r, rfl⟩

theorem mem_below_self {p b : String} (hp : l.IsParent p b) (hne : p ≠ b) : b ∈ l.below b := by
  obtain ⟨r, hpath⟩ := l.climb_eq_cons b
  have hself := l.mem_climb_self b
  have hparent := (l.climb_isPath b).parent_mem hself hp
  have hlast := l.climb_getLast? b
  rw [hpath] at hself hparent hlast
  rcases List.mem_cons.1 hself with rfl | hmem
  · have hbelow : l.below b ≠ [] := fun h => hne (by simpa [h] using hparent)
    rw [List.getLast?_cons_of_ne_nil hbelow] at hlast
    exact List.mem_of_getLast? hlast
  · exact hmem

theorem exists_parent_of_mem_below {b c : String} (h : b ∈ l.below c) :
    ∃ p, l.IsParent p b ∧ p ≠ b := by
  obtain ⟨r, hpath⟩ := l.climb_eq_cons c
  obtain ⟨above, rest, hsplit⟩ := List.append_of_mem h
  have hIsPath := l.climb_isPath c
  rw [hpath, hsplit, ← List.cons_append] at hIsPath
  rcases (r :: above).eq_nil_or_concat' with hnil | ⟨above', p, hconcat⟩
  · cases hnil
  · rw [hconcat, List.append_assoc] at hIsPath
    exact ⟨p, hIsPath.isParent_of_append, fun he =>
      hIsPath.not_mem_of_append (he ▸ List.mem_cons_self)⟩

theorem map_branch_steps (l : Lineage) :
    l.steps.map Step.branch = (l.branches.flatMap l.below).eraseDups := by
  rw [steps, Step.map_branch_firsts, List.map_flatMap]
  simp only [Step.map_branch_alongPath]
  rfl

theorem nodup_map_branch_steps (l : Lineage) : (l.steps.map Step.branch).Nodup := by
  rw [map_branch_steps]
  exact nodup_eraseDups _

theorem isParent_of_mem_steps {s : Step} (hs : s ∈ l.steps) : l.IsParent s.onto s.branch := by
  obtain ⟨c, -, hc⟩ := List.mem_flatMap.1 ((Step.firsts_sublist _).subset hs)
  exact Step.of_mem_alongPath (l.climb_isPath c).linked hc

theorem mem_map_branch_steps {b : String} :
    b ∈ l.steps.map Step.branch ↔ ∃ p, l.IsParent p b ∧ p ≠ b := by
  rw [map_branch_steps, List.mem_eraseDups, List.mem_flatMap]
  constructor
  · intro h
    obtain ⟨c, -, hc⟩ := h
    exact exists_parent_of_mem_below hc
  · intro h
    obtain ⟨p, hp, hne⟩ := h
    exact ⟨b, (mem_branches_of_parent? hp).1, mem_below_self hp hne⟩

theorem mem_steps {b p : String} : ⟨b, p⟩ ∈ l.steps ↔ l.IsParent p b ∧ p ≠ b := by
  constructor
  · intro hs
    have hp : l.IsParent p b := isParent_of_mem_steps hs
    obtain ⟨q, hq, hne⟩ := mem_map_branch_steps.1 (List.mem_map.2 ⟨_, hs, rfl⟩)
    exact ⟨hp, hp.eq hq ▸ hne⟩
  · intro h
    obtain ⟨⟨b', q⟩, hs, rfl⟩ := List.mem_map.1 (mem_map_branch_steps.2 ⟨p, h⟩)
    have hq : l.IsParent q b' := isParent_of_mem_steps hs
    rwa [h.1.eq hq]

/-- In name order `b` is first met below a root on the path of `c`, under the branches `above`,
after the paths of `earlier`. -/
structure MetOn (l : Lineage) (b c : String) (earlier above : List String) : Prop where
  branches_eq : ∃ later, l.branches = earlier ++ c :: later
  fresh : ∀ x ∈ earlier, b ∉ l.below x
  below_eq : ∃ rest, l.below c = above ++ b :: rest

theorem exists_metOn {b : String} (h : b ∈ l.steps.map Step.branch) :
    ∃ c earlier above, l.MetOn b c earlier above := by
  rw [map_branch_steps, List.mem_eraseDups, List.mem_flatMap] at h
  obtain ⟨earlier, c, later, hsplit, hb, hfresh⟩ := exists_first h
  obtain ⟨above, rest, hbelow⟩ := List.append_of_mem hb
  exact ⟨c, earlier, above, ⟨later, hsplit⟩, hfresh, ⟨rest, hbelow⟩⟩

theorem MetOn.climb_eq {b c : String} {earlier above : List String}
    (h : l.MetOn b c earlier above) : ∃ r rest, (l.climb c).path = (r :: above) ++ b :: rest := by
  obtain ⟨rest, hbelow⟩ := h.below_eq
  obtain ⟨r, hpath⟩ := l.climb_eq_cons c
  exact ⟨r, rest, by rw [hpath, hbelow, List.cons_append]⟩

theorem MetOn.precedes_iff {a b c : String} {earlier above : List String}
    (h : l.MetOn b c earlier above) :
    Step.Precedes l.steps a b ↔ (∃ x ∈ earlier, a ∈ l.below x) ∨ a ∈ above := by
  obtain ⟨later, hsplit⟩ := h.branches_eq
  obtain ⟨rest, hbelow⟩ := h.below_eq
  have hflat : l.branches.flatMap l.below =
      (earlier.flatMap l.below ++ above) ++ b :: (rest ++ later.flatMap l.below) := by
    simp [hsplit, hbelow]
  have habove : b ∉ above := by
    have hnodup : (above ++ b :: rest).Nodup := hbelow ▸ (l.climb_isPath c).nodup.tail
    exact fun hb => (List.nodup_append.1 hnodup).2.2 b hb b List.mem_cons_self rfl
  have hb : b ∉ earlier.flatMap l.below ++ above := by
    intro hmem
    rcases List.mem_append.1 hmem with hearlier | hmem
    · obtain ⟨x, hx, hbx⟩ := List.mem_flatMap.1 hearlier
      exact h.fresh x hx hbx
    · exact habove hmem
  rw [Step.Precedes, map_branch_steps, hflat, pair_sublist_eraseDups_iff hb, List.mem_append,
    List.mem_flatMap]

end Lineage

namespace Plan

theorem exists_tips_of_mem_steps {tips : List Tip} {s : Step} (hs : s ∈ (ofTips tips).steps) :
    ∃ t ∈ tips, ∃ u ∈ tips, t.branch = s.branch ∧ u.branch = s.onto := by
  obtain ⟨hbranch, honto⟩ := Lineage.mem_branches_of_parent? (Lineage.isParent_of_mem_steps hs)
  obtain ⟨t, ht, hbranch⟩ := Lineage.mem_branches_ofTips.1 hbranch
  obtain ⟨u, hu, honto⟩ := Lineage.mem_branches_ofTips.1 honto
  exact ⟨t, ht, u, hu, hbranch, honto⟩

/-- A plan has one step for each branch whose parent is another branch, and no other steps. -/
theorem count_steps_ofTips (tips : List Tip) :
    (∀ b p, (ofTips tips).steps.count ⟨b, p⟩ =
      if b ∈ (Lineage.ofTips tips).branches ∧ (Lineage.ofTips tips).parent? b = some p ∧ p ≠ b
      then 1 else 0) ∧
    ((ofTips tips).steps.map Step.branch).Nodup := by
  refine ⟨fun b p => ?_, (Lineage.ofTips tips).nodup_map_branch_steps⟩
  have hnodup : (ofTips tips).steps.Nodup :=
    (Lineage.ofTips tips).nodup_map_branch_steps.of_map
  have hmem : ⟨b, p⟩ ∈ (ofTips tips).steps ↔
      b ∈ (Lineage.ofTips tips).branches ∧ (Lineage.ofTips tips).parent? b = some p ∧ p ≠ b := by
    refine Lineage.mem_steps.trans ⟨fun ⟨hp, hne⟩ => ?_, And.right⟩
    exact ⟨(Lineage.mem_branches_of_parent? hp).1, hp, hne⟩
  split
  next h => exact List.count_eq_one_of_mem hnodup (hmem.2 h)
  next h => exact List.count_eq_zero_of_not_mem fun hs => h (hmem.1 hs)

end Plan

end Restack
