import Restack.Event
import Restack.Proofs.Agreement

/-!
# Lineage and commits

Parent links join branches, while it is commits that stand on one another. If every branch has one
tip, and commits have ranks that fall from each head to its base, the two agree: the path of a
branch is a stack of tips, each made on the head of the one before it, and the first of them on the
head of no branch. So no climb meets a loop.
-/

namespace Restack

namespace Lineage

section Rank

variable {l : Lineage} {rank : String → ℕ}

theorem pairwise_climb_of_rank (h : ∀ p c, l.IsParent p c → rank p < rank c) (b : String) :
    (l.climb b).path.Pairwise fun x y => rank x < rank y := by
  have hranks : ((l.climb b).path.map rank).IsChain (· < ·) :=
    (List.isChain_map rank).2 ((l.climb_isPath b).linked.imp h)
  exact List.pairwise_map.1 hranks.pairwise

theorem parent?_root_eq_none_of_rank (h : ∀ p c, l.IsParent p c → rank p < rank c) {b r : String}
    (hr : (l.climb b).path.head? = some r) : l.parent? r = none := by
  rw [Option.eq_none_iff_forall_ne_some]
  intro p hp
  have hmem : p ∈ (l.climb b).path := (l.climb_isPath b).rooted r hr p hp
  have hrising := pairwise_climb_of_rank h b
  obtain ⟨below, hsplit⟩ := List.head?_eq_some_iff.1 hr
  rw [hsplit] at hmem hrising
  rcases List.mem_cons.1 hmem with rfl | hbelow
  · exact (h p p hp).false
  · exact (h p r hp).asymm ((List.pairwise_cons.1 hrising).1 p hbelow)

end Rank

variable {tips : List Tip} {rank : String → ℕ}

theorem IsParent.exists_tips {p b : String} (h : (ofTips tips).IsParent p b) :
    ∃ s ∈ tips, ∃ t ∈ tips, s.branch = p ∧ t.branch = b ∧ t.base = s.head := by
  obtain ⟨t, ht, hb, hholder⟩ := lastHolder?_of_mem_linksOf (parent?_eq_some_iff.1 h)
  obtain ⟨s, hs, hhead, hp⟩ := Tip.exists_of_lastHolder? hholder
  exact ⟨s, Tip.mem_inOrder.1 hs, t, Tip.mem_inOrder.1 ht, hp, hb, hhead.symm⟩

theorem base_eq_head_of_isParent (hnames : (tips.map Tip.branch).Nodup) {s t : Tip} (hs : s ∈ tips)
    (ht : t ∈ tips) (h : (ofTips tips).IsParent s.branch t.branch) : t.base = s.head := by
  obtain ⟨s', hs', t', ht', hsb, htb, hbase⟩ := h.exists_tips
  rwa [List.inj_on_of_nodup_map hnames hs' hs hsb, List.inj_on_of_nodup_map hnames ht' ht htb]
    at hbase

theorem head_ne_base_of_parentless (hnames : (tips.map Tip.branch).Nodup) {s t : Tip}
    (hs : s ∈ tips) (ht : t ∈ tips) (h : (ofTips tips).parent? t.branch = none) :
    s.head ≠ t.base := by
  intro hhead
  have hlast : Tip.base? tips t.branch = some t.base := Tip.base?_of_mem hnames ht
  rw [parent?_ofTips, hlast, Option.bind_some, Tip.lastHolder?_eq_none_iff] at h
  exact h s hs hhead

/-- The tips of a path, by their commits. -/
structure IsStack (tips : List Tip) (rank : String → ℕ) (stack : List Tip) : Prop where
  subset : stack ⊆ tips
  linked : stack.IsChain fun s t => t.base = s.head
  rising : stack.Pairwise fun s t => rank s.head < rank t.head
  rooted : ∃ root, stack.head? = some root ∧ (ofTips tips).parent? root.branch = none ∧
    ∀ t ∈ tips, t.head ≠ root.base

theorem exists_tip (tips : List Tip) : ∃ tip : String → Tip,
    ∀ b ∈ (ofTips tips).branches, tip b ∈ tips ∧ (tip b).branch = b := by
  have : Nonempty Tip := ⟨⟨"", "", ""⟩⟩
  have htips : ∀ b ∈ (ofTips tips).branches, ∃ t, t ∈ tips ∧ t.branch = b := fun b hb =>
    mem_branches_ofTips.1 hb
  choose! tip htip using htips
  exact ⟨tip, htip⟩

theorem exists_isStack (hnames : (tips.map Tip.branch).Nodup)
    (hrank : ∀ t ∈ tips, rank t.base < rank t.head) {b : String} (hb : b ∈ (ofTips tips).branches) :
    ∃ stack, stack.map Tip.branch = ((ofTips tips).climb b).path ∧ IsStack tips rank stack := by
  obtain ⟨tip, htip⟩ := exists_tip tips
  let height : String → ℕ := fun x => rank (tip x).head
  have hpath := (ofTips tips).climb_isPath b
  have hsub := climb_subset_branches hb
  have hlink : ∀ x y, (ofTips tips).IsParent x y → (tip y).base = (tip x).head := by
    intro x y hxy
    obtain ⟨hy, hx⟩ := mem_branches_of_parent? hxy
    refine base_eq_head_of_isParent hnames (htip x hx).1 (htip y hy).1 ?_
    rwa [(htip x hx).2, (htip y hy).2]
  have hrises : ∀ x y, (ofTips tips).IsParent x y → height x < height y := by
    intro x y hxy
    have hy := (mem_branches_of_parent? hxy).1
    have hlt := hrank (tip y) (htip y hy).1
    rwa [hlink x y hxy] at hlt
  refine ⟨((ofTips tips).climb b).path.map tip, ?_, ?_, ?_, ?_, ?_⟩
  · exact Tip.map_branch_map fun x hx => (htip x (hsub hx)).2
  · intro t ht
    obtain ⟨x, hx, rfl⟩ := List.mem_map.1 ht
    exact (htip x (hsub hx)).1
  · exact (List.isChain_map tip).2 (hpath.linked.imp hlink)
  · exact List.pairwise_map.2 (pairwise_climb_of_rank hrises b)
  · obtain ⟨r, hcons⟩ := (ofTips tips).climb_eq_cons b
    have hr : ((ofTips tips).climb b).path.head? = some r := by rw [hcons, List.head?_cons]
    obtain ⟨hmem, hbranch⟩ := htip r (hsub (List.mem_of_head? hr))
    have hnone : (ofTips tips).parent? (tip r).branch = none := by
      rw [hbranch]
      exact parent?_root_eq_none_of_rank hrises hr
    refine ⟨tip r, by rw [List.head?_map, hr, Option.map_some], hnone, fun t ht => ?_⟩
    exact head_ne_base_of_parentless hnames ht hmem hnone

theorem looped_eq_false_of_isStack {b : String} {stack : List Tip}
    (hpath : stack.map Tip.branch = ((ofTips tips).climb b).path) (h : IsStack tips rank stack) :
    ((ofTips tips).climb b).looped = false := by
  rw [Bool.eq_false_iff, Ne, climb_looped_iff, ← hpath, List.head?_map]
  intro hloop
  obtain ⟨r, p, hr, hp⟩ := hloop
  obtain ⟨root, hroot, hnone, -⟩ := h.rooted
  rw [hroot, Option.map_some, Option.some.injEq] at hr
  rw [← hr, IsParent, hnone] at hp
  cases hp

end Lineage

namespace Plan

theorem loopFound_mem_derivation_iff {tips : List Tip} {b r : String} :
    .loopFound b r ∈ derivation tips ↔ b ∈ (Lineage.ofTips tips).branches ∧
      ((Lineage.ofTips tips).climb b).looped ∧
      ((Lineage.ofTips tips).climb b).path.head? = some r := by
  simp only [derivation, Tip.resolutions, List.mem_append, List.mem_map, List.mem_filterMap,
    Lineage.loopEvent?]
  constructor
  · intro h
    rcases h with ⟨t, -, ht⟩ | ⟨x, hx, hevent⟩
    · cases ht
    · split at hevent
      next hlooped =>
        obtain ⟨root, hroot, he⟩ := Option.map_eq_some_iff.1 hevent
        obtain ⟨rfl, rfl⟩ := Event.loopFound.inj he
        exact ⟨hx, hlooped, hroot⟩
      next => cases hevent
  · intro h
    obtain ⟨hb, hlooped, hroot⟩ := h
    exact .inr ⟨b, hb, by rw [if_pos hlooped, hroot]; rfl⟩

/-- Where every branch has one tip and commits have ranks that fall from head to base, the paths
and the steps follow the commits: a child was made on its parent's very head. -/
theorem follows_commits (tips : List Tip) (hnames : (tips.map Tip.branch).Nodup)
    (rank : String → ℕ) (hrank : ∀ t ∈ tips, rank t.base < rank t.head) :
    let l := Lineage.ofTips tips
    (∀ b ∈ l.branches, ∃ stack : List Tip, stack.map Tip.branch = (l.climb b).path ∧
      Lineage.IsStack tips rank stack) ∧
    (∀ b r, .loopFound b r ∉ derivation tips) ∧
    ∀ s ∈ (ofTips tips).steps, ∃ t ∈ tips, ∃ u ∈ tips,
      t.branch = s.branch ∧ u.branch = s.onto ∧ t.base = u.head := by
  intro l
  have hstack : ∀ b ∈ l.branches, ∃ stack : List Tip, stack.map Tip.branch = (l.climb b).path ∧
      Lineage.IsStack tips rank stack := fun b hb => Lineage.exists_isStack hnames hrank hb
  refine ⟨hstack, fun b r hmem => ?_, fun s hs => ?_⟩
  · obtain ⟨hb, hlooped, -⟩ := loopFound_mem_derivation_iff.1 hmem
    obtain ⟨stack, hpath, h⟩ := hstack b hb
    rw [Lineage.looped_eq_false_of_isStack hpath h] at hlooped
    cases hlooped
  · obtain ⟨u, hu, t, ht, honto, hbranch, hbase⟩ := (Lineage.isParent_of_mem_steps hs).exists_tips
    exact ⟨t, ht, u, hu, hbranch, honto, hbase⟩

def mirrored : List Tip :=
  [⟨"feature", "c4", "c2"⟩, ⟨"main", "c2", "c1"⟩, ⟨"mirror", "c2", "c1"⟩, ⟨"top", "c5", "c4"⟩]

theorem links_mirrored : (Lineage.ofTips mirrored).links =
    [("feature", some "mirror"), ("main", none), ("mirror", none), ("top", some "feature")] := by
  rw [Lineage.links_ofTips_of_pairwise (by decide)]
  decide

theorem follows_commits_mirrored :
    let rank : String → ℕ := ["c1", "c2", "c4", "c5"].idxOf
    (mirrored.map Tip.branch).Nodup ∧ (∀ t ∈ mirrored, rank t.base < rank t.head) ∧
    (∃ stack : List Tip, stack.map Tip.branch = ["mirror", "feature", "top"] ∧
      Lineage.IsStack mirrored rank stack) ∧
    (∀ b r, .loopFound b r ∉ derivation mirrored) ∧
    ⟨"feature", "mirror"⟩ ∈ (ofTips mirrored).steps ∧
    ∃ t ∈ mirrored, ∃ u ∈ mirrored, t.branch = "feature" ∧ u.branch = "mirror" ∧
      t.base = u.head := by
  intro rank
  have hnames : (mirrored.map Tip.branch).Nodup := by decide
  have hrank : ∀ t ∈ mirrored, rank t.base < rank t.head := by decide
  obtain ⟨hstack, hnoted, hsteps⟩ := follows_commits mirrored hnames rank hrank
  have hpath : ((Lineage.ofTips mirrored).climb "top").path = ["mirror", "feature", "top"] := by
    simp [Lineage.climb, links_mirrored, take?, Climb.along]
  have hstep : ⟨"feature", "mirror"⟩ ∈ (ofTips mirrored).steps := by
    refine Lineage.mem_steps.2 ⟨Lineage.parent?_eq_some_iff.2 ?_, by decide⟩
    simp [links_mirrored]
  obtain ⟨stack, hbranches, h⟩ := hstack "top" (by simp [Lineage.branches, links_mirrored])
  exact ⟨hnames, hrank, ⟨stack, hbranches.trans hpath, h⟩, hnoted, hstep, hsteps _ hstep⟩

end Plan

end Restack
