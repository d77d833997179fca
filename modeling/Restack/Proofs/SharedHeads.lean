import Restack.Proofs.Agreement

/-!
# Reports of shared heads

Of the branches that share a head only the last is found as a parent. Each of the others is reported
with the next one behind it, so the reports about one commit make a chain: the branch that one report
keeps is the branch that the next one shadows. The branch at the end of the chain is the parent of
all that were made on the commit, and it is the only kept one that is not shadowed in turn.
-/

namespace Restack

namespace SharedHead

variable {tips : List Tip} {r : SharedHead} {c : String}

theorem getLast?_eq_some_iff_isGreatest {names : List String} (h : names.Pairwise (· < ·))
    {x : String} : names.getLast? = some x ↔ IsGreatest {y | y ∈ names} x := by
  have hgreatest : ∀ {x}, names.getLast? = some x → IsGreatest {y | y ∈ names} x := by
    intro x hx
    obtain ⟨before, rfl⟩ := List.getLast?_eq_some_iff.1 hx
    refine ⟨by simp, fun y hy => ?_⟩
    rcases List.mem_append.1 hy with hy | hy
    · exact ((List.pairwise_append.1 h).2.2 y hy x List.mem_cons_self).le
    · exact (List.mem_singleton.1 hy).le
  refine ⟨hgreatest, fun hx => ?_⟩
  cases hlast : names.getLast? with
  | none =>
    rw [List.getLast?_eq_none_iff.1 hlast] at hx
    exact absurd hx.1 List.not_mem_nil
  | some y => rw [(hgreatest hlast).unique hx]

theorem mem_iff_of_increasing {before after : List String} {b x : String}
    (h : (before ++ b :: after).Pairwise (· < ·)) :
    x < b ∧ x ∈ before ++ b :: after ↔ x ∈ before := by
  obtain ⟨-, hafter, hlt⟩ := List.pairwise_append.1 h
  constructor
  · intro hx
    obtain ⟨hxb, hmem⟩ := hx
    rcases List.mem_append.1 hmem with hmem | hmem
    · exact hmem
    · rcases List.mem_cons.1 hmem with he | hmem
      · exact absurd hxb he.not_lt
      · exact absurd hxb ((List.pairwise_cons.1 hafter).1 x hmem).asymm
  · intro hx
    exact ⟨hlt x hx b List.mem_cons_self, List.mem_append_left _ hx⟩

theorem mem_branches_of_mem_heads {x : String} (h : c ∈ Tip.heads tips x) :
    x ∈ (Lineage.ofTips tips).branches := by
  obtain ⟨t, ht, hx, -⟩ := Tip.mem_heads.1 h
  exact Lineage.mem_branches_ofTips.2 ⟨t, ht, hx⟩

theorem shadowed?_eq_some_iff {b x : String} :
    shadowed? tips (Lineage.ofTips tips).branches b c = some x ↔
      IsGreatest {y | y < b ∧ c ∈ Tip.heads tips y} x := by
  have hmem : {y | y ∈ (Lineage.ofTips tips).branches.filter
      fun y => y < b && c ∈ Tip.heads tips y} = {y | y < b ∧ c ∈ Tip.heads tips y} := by
    ext y
    simp only [List.mem_filter, Bool.and_eq_true, decide_eq_true_eq]
    exact and_iff_right_of_imp fun hy => mem_branches_of_mem_heads hy.2
  have hincreasing : ((Lineage.ofTips tips).branches.filter
      fun y => y < b && c ∈ Tip.heads tips y).Pairwise (· < ·) :=
    (Lineage.ofTips tips).increasing.filter _
  rw [shadowed?, getLast?_eq_some_iff_isGreatest hincreasing, hmem]

/-- What is reported: of each branch every head that a branch before it has, with the last such. -/
theorem mem_ofTips_iff : r ∈ ofTips tips ↔ r.head ∈ Tip.heads tips r.kept ∧
    IsGreatest {y | y < r.kept ∧ r.head ∈ Tip.heads tips y} r.shadowed := by
  obtain ⟨head, kept, shadowed⟩ := r
  rw [ofTips_eq_flatMap]
  simp only [List.mem_flatMap, List.mem_filterMap, Option.map_eq_some_iff, shadowed?_eq_some_iff]
  constructor
  · intro h
    obtain ⟨b, -, c, hc, x, hx, he⟩ := h
    obtain ⟨rfl, rfl, rfl⟩ := SharedHead.mk.inj he
    exact ⟨hc, hx⟩
  · intro h
    exact ⟨kept, mem_branches_of_mem_heads h.1, head, h.1, shadowed, h.2, rfl⟩

theorem exists_tips_of_mem_ofTips (hr : r ∈ ofTips tips) :
    ∃ t ∈ tips, ∃ u ∈ tips, t.branch = r.kept ∧ u.branch = r.shadowed := by
  obtain ⟨hkept, ⟨-, hshadowed⟩, -⟩ := mem_ofTips_iff.1 hr
  obtain ⟨t, ht, hkept, -⟩ := Tip.mem_heads.1 hkept
  obtain ⟨u, hu, hshadowed, -⟩ := Tip.mem_heads.1 hshadowed
  exact ⟨t, ht, u, hu, hkept, hshadowed⟩

theorem exists_of_lt {x y : String} (hx : c ∈ Tip.heads tips x) (hy : c ∈ Tip.heads tips y)
    (hlt : x < y) : ∃ z, ⟨c, y, z⟩ ∈ ofTips tips := by
  cases hz : shadowed? tips (Lineage.ofTips tips).branches y c with
  | none =>
    have hnone := List.filter_eq_nil_iff.1 (List.getLast?_eq_none_iff.1 hz) x
      (mem_branches_of_mem_heads hx)
    simp [hlt, hx] at hnone
  | some z => exact ⟨z, mem_ofTips_iff.2 ⟨hy, shadowed?_eq_some_iff.1 hz⟩⟩

theorem exists_shadowing {x y : String} (hx : c ∈ Tip.heads tips x) (hy : c ∈ Tip.heads tips y)
    (hlt : x < y) : ∃ z, ⟨c, z, x⟩ ∈ ofTips tips := by
  obtain ⟨before, z, after, hsplit, hz, hbefore⟩ :=
    exists_first (P := fun z => x < z ∧ c ∈ Tip.heads tips z)
      ⟨y, mem_branches_of_mem_heads hy, hlt, hy⟩
  refine ⟨z, mem_ofTips_iff.2 ⟨hz.2, ⟨hz.1, hx⟩, fun w hw => ?_⟩⟩
  have hincreasing : (before ++ z :: after).Pairwise (· < ·) :=
    hsplit ▸ (Lineage.ofTips tips).increasing
  have hmem : w ∈ before :=
    (mem_iff_of_increasing hincreasing).1 ⟨hw.1, hsplit ▸ mem_branches_of_mem_heads hw.2⟩
  exact not_lt.1 fun hxw => hbefore w hmem ⟨hxw, hw.2⟩

/-- The branch that a report keeps is found through the commit unless another report about the
commit shadows it. The shadowed one is never found, and the one that is found is always kept by
some report. -/
theorem isParent_kept_iff (tips : List Tip) (r : SharedHead) (hr : r ∈ ofTips tips) (b : String)
    (hb : Tip.base? tips b = some r.head) :
    let l := Lineage.ofTips tips
    (l.parent? b = some r.kept ↔
      ∀ r' ∈ ofTips tips, r'.head = r.head → r'.shadowed ≠ r.kept) ∧
    l.parent? b ≠ some r.shadowed ∧
    ∃ r' ∈ ofTips tips, r'.head = r.head ∧ l.parent? b = some r'.kept := by
  intro l
  obtain ⟨hkept, ⟨hlt, hshadowed⟩, -⟩ := mem_ofTips_iff.1 hr
  have hparent : ∀ p, l.parent? b = some p ↔ IsGreatest {x | r.head ∈ Tip.heads tips x} p := by
    intro p
    change l.IsParent p b ↔ _
    rw [Lineage.isParent_ofTips_iff, hb]
    simp
  have hfound : ∃ p, l.parent? b = some p := by
    obtain ⟨t, ht, -, hhead⟩ := Tip.mem_heads.1 hkept
    rw [Lineage.parent?_ofTips, hb, Option.bind_some]
    exact Option.ne_none_iff_exists'.1 fun hnone => Tip.lastHolder?_eq_none_iff.1 hnone t ht hhead
  obtain ⟨p, hp⟩ := hfound
  obtain ⟨hhead, hlast⟩ := (hparent p).1 hp
  refine ⟨⟨fun h r' hr' he hagain => ?_, fun hnot => ?_⟩, fun h => ?_, ?_⟩
  · obtain ⟨hkept', ⟨hlt', -⟩, -⟩ := mem_ofTips_iff.1 hr'
    have hle : r'.kept ≤ r.kept := ((hparent r.kept).1 h).2 (he ▸ hkept')
    exact hle.not_gt (hagain ▸ hlt')
  · rcases (hlast hkept).eq_or_lt with he | hbehind
    · rw [he, hp]
    · obtain ⟨z, hz⟩ := exists_shadowing hkept hhead hbehind
      exact absurd rfl (hnot _ hz rfl)
  · exact (((hparent r.shadowed).1 h).2 hkept).not_gt hlt
  · obtain ⟨z, hz⟩ := exists_of_lt hshadowed hhead (hlt.trans_le (hlast hkept))
    exact ⟨_, hz, rfl, hp⟩

def trio : List Tip := [⟨"a", "h", "g"⟩, ⟨"b", "h", "g"⟩, ⟨"c", "h", "g"⟩, ⟨"d", "k", "h"⟩]

theorem ofTips_trio : ofTips trio = [⟨"h", "b", "a"⟩, ⟨"h", "c", "b"⟩] := by
  have horder : Tip.inOrder trio = trio := List.mergeSort_of_pairwise (by decide)
  rw [ofTips, horder]
  decide

theorem parent?_trio : (Lineage.ofTips trio).parent? "d" = some "c" := by
  have hlinks : (Lineage.ofTips trio).links =
      [("a", none), ("b", none), ("c", none), ("d", some "c")] := by
    rw [Lineage.links_ofTips_of_pairwise (by decide)]
    decide
  simp [Lineage.parent?_eq_some_iff, hlinks]

theorem isParent_kept_trio : Tip.base? trio "d" = some "h" ∧ ⟨"h", "c", "b"⟩ ∈ ofTips trio ∧
    (∀ r' ∈ ofTips trio, r'.head = "h" → r'.shadowed ≠ "c") ∧
    (Lineage.ofTips trio).parent? "d" = some "c" := by
  have hbase : Tip.base? trio "d" = some "h" := by decide
  have hmem : ⟨"h", "c", "b"⟩ ∈ ofTips trio := by simp [ofTips_trio]
  have hend : ∀ r' ∈ ofTips trio, r'.head = "h" → r'.shadowed ≠ "c" := by
    rw [ofTips_trio]
    decide
  obtain ⟨hiff, -, -⟩ := isParent_kept_iff trio ⟨"h", "c", "b"⟩ hmem "d" hbase
  exact ⟨hbase, hmem, hend, hiff.2 hend⟩

/-- A branch can be kept by one report and yet be hidden behind another. -/
theorem kept_ne_parent_trio : ∃ r ∈ ofTips trio, ∃ b, Tip.base? trio b = some r.head ∧
    (Lineage.ofTips trio).parent? b ≠ some r.kept := by
  refine ⟨⟨"h", "b", "a"⟩, by simp [ofTips_trio], "d", by decide, ?_⟩
  rw [parent?_trio]
  decide

end SharedHead

end Restack
