import Restack.Proofs.Agreement

/-!
# Who is the parent

Two tips decide about a parent, each by being the last in an order of its own. Of the tips of a
branch it is the one that was read last whose base counts, wherever the others of that branch
stand. Of all tips with this base as head it is the one of the greatest branch that gives the
parent, also if a later tip of the same branch has another head.
-/

namespace Restack

namespace Tip

variable {tips : List Tip} {b c : String} {t : Tip}

def IsLast (tips : List Tip) (t : Tip) : Prop :=
  ∃ earlier later, tips = earlier ++ t :: later ∧ ∀ u ∈ later, u.branch ≠ t.branch

theorem getLast?_ofBranch_eq_some_iff :
    (ofBranch tips b).getLast? = some t ↔ IsLast tips t ∧ t.branch = b := by
  rw [List.getLast?_eq_some_iff]
  constructor
  · intro h
    obtain ⟨front, hsplit⟩ := h
    obtain ⟨before, after, htips, -, hafter⟩ := List.filter_eq_append_iff.1 hsplit
    obtain ⟨between, later, rfl, -, hb, hlater⟩ := List.filter_eq_cons_iff.1 hafter
    have hb : t.branch = b := of_decide_eq_true hb
    refine ⟨⟨before ++ between, later, by simp [htips], fun u hu hub => ?_⟩, hb⟩
    exact List.filter_eq_nil_iff.1 hlater u hu (decide_eq_true (hub.trans hb))
  · intro h
    obtain ⟨⟨earlier, later, rfl, hlater⟩, rfl⟩ := h
    have hlast : ofBranch (t :: later) t.branch = [t] := by simpa [ofBranch] using hlater
    exact ⟨ofBranch earlier t.branch, by rw [ofBranch_append, hlast]⟩

theorem base?_eq_some_iff :
    base? tips b = some c ↔ ∃ t, IsLast tips t ∧ t.branch = b ∧ t.base = c := by
  simp only [base?, Option.map_eq_some_iff, getLast?_ofBranch_eq_some_iff, and_assoc]

theorem exists_isLast (hb : ∃ t ∈ tips, t.branch = b) : ∃ t, IsLast tips t ∧ t.branch = b := by
  obtain ⟨t, -, -, hbase⟩ := exists_base?_eq (List.mem_map.2 hb)
  obtain ⟨u, hlast, hbranch, -⟩ := base?_eq_some_iff.1 hbase
  exact ⟨u, hlast, hbranch⟩

end Tip

namespace Lineage

variable {tips : List Tip} {b p : String}

theorem isParent_iff_of_isLast {t : Tip} (ht : Tip.IsLast tips t) :
    (ofTips tips).IsParent p t.branch ↔
      IsGreatest {x | ∃ s ∈ tips, s.branch = x ∧ s.head = t.base} p := by
  have hbase : Tip.base? tips t.branch = some t.base := Tip.base?_eq_some_iff.2 ⟨t, ht, rfl, rfl⟩
  rw [isParent_ofTips_iff, hbase]
  simp only [Option.some.injEq, exists_eq_left', Tip.mem_heads]

theorem parent?_eq_none_iff_of_isLast {t : Tip} (ht : Tip.IsLast tips t) :
    (ofTips tips).parent? t.branch = none ↔ ∀ s ∈ tips, s.head ≠ t.base := by
  have hbase : Tip.base? tips t.branch = some t.base := Tip.base?_eq_some_iff.2 ⟨t, ht, rfl, rfl⟩
  rw [parent?_ofTips, hbase, Option.bind_some, Tip.lastHolder?_eq_none_iff]

theorem mem_branches_iff_isLast :
    b ∈ (ofTips tips).branches ↔ ∃ t, Tip.IsLast tips t ∧ t.branch = b := by
  rw [mem_branches_ofTips]
  constructor
  · exact Tip.exists_isLast
  · intro h
    obtain ⟨t, ⟨earlier, later, rfl, -⟩, hb⟩ := h
    exact ⟨t, by simp, hb⟩

/-- The branches are the names of the tips, each once and in order. The parent of a branch is the
greatest name among all tips that have the base of its last tip as head. It has none if there is no
such tip, and neither has a name without tips. -/
theorem parent?_eq_greatest_holder (tips : List Tip) :
    let l := ofTips tips
    (l.branches.Pairwise (· < ·) ∧ ∀ b, b ∈ l.branches ↔ ∃ t ∈ tips, t.branch = b) ∧
    (∀ b p, l.parent? b = some p ↔ ∃ t, Tip.IsLast tips t ∧ t.branch = b ∧
      IsGreatest {x | ∃ s ∈ tips, s.branch = x ∧ s.head = t.base} p) ∧
    (∀ b, l.parent? b = none ↔ (∀ t ∈ tips, t.branch ≠ b) ∨
      ∃ t, Tip.IsLast tips t ∧ t.branch = b ∧ ∀ s ∈ tips, s.head ≠ t.base) ∧
    ∀ b p, l.parent? b = some p → b ∈ l.branches ∧ p ∈ l.branches := by
  intro l
  refine ⟨⟨l.increasing, fun b => mem_branches_ofTips⟩, fun b p => ?_, fun b => ?_,
    fun b p => mem_branches_of_parent?⟩
  · constructor
    · intro h
      obtain ⟨t, ht, rfl⟩ := mem_branches_iff_isLast.1 (mem_branches_of_parent? h).1
      exact ⟨t, ht, rfl, (isParent_iff_of_isLast ht).1 h⟩
    · intro h
      obtain ⟨t, ht, rfl, hgreatest⟩ := h
      exact (isParent_iff_of_isLast ht).2 hgreatest
  · by_cases hb : b ∈ l.branches
    · obtain ⟨t, ht, rfl⟩ := mem_branches_iff_isLast.1 hb
      constructor
      · intro h
        exact .inr ⟨t, ht, rfl, (parent?_eq_none_iff_of_isLast ht).1 h⟩
      · intro h
        rcases h with hnone | ⟨u, hu, hbranch, hheads⟩
        · obtain ⟨s, hs, hsb⟩ := mem_branches_ofTips.1 hb
          exact absurd hsb (hnone s hs)
        · exact hbranch ▸ (parent?_eq_none_iff_of_isLast hu).2 hheads
    · have hunnamed : ∀ t ∈ tips, t.branch ≠ b := fun t ht htb =>
        hb (mem_branches_ofTips.2 ⟨t, ht, htb⟩)
      have hnone : l.parent? b = none := Option.eq_none_iff_forall_ne_some.2 fun p hp =>
        hb (mem_branches_of_parent? hp).1
      exact iff_of_true hnone (.inl hunnamed)

example : (ofTips [⟨"b", "x", "r"⟩, ⟨"c", "k", "z"⟩, ⟨"b", "z", "q"⟩, ⟨"c", "k", "x"⟩,
    ⟨"a", "x", "y"⟩]).parent? "c" = some "b" := by
  cbv

end Lineage

end Restack
