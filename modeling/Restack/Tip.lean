/-!
# Branch tips

A tip is one branch as it stood when it was read: its name, its head commit and the commit just
behind the head. A reading of a repository is a list of tips, in any order, in which a branch may
come more than once. What is derived from it goes through the tips in name order.
-/

namespace Restack

structure Tip where
  branch : String
  head : String
  -- the first parent of `head`
  base : String
deriving DecidableEq, Repr

namespace Tip

theorem map_branch_map {tip : String → Tip} {names : List String}
    (h : ∀ b ∈ names, (tip b).branch = b) : (names.map tip).map branch = names := by
  rw [List.map_map]
  exact (List.map_congr_left h).trans (List.map_id' names)

def before (a b : Tip) : Bool := decide (a.branch ≤ b.branch)

theorem before_trans (a b c : Tip) (h : before a b = true) (h' : before b c = true) :
    before a c = true := by
  simp only [before, decide_eq_true_eq] at *
  exact String.le_trans h h'

theorem before_total (a b : Tip) : (before a b || before b a) = true := by
  simpa [before] using String.le_total a.branch b.branch

/-- The tips in name order; those of one branch stay in the order in which they were read. -/
def inOrder (tips : List Tip) : List Tip := tips.mergeSort before

theorem inOrder_perm (tips : List Tip) : (inOrder tips).Perm tips :=
  List.mergeSort_perm tips before

@[simp] theorem mem_inOrder {tips : List Tip} {t : Tip} : t ∈ inOrder tips ↔ t ∈ tips :=
  (inOrder_perm tips).mem_iff

theorem pairwise_inOrder (tips : List Tip) :
    (inOrder tips).Pairwise fun a b => a.branch ≤ b.branch := by
  have h := List.pairwise_mergeSort before_trans before_total tips
  exact h.imp fun h => by simpa [before] using h

def lastHolder? (tips : List Tip) (commit : String) : Option String :=
  (tips.filter fun t => t.head = commit).getLast?.map Tip.branch

theorem exists_of_lastHolder? {tips : List Tip} {commit b : String}
    (h : lastHolder? tips commit = some b) : ∃ t ∈ tips, t.head = commit ∧ t.branch = b := by
  obtain ⟨t, ht, rfl⟩ := Option.map_eq_some_iff.1 h
  have hm := List.mem_filter.1 (List.mem_of_getLast? ht)
  exact ⟨t, hm.1, by simpa using hm.2, rfl⟩

end Tip

end Restack
