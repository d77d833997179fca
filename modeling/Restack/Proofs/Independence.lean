import Mathlib.Data.List.Sort
import Restack.Proofs.SharedHeads

/-!
# Independent stacks

Two readings are apart if they share no branch and no branch of one was made on a head of the other.
However their tips are mixed, no parent link joins them, so each path stays on its side, and the plan
of the mixture has the steps of each reading as if the other were not there. If they share no head
either, the same holds of the reports of shared heads.
-/

namespace Restack

inductive Interleaving {α : Type*} : List α → List α → List α → Prop
  | nil : Interleaving [] [] []
  | left {x : α} {xs ys zs : List α} :
      Interleaving xs ys zs → Interleaving (x :: xs) ys (x :: zs)
  | right {y : α} {xs ys zs : List α} :
      Interleaving xs ys zs → Interleaving xs (y :: ys) (y :: zs)

namespace Interleaving

variable {α : Type*} {xs ys zs : List α}

theorem swap (h : Interleaving xs ys zs) : Interleaving ys xs zs := by
  induction h with
  | nil => exact .nil
  | left _ ih => exact ih.right
  | right _ ih => exact ih.left

theorem mem_iff {z : α} (h : Interleaving xs ys zs) : z ∈ zs ↔ z ∈ xs ∨ z ∈ ys := by
  induction h with
  | nil => simp
  | left _ ih => rw [List.mem_cons, List.mem_cons, ih, or_assoc]
  | right _ ih => rw [List.mem_cons, List.mem_cons, ih, or_left_comm]

theorem filter_eq_filter_left {p : α → Bool} (h : Interleaving xs ys zs)
    (hys : ∀ y ∈ ys, p y = false) : zs.filter p = xs.filter p := by
  induction h with
  | nil => rfl
  | left _ ih => rw [List.filter_cons, List.filter_cons, ih hys]
  | right _ ih =>
    obtain ⟨hy, hys⟩ := List.forall_mem_cons.1 hys
    rw [List.filter_cons_of_neg (by simp [hy]), ih hys]

end Interleaving

theorem filter_flatMap_eq {α β : Type*} {xs : List α} {f g : α → List β} {p : α → Bool}
    {q : β → Bool} (hkept : ∀ x ∈ xs, p x → (f x).filter q = g x)
    (hleft : ∀ x ∈ xs, p x = false → (f x).filter q = []) :
    (xs.flatMap f).filter q = (xs.filter p).flatMap g := by
  induction xs with
  | nil => rfl
  | cons x xs ih =>
    rw [List.forall_mem_cons] at hkept hleft
    rw [List.flatMap_cons, List.filter_append, ih hkept.2 hleft.2, List.filter_cons]
    by_cases hx : p x
    · rw [if_pos hx, hkept.1 hx, List.flatMap_cons]
    · rw [if_neg hx, hleft.1 (by simpa using hx), List.nil_append]

theorem Step.filter_firsts (p : String → Bool) : ∀ steps : List Step,
    (firsts steps).filter (fun s => p s.branch) = firsts (steps.filter fun s => p s.branch)
  | [] => rfl
  | s :: rest => by
    rw [firsts_cons, List.filter_cons, List.filter_cons, filter_firsts p]
    split
    next hs => rw [firsts_cons, List.filter_filter, List.filter_filter]; simp only [Bool.and_comm]
    next hs =>
      -- what is left out behind a dropped step has its branch, so it would be dropped itself
      rw [List.filter_filter]
      congr 1
      apply List.filter_congr
      intro t _
      by_cases ht : t.branch = s.branch
      · simp [ht, hs]
      · simp [ht]
termination_by steps => steps.length
decreasing_by exact Nat.lt_succ_of_le (List.length_filter_le _ _)

namespace Lineage

variable {part l : Lineage} {names : List String}

/-- The branches of the lineage with these names, which no parent link joins to the others. -/
structure IsPart (names : List String) (part l : Lineage) : Prop where
  branches_eq : part.branches = l.branches.filter (· ∈ names)
  parent?_eq : ∀ b ∈ names, part.parent? b = l.parent? b
  closed : ∀ p b, l.IsParent p b → (p ∈ names ↔ b ∈ names)

namespace IsPart

theorem mem_names (h : IsPart names part l) {b : String} (hb : b ∈ part.branches) : b ∈ names := by
  rw [h.branches_eq, List.mem_filter] at hb
  simpa using hb.2

theorem path_climb_eq (h : IsPart names part l) {b : String} (hb : b ∈ names) :
    (l.climb b).path = (part.climb b).path := by
  -- the path in the part is linked in the whole as well, and a branch has one path only
  have hpath := part.climb_isPath b
  have hlink : ∀ p c, part.IsParent p c → l.IsParent p c := fun p c hpc =>
    (h.parent?_eq c (h.mem_names (mem_branches_of_parent? hpc).1)).symm.trans hpc
  refine climb_eq_of_isPath ⟨hpath.nodup, hpath.linked.imp hlink, ?_⟩ (part.climb_getLast? b)
  intro r hr p hp
  have hnamed : r ∈ names := climb_induction
    (fun _ _ hpc _ => h.mem_names (mem_branches_of_parent? hpc).2) hb (List.mem_of_head? hr)
  exact hpath.rooted r hr p ((h.parent?_eq r hnamed).trans hp)

theorem mem_climb_iff (h : IsPart names part l) {b x : String} (hx : x ∈ (l.climb b).path) :
    x ∈ names ↔ b ∈ names :=
  climb_induction (P := fun x => x ∈ names ↔ b ∈ names)
    (fun p c hpc hc => (h.closed p c hpc).trans hc) Iff.rfl hx

theorem filter_steps (h : IsPart names part l) :
    l.steps.filter (fun s => s.branch ∈ names) = part.steps := by
  have hbranch : ∀ b, ∀ s ∈ Step.alongPath (l.climb b).path, s.branch ∈ names ↔ b ∈ names := by
    intro b s hs
    have hmem : s.branch ∈ (Step.alongPath (l.climb b).path).map Step.branch :=
      List.mem_map_of_mem hs
    rw [Step.map_branch_alongPath] at hmem
    exact h.mem_climb_iff (List.mem_of_mem_tail hmem)
  rw [steps, steps, Step.filter_firsts fun b => b ∈ names, h.branches_eq]
  congr 1
  apply filter_flatMap_eq
  · intro b _ hb
    have hb : b ∈ names := of_decide_eq_true hb
    rw [← h.path_climb_eq hb, List.filter_eq_self]
    intro s hs
    exact decide_eq_true ((hbranch b s hs).2 hb)
  · intro b _ hb
    rw [List.filter_eq_nil_iff]
    intro s hs hnamed
    exact of_decide_eq_false hb ((hbranch b s hs).1 (of_decide_eq_true hnamed))

end IsPart

end Lineage

namespace Tip

variable {left right tips : List Tip} {b c : String}

structure Apart (left right : List Tip) : Prop where
  branch_ne : ∀ s ∈ left, ∀ t ∈ right, s.branch ≠ t.branch
  base_ne_head : ∀ s ∈ left, ∀ t ∈ right, s.base ≠ t.head
  head_ne_base : ∀ s ∈ left, ∀ t ∈ right, s.head ≠ t.base

namespace Apart

theorem symm (h : Apart left right) : Apart right left where
  branch_ne t ht s hs := (h.branch_ne s hs t ht).symm
  base_ne_head t ht s hs := (h.head_ne_base s hs t ht).symm
  head_ne_base t ht s hs := (h.base_ne_head s hs t ht).symm

theorem ofBranch_eq (h : Apart left right) (hmix : Interleaving left right tips)
    (hb : b ∈ left.map branch) : ofBranch tips b = ofBranch left b := by
  obtain ⟨s, hs, rfl⟩ := List.mem_map.1 hb
  exact hmix.filter_eq_filter_left fun t ht => by simp [(h.branch_ne s hs t ht).symm]

theorem heads_eq (h : Apart left right) (hmix : Interleaving left right tips)
    (hb : b ∈ left.map branch) : heads tips b = heads left b := by
  rw [heads, heads, h.ofBranch_eq hmix hb]

theorem base?_eq (h : Apart left right) (hmix : Interleaving left right tips)
    (hb : b ∈ left.map branch) : base? tips b = base? left b := by
  rw [base?, base?, h.ofBranch_eq hmix hb]

end Apart

theorem mem_heads_iff_of_interleaving (hmix : Interleaving left right tips)
    (hright : ∀ t ∈ right, t.head ≠ c) : c ∈ heads tips b ↔ c ∈ heads left b := by
  rw [mem_heads, mem_heads]
  constructor
  · intro hc
    obtain ⟨t, ht, hb, hhead⟩ := hc
    rcases hmix.mem_iff.1 ht with hs | ht
    · exact ⟨t, hs, hb, hhead⟩
    · exact absurd hhead (hright t ht)
  · intro hc
    obtain ⟨s, hs, hb, hhead⟩ := hc
    exact ⟨s, hmix.mem_iff.2 (Or.inl hs), hb, hhead⟩

end Tip

namespace Lineage

open Tip (Apart)

variable {left right tips : List Tip}

theorem mem_branches_ofTips_iff {b : String} :
    b ∈ (ofTips tips).branches ↔ b ∈ tips.map Tip.branch :=
  mem_branches_ofTips.trans List.mem_map.symm

theorem parent?_ofTips_of_apart (h : Apart left right) (hmix : Interleaving left right tips)
    {b : String} (hb : b ∈ left.map Tip.branch) : (ofTips left).parent? b = (ofTips tips).parent? b := by
  obtain ⟨s, hs, -, hbase⟩ := Tip.exists_base?_eq hb
  have hright : ∀ t ∈ right, t.head ≠ s.base := fun t ht => (h.base_ne_head s hs t ht).symm
  apply Option.ext
  intro p
  change (ofTips left).IsParent p b ↔ (ofTips tips).IsParent p b
  rw [isParent_ofTips_iff, isParent_ofTips_iff, h.base?_eq hmix hb, hbase]
  simp only [Option.some.injEq, exists_eq_left', Tip.mem_heads_iff_of_interleaving hmix hright]

theorem mem_map_branch_of_isParent (h : Apart left right) (hmix : Interleaving left right tips)
    {p b : String} (hp : (ofTips tips).IsParent p b) (hb : b ∈ left.map Tip.branch) :
    p ∈ left.map Tip.branch := by
  have hleft : (ofTips left).IsParent p b := (parent?_ofTips_of_apart h hmix hb).trans hp
  exact mem_branches_ofTips_iff.1 (mem_branches_of_parent? hleft).2

theorem branches_ofTips_of_interleaving (hmix : Interleaving left right tips) :
    (ofTips left).branches = (ofTips tips).branches.filter (· ∈ left.map Tip.branch) := by
  have hincreasing := (ofTips tips).increasing.filter fun b => decide (b ∈ left.map Tip.branch)
  have hmem : ∀ b, b ∈ (ofTips left).branches ↔
      b ∈ (ofTips tips).branches.filter (· ∈ left.map Tip.branch) := by
    intro b
    rw [List.mem_filter, decide_eq_true_eq, mem_branches_ofTips_iff, mem_branches_ofTips_iff]
    refine (and_iff_right_of_imp fun hb => ?_).symm
    obtain ⟨s, hs, hbranch⟩ := List.mem_map.1 hb
    exact List.mem_map.2 ⟨s, hmix.mem_iff.2 (Or.inl hs), hbranch⟩
  exact (ofTips left).increasing.eq_of_mem_iff hincreasing hmem

theorem isPart_of_apart (h : Apart left right) (hmix : Interleaving left right tips) :
    IsPart (left.map Tip.branch) (ofTips left) (ofTips tips) where
  branches_eq := branches_ofTips_of_interleaving hmix
  parent?_eq _ hb := parent?_ofTips_of_apart h hmix hb
  closed p b hp := by
    refine ⟨fun hpl => ?_, mem_map_branch_of_isParent h hmix hp⟩
    -- a child on the right would have its parent there, too
    obtain ⟨t, ht, rfl⟩ := mem_branches_ofTips.1 (mem_branches_of_parent? hp).1
    rcases hmix.mem_iff.1 ht with hs | ht
    · exact List.mem_map_of_mem hs
    · have hpr := mem_map_branch_of_isParent h.symm hmix.swap hp (List.mem_map_of_mem ht)
      obtain ⟨s, hs, hsp⟩ := List.mem_map.1 hpl
      obtain ⟨u, hu, hup⟩ := List.mem_map.1 hpr
      exact absurd (hsp.trans hup.symm) (h.branch_ne s hs u hu)

end Lineage

namespace SharedHead

open Tip (Apart)

variable {left right tips : List Tip}

theorem kept_eq_of_mem_filterMap {heads : List String} {holder? : String → Option String}
    {b : String} {r : SharedHead}
    (hr : r ∈ heads.filterMap fun c => (holder? c).map fun s => ⟨c, b, s⟩) : r.kept = b := by
  obtain ⟨c, -, hc⟩ := List.mem_filterMap.1 hr
  obtain ⟨s, -, rfl⟩ := Option.map_eq_some_iff.1 hc
  rfl

theorem shadowed?_ofTips_of_interleaving (hmix : Interleaving left right tips) {b c : String}
    (hright : ∀ t ∈ right, t.head ≠ c) : shadowed? tips (Lineage.ofTips tips).branches b c =
      shadowed? left (Lineage.ofTips left).branches b c := by
  apply Option.ext
  intro x
  rw [shadowed?_eq_some_iff, shadowed?_eq_some_iff]
  simp only [Tip.mem_heads_iff_of_interleaving hmix hright]

theorem filter_ofTips (h : Apart left right) (hmix : Interleaving left right tips)
    (hheads : ∀ s ∈ left, ∀ t ∈ right, s.head ≠ t.head) :
    (ofTips tips).filter (fun r => r.kept ∈ left.map Tip.branch) = ofTips left := by
  have hbranches := Lineage.branches_ofTips_of_interleaving hmix
  rw [ofTips_eq_flatMap tips, ofTips_eq_flatMap left]
  conv_rhs => arg 2; rw [hbranches]
  apply filter_flatMap_eq
  · intro b _ hb
    have hb : b ∈ left.map Tip.branch := of_decide_eq_true hb
    have hsame : ∀ c ∈ Tip.heads tips b, shadowed? tips (Lineage.ofTips tips).branches b c =
        shadowed? left (Lineage.ofTips left).branches b c := by
      intro c hc
      rw [h.heads_eq hmix hb] at hc
      obtain ⟨s, hs, -, rfl⟩ := Tip.mem_heads.1 hc
      exact shadowed?_ofTips_of_interleaving hmix fun t ht => (hheads s hs t ht).symm
    rw [← h.heads_eq hmix hb, ← List.filterMap_congr fun c hc => by rw [hsame c hc],
      List.filter_eq_self]
    intro r hr
    rw [kept_eq_of_mem_filterMap hr]
    exact decide_eq_true hb
  · intro b _ hb
    rw [List.filter_eq_nil_iff]
    intro r hr
    rw [kept_eq_of_mem_filterMap hr, hb]
    exact Bool.false_ne_true

theorem mem_map_branch_of_mem_heads (h : Apart left right) (hmix : Interleaving left right tips)
    (hheads : ∀ s ∈ left, ∀ t ∈ right, s.head ≠ t.head) {x y c : String}
    (hx : c ∈ Tip.heads tips x) (hy : c ∈ Tip.heads tips y) (hleft : x ∈ left.map Tip.branch) :
    y ∈ left.map Tip.branch := by
  rw [h.heads_eq hmix hleft] at hx
  obtain ⟨s, hs, -, rfl⟩ := Tip.mem_heads.1 hx
  obtain ⟨t, ht, rfl, hhead⟩ := Tip.mem_heads.1 hy
  rcases hmix.mem_iff.1 ht with ht | ht
  · exact List.mem_map_of_mem ht
  · exact absurd hhead.symm (hheads s hs t ht)

end SharedHead

namespace Plan

/-- Readings that are apart are planned apart, however their tips are mixed. -/
theorem filter_ofTips_of_interleaving (left right tips : List Tip)
    (hmix : Interleaving left right tips) (h : Tip.Apart left right) :
    let plan := ofTips tips
    plan.steps.filter (fun s => s.branch ∈ left.map Tip.branch) = (ofTips left).steps ∧
    plan.steps.filter (fun s => s.branch ∈ right.map Tip.branch) = (ofTips right).steps ∧
    ((∀ s ∈ left, ∀ t ∈ right, s.head ≠ t.head) →
      plan.sharedHeads.filter (fun r => r.kept ∈ left.map Tip.branch) =
        (ofTips left).sharedHeads ∧
      plan.sharedHeads.filter (fun r => r.kept ∈ right.map Tip.branch) =
        (ofTips right).sharedHeads ∧
      ∀ r ∈ plan.sharedHeads,
        (r.kept ∈ left.map Tip.branch ↔ r.shadowed ∈ left.map Tip.branch) ∧
        (r.kept ∈ right.map Tip.branch ↔ r.shadowed ∈ right.map Tip.branch)) := by
  intro plan
  refine ⟨(Lineage.isPart_of_apart h hmix).filter_steps,
    (Lineage.isPart_of_apart h.symm hmix.swap).filter_steps, fun hheads => ?_⟩
  have hheads' : ∀ t ∈ right, ∀ s ∈ left, t.head ≠ s.head := fun t ht s hs => (hheads s hs t ht).symm
  refine ⟨SharedHead.filter_ofTips h hmix hheads,
    SharedHead.filter_ofTips h.symm hmix.swap hheads', fun r hr => ?_⟩
  obtain ⟨hkept, ⟨-, hshadowed⟩, -⟩ := SharedHead.mem_ofTips_iff.1 hr
  constructor
  · exact ⟨SharedHead.mem_map_branch_of_mem_heads h hmix hheads hkept hshadowed,
      SharedHead.mem_map_branch_of_mem_heads h hmix hheads hshadowed hkept⟩
  · exact ⟨SharedHead.mem_map_branch_of_mem_heads h.symm hmix.swap hheads' hkept hshadowed,
      SharedHead.mem_map_branch_of_mem_heads h.symm hmix.swap hheads' hshadowed hkept⟩

def fork : List Tip := [⟨"a", "l2", "l1"⟩, ⟨"c", "l1", "l0"⟩, ⟨"e", "l1", "l0"⟩]

def ring : List Tip := [⟨"d", "r1", "r2"⟩, ⟨"b", "r2", "r1"⟩]

theorem filter_ofTips_of_interleaving_fork_ring :
    let tips : List Tip := [⟨"d", "r1", "r2"⟩, ⟨"a", "l2", "l1"⟩, ⟨"c", "l1", "l0"⟩,
      ⟨"b", "r2", "r1"⟩, ⟨"e", "l1", "l0"⟩]
    Interleaving fork ring tips ∧ Tip.Apart fork ring ∧
    (∀ s ∈ fork, ∀ t ∈ ring, s.head ≠ t.head) ∧
    (ofTips tips).steps.filter (fun s => s.branch ∈ ["a", "c", "e"]) = (ofTips fork).steps ∧
    (ofTips tips).steps.filter (fun s => s.branch ∈ ["d", "b"]) = (ofTips ring).steps ∧
    (ofTips tips).sharedHeads.filter (fun r => r.kept ∈ ["a", "c", "e"]) =
      (ofTips fork).sharedHeads ∧
    (ofTips fork).sharedHeads = [⟨"l1", "e", "c"⟩] := by
  intro tips
  have hmix : Interleaving fork ring tips := .right (.left (.left (.right (.left .nil))))
  have hapart : Tip.Apart fork ring := ⟨by decide, by decide, by decide⟩
  have hheads : ∀ s ∈ fork, ∀ t ∈ ring, s.head ≠ t.head := by decide
  obtain ⟨hfork, hring, hshared⟩ := filter_ofTips_of_interleaving fork ring tips hmix hapart
  refine ⟨hmix, hapart, hheads, hfork, hring, (hshared hheads).1, ?_⟩
  have horder : Tip.inOrder fork = fork := List.mergeSort_of_pairwise (by decide)
  change SharedHead.after [] (Tip.inOrder fork) = _
  rw [horder]
  decide

end Plan

end Restack
