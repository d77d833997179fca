import Mathlib.Data.Prod.Lex
import Mathlib.Data.Set.Card
import Mathlib.Data.String.Basic
import Mathlib.Order.Bounds.Basic
import Restack.Proofs.Emission
import Restack.Proofs.Loop

/-!
# The order of the steps

A step that comes before the step of its parent belongs to a branch that is met directly below the
root of the first path that goes through it, and that root is its parent. This happens exactly once
on each loop and nowhere else. Without loops the steps are ordered by the first branch, in name
order, whose path goes through the branch of the step, and then by depth.
-/

namespace Restack

def Step.early (steps : List Step) : List Step :=
  steps.filter fun s => Precedes steps s.branch s.onto

namespace Lineage

variable {l : Lineage} {loop : Cycle String}

def through (l : Lineage) (b : String) : Set String := {c | c ∈ l.branches ∧ b ∈ (l.climb c).path}

theorem MetOn.isLeast_through {b c : String} {earlier above : List String}
    (h : l.MetOn b c earlier above) (hfresh : ∀ x ∈ earlier, b ∉ (l.climb x).path) :
    IsLeast (l.through b) c := by
  obtain ⟨later, hsplit⟩ := h.branches_eq
  obtain ⟨r, rest, hpath⟩ := h.climb_eq
  refine ⟨⟨by simp [hsplit], by simp [hpath]⟩, ?_⟩
  intro x hx
  obtain ⟨hbranch, hbx⟩ := hx
  have hincreasing : (earlier ++ c :: later).Pairwise (· < ·) := hsplit ▸ l.increasing
  rw [hsplit] at hbranch
  rcases List.mem_append.1 hbranch with hearlier | hrest
  · exact absurd hbx (hfresh x hearlier)
  · rcases List.mem_cons.1 hrest with he | hlater
    · exact he.ge
    · exact ((List.pairwise_cons.1 (List.pairwise_append.1 hincreasing).2.1).1 x hlater).le

theorem MetOn.lt_of_mem {b c x : String} {earlier above : List String}
    (h : l.MetOn b c earlier above) (hx : x ∈ earlier) : x < c := by
  obtain ⟨later, hsplit⟩ := h.branches_eq
  have hincreasing : (earlier ++ c :: later).Pairwise (· < ·) := hsplit ▸ l.increasing
  exact (List.pairwise_append.1 hincreasing).2.2 x hx c List.mem_cons_self

theorem precedes_iff_not_precedes {p b : String} (hp : l.IsParent p b) (hne : p ≠ b)
    (hstep : p ∈ l.steps.map Step.branch) :
    Step.Precedes l.steps p b ↔ ¬ Step.Precedes l.steps b p :=
  pair_sublist_iff_not_swap l.nodup_map_branch_steps hstep
    (mem_map_branch_steps.2 ⟨p, hp, hne⟩) hne

theorem mem_early {s : Step} : s ∈ Step.early l.steps ↔
    (l.IsParent s.onto s.branch ∧ s.onto ≠ s.branch) ∧
      Step.Precedes l.steps s.branch s.onto := by
  rw [Step.early, List.mem_filter, decide_eq_true_eq]
  exact and_congr_left' mem_steps

/-- A branch with an early step is the first below the root on the first path through it, and the
root is its parent. -/
theorem climb_eq_of_mem_early {s : Step} (h : s ∈ Step.early l.steps) :
    ∃ c rest, IsLeast (l.through s.branch) c ∧
      (l.climb c).path = s.onto :: s.branch :: rest := by
  obtain ⟨b, p⟩ := s
  obtain ⟨⟨hp, hne⟩, hearly⟩ := mem_early.1 h
  have hstep : p ∈ l.steps.map Step.branch := hearly.subset (by simp)
  have hnot : ¬ Step.Precedes l.steps p b := fun hpb =>
    (precedes_iff_not_precedes hp hne hstep).1 hpb hearly
  obtain ⟨c, earlier, above, hmet⟩ := exists_metOn (mem_map_branch_steps.2 ⟨p, hp, hne⟩)
  rw [hmet.precedes_iff] at hnot
  obtain ⟨r, rest, hpath⟩ := hmet.climb_eq
  have hIsPath : l.IsPath ((r :: above) ++ b :: rest) := hpath ▸ l.climb_isPath c
  -- a branch between the root and `b` would be the parent, and its step would come first
  have habove : above = [] := by
    rcases above.eq_nil_or_concat' with hnil | ⟨above', a, rfl⟩
    · exact hnil
    · rw [← List.cons_append, List.append_assoc] at hIsPath
      have ha : a = p := hIsPath.isParent_of_append.eq hp
      exact absurd (Or.inr (by simp [ha])) hnot
  subst habove
  have hroot : r = p := hIsPath.isParent_of_append (P := []).eq hp
  subst hroot
  refine ⟨c, rest, hmet.isLeast_through ?_, hpath⟩
  intro x hx hbx
  have hrx : r ∈ (l.climb x).path := (l.climb_isPath x).parent_mem hbx hp
  obtain ⟨top, htop⟩ := l.climb_eq_cons x
  rw [htop] at hbx hrx
  rcases List.mem_cons.1 hbx with hb | hb
  · rcases List.mem_cons.1 hrx with hr | hr
    · exact hne (hr.trans hb.symm)
    · exact hnot (Or.inl ⟨x, hx, hr⟩)
  · exact hmet.fresh x hx hb

theorem exists_loop_of_mem_early {s : Step} (h : s ∈ Step.early l.steps) :
    ∃ loop, l.IsLoop loop ∧ s.branch ∈ loop := by
  obtain ⟨c, rest, -, hpath⟩ := climb_eq_of_mem_early h
  have hstep : s.onto ∈ l.steps.map Step.branch := (mem_early.1 h).2.subset (by simp)
  obtain ⟨q, hq, hne⟩ := mem_map_branch_steps.1 hstep
  have hIsPath : l.IsPath (s.onto :: s.branch :: rest) := hpath ▸ l.climb_isPath c
  obtain ⟨loop, hloop, -, hb⟩ := hIsPath.exists_loop hq hne
  exact ⟨loop, hloop, hb⟩

theorem Loopless.early_eq_nil (hl : l.Loopless) : Step.early l.steps = [] := by
  apply List.eq_nil_iff_forall_not_mem.2
  intro s hs
  obtain ⟨loop, hloop, -⟩ := exists_loop_of_mem_early hs
  exact hl loop hloop

theorem IsLoop.exists_mem_early (h : l.IsLoop loop) :
    ∃ s ∈ Step.early l.steps, s.branch ∈ loop := by
  have hstep : ∀ b ∈ loop, b ∈ l.steps.map Step.branch := by
    intro b hb
    obtain ⟨p, -, hp, hne⟩ := h.exists_parent hb
    exact mem_map_branch_steps.2 ⟨p, hp, hne⟩
  obtain ⟨x, hx⟩ := h.exists_mem
  obtain ⟨before, b, after, hsplit, hb, hbefore⟩ :=
    exists_first (P := (· ∈ loop)) ⟨x, hstep x hx, hx⟩
  obtain ⟨p, hploop, hp, hne⟩ := h.exists_parent hb
  have hafter : p ∈ after := by
    have hmem := hstep p hploop
    rw [hsplit] at hmem
    rcases List.mem_append.1 hmem with hmem | hmem
    · exact absurd hploop (hbefore p hmem)
    · exact (List.mem_cons.1 hmem).resolve_left hne
  have hearly : Step.Precedes l.steps b p := by
    rw [Step.Precedes, hsplit]
    exact ((List.singleton_sublist.2 hafter).cons_cons b).trans (List.sublist_append_right before _)
  exact ⟨⟨b, p⟩, mem_early.2 ⟨⟨hp, hne⟩, hearly⟩, hb⟩

theorem IsLoop.early_unique {s t : Step} (h : l.IsLoop loop) (hs : s ∈ Step.early l.steps)
    (ht : t ∈ Step.early l.steps) (hsloop : s.branch ∈ loop) (htloop : t.branch ∈ loop) :
    s = t := by
  obtain ⟨c, rest, hleast, hpath⟩ := climb_eq_of_mem_early hs
  obtain ⟨c', rest', hleast', hpath'⟩ := climb_eq_of_mem_early ht
  have hthrough : l.through s.branch = l.through t.branch := by
    ext x
    exact and_congr_right fun _ => h.mem_climb_iff hsloop htloop
  have hc : c = c' := hleast.unique (hthrough ▸ hleast')
  rw [hc, hpath'] at hpath
  obtain ⟨honto, hrest⟩ := List.cons.inj hpath
  obtain ⟨hbranch, -⟩ := List.cons.inj hrest
  cases s
  cases t
  exact congrArg₂ Step.mk hbranch.symm honto.symm

theorem encard_loops (l : Lineage) :
    {loop | l.IsLoop loop}.encard = (Step.early l.steps).length := by
  let round : Step → Cycle String := fun s => ↑(l.climb s.branch).path
  have hround : ∀ s ∈ Step.early l.steps, l.IsLoop (round s) ∧ s.branch ∈ round s := by
    intro s hs
    obtain ⟨loop, hloop, hb⟩ := exists_loop_of_mem_early hs
    have he : loop = round s := hloop.eq_climb hb
    exact ⟨he ▸ hloop, he ▸ hb⟩
  have hloops : {loop | l.IsLoop loop} = {c | c ∈ (Step.early l.steps).map round} := by
    ext c
    simp only [Set.mem_ofPred_eq, List.mem_map]
    constructor
    · intro hc
      obtain ⟨s, hs, hb⟩ := hc.exists_mem_early
      exact ⟨s, hs, (hc.eq_climb hb).symm⟩
    · intro hc
      obtain ⟨s, hs, rfl⟩ := hc
      exact (hround s hs).1
  have hnodup : ((Step.early l.steps).map round).Nodup := by
    apply List.Nodup.map_on
    · intro s hs t ht he
      exact (hround s hs).1.early_unique hs ht (hround s hs).2 (he ▸ (hround t ht).2)
    · exact (l.nodup_map_branch_steps.of_map _).filter _
  rw [hloops, ← List.coe_toFinset, Set.encard_coe_eq_coe_finsetCard,
    List.toFinset_card_of_nodup hnodup, List.length_map]

def firstThrough (l : Lineage) (b : String) : String :=
  (l.branches.filter fun c => b ∈ (l.climb c).path).min?.getD b

def depth (l : Lineage) (b : String) : ℕ := (l.climb b).path.length

def place (l : Lineage) (b : String) : String ×ₗ ℕ := toLex (l.firstThrough b, l.depth b)

theorem isLeast_firstThrough {b : String} (hb : b ∈ l.branches) :
    IsLeast (l.through b) (l.firstThrough b) := by
  have hself : b ∈ l.branches.filter fun c => b ∈ (l.climb c).path := by
    simp [hb, l.mem_climb_self b]
  obtain ⟨c, hc⟩ := Option.isSome_iff_exists.1 (List.isSome_min?_of_mem hself)
  have hfirst : l.firstThrough b = c := by rw [firstThrough, hc, Option.getD_some]
  obtain ⟨hmem, hle⟩ := List.min?_eq_some_iff.1 hc
  rw [hfirst]
  refine ⟨by simpa [through] using hmem, ?_⟩
  intro x hx
  exact hle x (by simpa [through] using hx)

theorem MetOn.firstThrough_eq {b c : String} {earlier above : List String} (hl : l.Loopless)
    (h : l.MetOn b c earlier above) : l.firstThrough b = c := by
  obtain ⟨rest, hbelow⟩ := h.below_eq
  obtain ⟨p, hp, hne⟩ := exists_parent_of_mem_below (c := c) (hbelow ▸ by simp : b ∈ l.below c)
  refine (isLeast_firstThrough (mem_branches_of_parent? hp).1).unique (h.isLeast_through ?_)
  intro x hx hbx
  obtain ⟨r, hpath⟩ := l.climb_eq_cons x
  rw [hpath] at hbx
  rcases List.mem_cons.1 hbx with hr | hb
  · subst hr
    exact hne ((l.climb_isPath x).eq_root_of_loopless hl (by rw [hpath]; rfl) hp)
  · exact h.fresh x hx hb

theorem place_lt_of_precedes {a b : String} (hl : l.Loopless) (h : Step.Precedes l.steps a b) :
    l.place a < l.place b := by
  obtain ⟨p, hp, -⟩ := mem_map_branch_steps.1 (h.subset (by simp : a ∈ [a, b]))
  obtain ⟨-, hleast⟩ := isLeast_firstThrough (mem_branches_of_parent? hp).1
  obtain ⟨c, earlier, above, hmet⟩ := exists_metOn (h.subset (by simp : b ∈ [a, b]))
  rw [place, place, Prod.Lex.toLex_lt_toLex, hmet.firstThrough_eq hl]
  rcases hmet.precedes_iff.1 h with hearlier | habove
  · obtain ⟨x, hx, hax⟩ := hearlier
    obtain ⟨later, hsplit⟩ := hmet.branches_eq
    have hbranch : x ∈ l.branches := by simp [hsplit, hx]
    exact Or.inl ((hleast ⟨hbranch, List.mem_of_mem_tail hax⟩).trans_lt (hmet.lt_of_mem hx))
  · obtain ⟨later, hsplit⟩ := hmet.branches_eq
    obtain ⟨r, rest, hpath⟩ := hmet.climb_eq
    obtain ⟨front, back, rfl⟩ := List.append_of_mem habove
    have hpath' : (l.climb c).path = (r :: front) ++ a :: (back ++ b :: rest) := by
      rw [hpath, List.cons_append, List.cons_append, List.append_assoc, List.cons_append]
    have hle : l.firstThrough a ≤ c := hleast ⟨by simp [hsplit], by simp [hpath']⟩
    have ha : (l.climb a).path = (r :: front) ++ [a] := climb_eq_of_append hl hpath'
    have hb : (l.climb b).path = (r :: (front ++ a :: back)) ++ [b] :=
      climb_eq_of_append hl hpath
    rcases hle.lt_or_eq with hlt | he
    · exact Or.inl hlt
    · refine Or.inr ⟨he, ?_⟩
      simp only [depth, ha, hb, List.length_append, List.length_cons]
      omega

end Lineage

namespace Plan

/-- The step of a parent comes before those of its children, but for exactly one branch on each
loop, so there are as many exceptions as loops. -/
theorem precedes_onto_except_once_per_loop (tips : List Tip) :
    let l := Lineage.ofTips tips
    let steps := (ofTips tips).steps
    (∀ s ∈ steps, s.onto ∈ steps.map Step.branch →
      (Step.Precedes steps s.onto s.branch ↔ s ∉ Step.early steps)) ∧
    (∀ s ∈ Step.early steps, ∃ loop, l.IsLoop loop ∧ s.branch ∈ loop) ∧
    (∀ loop, l.IsLoop loop → ∃! s, s ∈ Step.early steps ∧ s.branch ∈ loop) ∧
    {loop | l.IsLoop loop}.encard = (Step.early steps).length ∧
    (l.Loopless → ∀ s ∈ steps, s.onto ∈ steps.map Step.branch →
      Step.Precedes steps s.onto s.branch) := by
  intro l steps
  have hparent : ∀ s ∈ steps, s.onto ∈ steps.map Step.branch →
      (Step.Precedes steps s.onto s.branch ↔ s ∉ Step.early steps) := by
    intro s hs honto
    have hlink : l.IsParent s.onto s.branch ∧ s.onto ≠ s.branch := Lineage.mem_steps.1 hs
    have hearly : s ∈ Step.early steps ↔ Step.Precedes steps s.branch s.onto :=
      Lineage.mem_early.trans (and_iff_right hlink)
    rw [hearly]
    exact Lineage.precedes_iff_not_precedes hlink.1 hlink.2 honto
  refine ⟨hparent, fun s hs => Lineage.exists_loop_of_mem_early hs, ?_, l.encard_loops, ?_⟩
  · intro loop hloop
    obtain ⟨s, hs, hb⟩ := hloop.exists_mem_early
    exact ⟨s, ⟨hs, hb⟩, fun t ht => hloop.early_unique ht.1 hs ht.2 hb⟩
  · intro hl s hs honto
    have hnone : Step.early steps = [] := hl.early_eq_nil
    exact (hparent s hs honto).2 (hnone ▸ List.not_mem_nil)

def twoLoops : List Tip :=
  [⟨"0", "t", "d"⟩, ⟨"a", "a", "b"⟩, ⟨"b", "b", "a"⟩, ⟨"c", "c", "e"⟩, ⟨"d", "d", "c"⟩,
    ⟨"e", "e", "d"⟩]

theorem steps_twoLoops : (ofTips twoLoops).steps =
    [⟨"c", "e"⟩, ⟨"d", "c"⟩, ⟨"0", "d"⟩, ⟨"a", "b"⟩, ⟨"b", "a"⟩, ⟨"e", "d"⟩] := by
  have hlinks : (Lineage.ofTips twoLoops).links = [("0", some "d"), ("a", some "b"),
      ("b", some "a"), ("c", some "e"), ("d", some "c"), ("e", some "d")] := by
    rw [Lineage.links_ofTips_of_pairwise (by decide)]
    decide
  simp [ofTips, Lineage.steps, Lineage.branches, Lineage.climb, hlinks, take?, Climb.along,
    Step.alongPath, Step.firsts]
  rfl

theorem encard_loops_twoLoops :
    Step.early (ofTips twoLoops).steps = [⟨"c", "e"⟩, ⟨"a", "b"⟩] ∧
    {loop | (Lineage.ofTips twoLoops).IsLoop loop}.encard = 2 := by
  have hearly : Step.early (ofTips twoLoops).steps = [⟨"c", "e"⟩, ⟨"a", "b"⟩] := by
    rw [steps_twoLoops]
    decide
  obtain ⟨-, -, -, hcount, -⟩ := precedes_onto_except_once_per_loop twoLoops
  rw [hearly] at hcount
  exact ⟨hearly, hcount⟩

/-- Without loops the order of the steps has a closed form. -/
theorem pairwise_place_steps (tips : List Tip) (hl : (Lineage.ofTips tips).Loopless) :
    let l := Lineage.ofTips tips
    (ofTips tips).steps.Pairwise (fun s t => l.place s.branch < l.place t.branch) ∧
    ∀ steps : List Step, (∀ s, s ∈ steps ↔ s ∈ (ofTips tips).steps) →
      steps.Pairwise (fun s t => l.place s.branch < l.place t.branch) →
      steps = (ofTips tips).steps := by
  intro l
  have hnames : ((ofTips tips).steps.map Step.branch).Pairwise
      fun a b => l.place a < l.place b :=
    List.pairwise_iff_forall_sublist.2 fun hab => Lineage.place_lt_of_precedes hl hab
  have hsorted : (ofTips tips).steps.Pairwise
      fun s t => l.place s.branch < l.place t.branch := by
    rwa [List.pairwise_map] at hnames
  refine ⟨hsorted, ?_⟩
  intro steps hmem hpairwise
  have hperm : steps.Perm (ofTips tips).steps :=
    (List.perm_ext_iff_of_nodup (hpairwise.imp fun h he => (he ▸ h).false)
      (hsorted.imp fun h he => (he ▸ h).false)).2 hmem
  exact hperm.eq_of_pairwise (fun s t _ _ hst hts => absurd hst hts.asymm) hpairwise hsorted

def stack : List Tip :=
  [⟨"a", "a", "z"⟩, ⟨"b", "b", "a"⟩, ⟨"d", "d", "x"⟩, ⟨"x", "x", "b"⟩, ⟨"z", "z", "z"⟩]

theorem links_stack : (Lineage.ofTips stack).links =
    [("a", some "z"), ("b", some "a"), ("d", some "x"), ("x", some "b"), ("z", some "z")] := by
  rw [Lineage.links_ofTips_of_pairwise (by decide)]
  decide

theorem loopless_stack : (Lineage.ofTips stack).Loopless := by
  apply Lineage.loopless_of_rank ["z", "a", "b", "x", "d"].idxOf
  intro p b hp hne
  rw [Lineage.IsParent, Lineage.parent?_eq_some_iff, links_stack] at hp
  simp only [List.mem_cons, Prod.mk.injEq, Option.some.injEq, List.not_mem_nil, or_false] at hp
  rcases hp with ⟨rfl, rfl⟩ | ⟨rfl, rfl⟩ | ⟨rfl, rfl⟩ | ⟨rfl, rfl⟩ | ⟨rfl, rfl⟩
  · decide
  · decide
  · decide
  · decide
  · exact absurd rfl hne

theorem place_stack : let l := Lineage.ofTips stack
    l.place "a" = toLex ("a", 2) ∧ l.place "b" = toLex ("b", 3) ∧
      l.place "x" = toLex ("d", 4) ∧ l.place "d" = toLex ("d", 5) := by
  simp [Lineage.place, Lineage.firstThrough, Lineage.depth, Lineage.branches, Lineage.climb,
    links_stack, take?, Climb.along]

theorem pairwise_place_steps_stack :
    (Lineage.ofTips stack).Loopless ∧
    (ofTips stack).steps = [⟨"a", "z"⟩, ⟨"b", "a"⟩, ⟨"x", "b"⟩, ⟨"d", "x"⟩] := by
  refine ⟨loopless_stack, ?_⟩
  obtain ⟨-, hunique⟩ := pairwise_place_steps stack loopless_stack
  refine (hunique _ ?_ ?_).symm
  · intro s
    obtain ⟨b, p⟩ := s
    change _ ↔ ⟨b, p⟩ ∈ (Lineage.ofTips stack).steps
    rw [Lineage.mem_steps, Lineage.IsParent, Lineage.parent?_eq_some_iff, links_stack]
    simp only [List.mem_cons, Step.mk.injEq, Prod.mk.injEq, Option.some.injEq, List.not_mem_nil,
      or_false]
    grind
  · obtain ⟨ha, hb, hx, hd⟩ := place_stack
    simp only [List.pairwise_cons, List.mem_cons, List.not_mem_nil, or_false, forall_eq_or_imp,
      forall_eq, ha, hb, hx, hd, Prod.Lex.toLex_lt_toLex, IsEmpty.forall_iff, implies_true,
      List.Pairwise.nil]
    decide

end Plan

end Restack
