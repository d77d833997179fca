import Restack.Proofs.StepOrder

/-!
# Renaming

Commit ids are compared for equality only, and names only for their order. So a plan follows every
renaming that keeps commits apart and names in order: the plan of the renamed tips is the renamed plan.
-/

namespace Restack

variable {f g : String → String}

def Tip.rename (f g : String → String) (t : Tip) : Tip := ⟨g t.branch, f t.head, f t.base⟩

def Step.rename (g : String → String) (s : Step) : Step := ⟨g s.branch, g s.onto⟩

def SharedHead.rename (f g : String → String) (r : SharedHead) : SharedHead :=
  ⟨f r.head, g r.kept, g r.shadowed⟩

def Plan.rename (f g : String → String) (p : Plan) : Plan :=
  ⟨p.steps.map (Step.rename g), p.sharedHeads.map (SharedHead.rename f g)⟩

namespace Tip

theorem inOrder_rename (hg : StrictMono g) (tips : List Tip) :
    inOrder (tips.map (rename f g)) = (inOrder tips).map (rename f g) := by
  refine (List.map_mergeSort fun s _ t _ => ?_).symm
  simp only [before, rename, hg.le_iff_le]

theorem lastHolder?_rename (hf : Function.Injective f) (tips : List Tip) (c : String) :
    lastHolder? (tips.map (rename f g)) (f c) = (lastHolder? tips c).map g := by
  rw [lastHolder?, lastHolder?, List.filter_map, List.getLast?_map, Option.map_map, Option.map_map]
  have hholds : ((fun t : Tip => decide (t.head = f c)) ∘ rename f g) =
      fun t => decide (t.head = c) := by
    funext t
    simp only [Function.comp_apply, rename, hf.eq_iff]
  rw [hholds]
  rfl

end Tip

theorem latest_map {α β : Type*} (hg : Function.Injective g) (h : α → β)
    (entries : List (String × α)) :
    latest (entries.map (Prod.map g h)) = (latest entries).map (Prod.map g h) := by
  induction entries with
  | nil => rfl
  | cons e rest ih =>
    have hlater : (rest.map (Prod.map g h)).any (fun r => r.1 = (Prod.map g h e).1) =
        rest.any fun r => r.1 = e.1 := by
      simp only [List.any_map, Function.comp_def, Prod.map_fst, hg.eq_iff]
    rw [List.map_cons, latest, hlater, ih, latest]
    split <;> rfl

namespace Lineage

variable {l l' : Lineage} {b p : String}

def IsRenamed (g : String → String) (l l' : Lineage) : Prop :=
  l'.links = l.links.map (Prod.map g (Option.map g))

theorem isRenamed_ofTips (hf : Function.Injective f) (hg : StrictMono g) (tips : List Tip) :
    IsRenamed g (ofTips tips) (ofTips (tips.map (Tip.rename f g))) := by
  change linksOf (Tip.inOrder (tips.map (Tip.rename f g))) = (linksOf (Tip.inOrder tips)).map _
  rw [Tip.inOrder_rename hg, linksOf, linksOf, ← latest_map hg.injective, List.map_map, List.map_map]
  congr 1
  apply List.map_congr_left
  intro t _
  simp only [Function.comp_apply, Prod.map_apply, ← Tip.lastHolder?_rename hf]
  rfl

namespace IsRenamed

theorem branches_eq (h : IsRenamed g l l') : l'.branches = l.branches.map g := by
  rw [branches, h, List.map_map, branches, List.map_map]
  rfl

theorem isParent_iff (h : IsRenamed g l l') (hg : Function.Injective g) :
    l'.IsParent p (g b) ↔ ∃ q, l.IsParent q b ∧ g q = p := by
  simp only [IsParent, parent?_eq_some_iff]
  rw [h, List.mem_map]
  constructor
  · intro hlink
    obtain ⟨⟨x, parent⟩, hmem, he⟩ := hlink
    obtain ⟨hx, hparent⟩ := Prod.mk.inj he
    obtain ⟨q, rfl, hq⟩ := Option.map_eq_some_iff.1 hparent
    exact ⟨q, hg hx ▸ hmem, hq⟩
  · intro hlink
    obtain ⟨q, hmem, rfl⟩ := hlink
    exact ⟨(b, some q), hmem, rfl⟩

theorem path_climb_eq (h : IsRenamed g l l') (hg : Function.Injective g) (b : String) :
    (l'.climb (g b)).path = (l.climb b).path.map g := by
  have hpath := l.climb_isPath b
  refine climb_eq_of_isPath ⟨hpath.nodup.map hg, ?_, fun r hr p hp => ?_⟩ ?_
  · rw [List.isChain_map]
    exact hpath.linked.imp fun p c hpc => (h.isParent_iff hg).2 ⟨p, hpc, rfl⟩
  · rw [List.head?_map] at hr
    obtain ⟨root, hroot, rfl⟩ := Option.map_eq_some_iff.1 hr
    obtain ⟨q, hq, rfl⟩ := (h.isParent_iff hg).1 hp
    exact List.mem_map_of_mem (hpath.rooted root hroot q hq)
  · rw [List.getLast?_map, climb_getLast?, Option.map_some]

end IsRenamed

end Lineage

namespace Step

theorem alongPath_map (g : String → String) (path : List String) :
    alongPath (path.map g) = (alongPath path).map (rename g) := by
  rw [alongPath, alongPath, ← List.map_tail, List.zipWith_map, List.map_zipWith]
  rfl

theorem firsts_map (hg : Function.Injective g) : ∀ steps : List Step,
    firsts (steps.map (rename g)) = (firsts steps).map (rename g)
  | [] => rfl
  | s :: rest => by
    have hother : ((fun t : Step => !t.branch == (s.rename g).branch) ∘ rename g) =
        fun t => !t.branch == s.branch := by
      funext t
      simp only [Function.comp_apply, rename, hg.beq_eq]
    rw [List.map_cons, firsts_cons, firsts_cons, List.filter_map, hother, firsts_map hg,
      List.map_cons]
termination_by steps => steps.length
decreasing_by exact Nat.lt_succ_of_le (List.length_filter_le _ _)

end Step

theorem Lineage.IsRenamed.steps_eq {l l' : Lineage} (h : IsRenamed g l l')
    (hg : Function.Injective g) : l'.steps = l.steps.map (Step.rename g) := by
  rw [steps, steps, h.branches_eq, List.flatMap_map, ← Step.firsts_map hg, List.map_flatMap]
  simp only [h.path_climb_eq hg, Step.alongPath_map]

namespace SharedHead

theorem with?_rename (hf : Function.Injective f) (hg : Function.Injective g) (seen : List Tip)
    (t : Tip) : with? (seen.map (Tip.rename f g)) (t.rename f g) =
      (with? seen t).map (rename f g) := by
  have hholds : ((fun s : Tip => decide (s.head = (t.rename f g).head)) ∘ Tip.rename f g) =
      fun s => decide (s.head = t.head) := by
    funext s
    simp only [Function.comp_apply, Tip.rename, hf.eq_iff]
  rw [with?, with?, List.find?_map, hholds]
  cases seen.find? fun s => s.head = t.head with
  | none => rfl
  | some s =>
    simp only [Option.map_some, Tip.rename, hg.eq_iff]
    split <;> rfl

theorem after_rename (hf : Function.Injective f) (hg : Function.Injective g)
    (seen tips : List Tip) :
    after (seen.map (Tip.rename f g)) (tips.map (Tip.rename f g)) =
      (after seen tips).map (rename f g) := by
  induction tips generalizing seen with
  | nil => rfl
  | cons t rest ih =>
    rw [List.map_cons, after, after, with?_rename hf hg, ← List.map_cons, ih, List.map_append,
      Option.toList_map]

end SharedHead

namespace Plan

/-- Commits may be renamed in any way that keeps them apart, and branches in any way that keeps them
in order. -/
theorem ofTips_rename (f g : String → String) (hf : Function.Injective f) (hg : StrictMono g)
    (tips : List Tip) : ofTips (tips.map (Tip.rename f g)) = (ofTips tips).rename f g := by
  have hsteps := (Lineage.isRenamed_ofTips hf hg tips).steps_eq hg.injective
  have hshared : SharedHead.ofTips (tips.map (Tip.rename f g)) =
      (SharedHead.ofTips tips).map (SharedHead.rename f g) := by
    rw [SharedHead.ofTips, Tip.inOrder_rename hg]
    exact SharedHead.after_rename hf hg.injective [] (Tip.inOrder tips)
  rw [ofTips, hsteps, hshared]
  rfl

theorem strictMono_append (s : String) : StrictMono (s ++ ·) := by
  intro a b hab
  rw [String.lt_iff_toList_lt] at hab
  rw [String.lt_iff_toList_lt, String.toList_append, String.toList_append]
  exact List.append_left_lt hab

theorem steps_rename_twoLoops :
    let f := fun c => "commit " ++ c
    let g := fun b => "heads/" ++ b
    Function.Injective f ∧ StrictMono g ∧
    (ofTips (twoLoops.map (Tip.rename f g))).steps =
      [⟨"heads/c", "heads/e"⟩, ⟨"heads/d", "heads/c"⟩, ⟨"heads/0", "heads/d"⟩,
        ⟨"heads/a", "heads/b"⟩, ⟨"heads/b", "heads/a"⟩, ⟨"heads/e", "heads/d"⟩] := by
  intro f g
  have hf : Function.Injective f := fun c d h => (String.append_right_inj "commit ").1 h
  have hg : StrictMono g := strictMono_append "heads/"
  refine ⟨hf, hg, ?_⟩
  rw [ofTips_rename f g hf hg, rename, steps_twoLoops]
  decide

end Plan

end Restack
