import Mathlib.Data.List.Nodup
import Mathlib.Data.String.Basic
import Mathlib.Order.Bounds.Basic
import Restack.Plan
import Restack.Proofs.Emission

/-!
# What a plan depends on

Of each branch a plan depends on two things only: the heads that its tips have, in the order of
their first tips, and the base of its last tip. The parent links and the reports of shared heads
are written here in terms of these, so readings that agree on them give the same plan, however
the tips of different branches are mixed and whatever is read again.
-/

namespace Restack

namespace Tip

variable {tips tips' : List Tip} {b c : String}

def ofBranch (tips : List Tip) (b : String) : List Tip := tips.filter fun t => t.branch = b

theorem mem_ofBranch {t : Tip} : t ∈ ofBranch tips b ↔ t ∈ tips ∧ t.branch = b := by
  simp [ofBranch]

def heads (tips : List Tip) (b : String) : List String := ((ofBranch tips b).map head).eraseDups

theorem mem_heads : c ∈ heads tips b ↔ ∃ t ∈ tips, t.branch = b ∧ t.head = c := by
  simp [heads, mem_ofBranch, and_assoc]

/-- The base that decides the parent of a branch. -/
def base? (tips : List Tip) (b : String) : Option String := (ofBranch tips b).getLast?.map base

theorem ofBranch_inOrder (tips : List Tip) (b : String) :
    ofBranch (inOrder tips) b = ofBranch tips b := by
  have hsorted : (ofBranch tips b).Pairwise (before · ·) := by
    refine List.pairwise_of_forall_mem_list fun s hs t ht => ?_
    simp [before, (mem_ofBranch.1 hs).2, (mem_ofBranch.1 ht).2]
  have hsub : (ofBranch tips b).Sublist (inOrder tips) :=
    List.sublist_mergeSort before_trans before_total hsorted List.filter_sublist
  have hsub' := hsub.filter fun t => t.branch = b
  have hlength := ((inOrder_perm tips).filter fun t => decide (t.branch = b)).length_eq
  rw [ofBranch, List.filter_filter] at hsub'
  simp only [Bool.and_self] at hsub'
  exact (hsub'.eq_of_length hlength.symm).symm

theorem eq_append_filter_of_le {tips : List Tip} (h : tips.Pairwise fun s t => s.branch ≤ t.branch)
    (hb : ∀ t ∈ tips, b ≤ t.branch) :
    tips = ofBranch tips b ++ tips.filter fun t => t.branch ≠ b := by
  induction tips with
  | nil => rfl
  | cons t tips ih =>
    obtain ⟨ht, htips⟩ := List.pairwise_cons.1 h
    by_cases he : t.branch = b
    · have hrest := ih htips fun s hs => hb s (List.mem_cons_of_mem t hs)
      simpa [ofBranch, he] using hrest
    · -- from `t` on all branches are later
      have hnone : ∀ s ∈ t :: tips, s.branch ≠ b := by
        intro s hs hsb
        rcases List.mem_cons.1 hs with rfl | hs
        · exact he hsb
        · exact he (String.le_antisymm (hsb ▸ ht s hs) (hb t List.mem_cons_self))
      have hleft : ofBranch (t :: tips) b = [] := by simpa [ofBranch] using hnone
      rw [hleft, List.nil_append, eq_comm, List.filter_eq_self]
      simpa using hnone

theorem eq_flatMap_ofBranch {tips : List Tip} {names : List String}
    (h : tips.Pairwise fun s t => s.branch ≤ t.branch) (hnames : names.Pairwise (· < ·))
    (hmem : ∀ t ∈ tips, t.branch ∈ names) : tips = names.flatMap (ofBranch tips) := by
  induction names generalizing tips with
  | nil =>
    cases tips with
    | nil => rfl
    | cons t tips => exact absurd (hmem t List.mem_cons_self) List.not_mem_nil
  | cons b names ih =>
    obtain ⟨hb, hnames⟩ := List.pairwise_cons.1 hnames
    have hle : ∀ t ∈ tips, b ≤ t.branch := by
      intro t ht
      rcases List.mem_cons.1 (hmem t ht) with he | hlater
      · exact he ▸ String.le_refl _
      · exact Std.le_of_lt (hb _ hlater)
    have hrest := @ih (tips.filter fun t => t.branch ≠ b) (h.filter _) hnames fun t ht => by
      obtain ⟨ht, hne⟩ := List.mem_filter.1 ht
      exact (List.mem_cons.1 (hmem t ht)).resolve_left (of_decide_eq_true hne)
    have hother : ∀ x ∈ names, ofBranch (tips.filter fun t => t.branch ≠ b) x = ofBranch tips x := by
      intro x hx
      have hne : x ≠ b := fun he => String.lt_irrefl b (he ▸ hb x hx)
      rw [ofBranch, List.filter_filter]
      refine List.filter_congr fun t _ => ?_
      by_cases he : t.branch = x
      · simp [he, hne]
      · simp [he]
    rw [List.flatMap_cons, ← List.flatMap_congr hother, ← hrest]
    exact eq_append_filter_of_le h hle

theorem lastHolder?_eq_some_iff :
    lastHolder? (inOrder tips) c = some b ↔ IsGreatest {x | c ∈ heads tips x} b := by
  have hgreatest : ∀ {x}, lastHolder? (inOrder tips) c = some x →
      IsGreatest {x | c ∈ heads tips x} x := by
    intro x hx
    obtain ⟨t, ht, rfl⟩ := Option.map_eq_some_iff.1 hx
    obtain ⟨earlier, hsplit⟩ := List.getLast?_eq_some_iff.1 ht
    have hlast : ∀ s ∈ inOrder tips, s.head = c → s.branch ≤ t.branch := by
      intro s hs hc
      have hmem : s ∈ earlier ++ [t] := hsplit ▸ List.mem_filter.2 ⟨hs, decide_eq_true hc⟩
      have hpair := (pairwise_inOrder tips).filter fun t => t.head = c
      rw [hsplit, List.pairwise_append] at hpair
      rcases List.mem_append.1 hmem with hs | hs
      · exact hpair.2.2 s hs t List.mem_cons_self
      · exact List.mem_singleton.1 hs ▸ String.le_refl _
    obtain ⟨ht', hc⟩ := List.mem_filter.1 (List.mem_of_getLast? ht)
    refine ⟨mem_heads.2 ⟨t, mem_inOrder.1 ht', rfl, of_decide_eq_true hc⟩, fun y hy => ?_⟩
    obtain ⟨s, hs, rfl, hc⟩ := mem_heads.1 hy
    exact hlast s (mem_inOrder.2 hs) hc
  refine ⟨hgreatest, fun h => ?_⟩
  obtain ⟨t, ht, -, hc⟩ := mem_heads.1 h.1
  cases hx : lastHolder? (inOrder tips) c with
  | none =>
    have hnone : (inOrder tips).filter (fun t => t.head = c) = [] := by
      simpa [lastHolder?] using hx
    exact absurd (decide_eq_true hc) (List.filter_eq_nil_iff.1 hnone t (mem_inOrder.2 ht))
  | some x => rw [(hgreatest hx).unique h]

theorem lastHolder?_eq_none_iff : lastHolder? (inOrder tips) c = none ↔ ∀ t ∈ tips, t.head ≠ c := by
  simp [lastHolder?]

theorem exists_base?_eq (hb : b ∈ tips.map branch) :
    ∃ t ∈ tips, t.branch = b ∧ base? tips b = some t.base := by
  obtain ⟨t, ht, hbranch⟩ := List.mem_map.1 hb
  have hne : (ofBranch tips b).getLast? ≠ none :=
    mt List.getLast?_eq_none_iff.1 (List.ne_nil_of_mem (mem_ofBranch.2 ⟨ht, hbranch⟩))
  obtain ⟨u, hu⟩ := Option.ne_none_iff_exists'.1 hne
  obtain ⟨hmem, hubranch⟩ := mem_ofBranch.1 (List.mem_of_getLast? hu)
  exact ⟨u, hmem, hubranch, by rw [base?, hu, Option.map_some]⟩

theorem base?_of_mem (hnames : (tips.map branch).Nodup) {t : Tip} (ht : t ∈ tips) :
    base? tips t.branch = some t.base := by
  obtain ⟨u, hu, hbranch, hbase⟩ := exists_base?_eq (List.mem_map_of_mem ht)
  rw [hbase, List.inj_on_of_nodup_map hnames hu ht hbranch]

/-- The readings have the same branches, and each of these the same heads and the same base. -/
structure Agree (tips tips' : List Tip) : Prop where
  branches : ∀ b, b ∈ tips.map branch ↔ b ∈ tips'.map branch
  heads : ∀ b, heads tips b = heads tips' b
  base? : ∀ b, base? tips b = base? tips' b

theorem Agree.lastHolder?_eq (h : Agree tips tips') :
    lastHolder? (inOrder tips) = lastHolder? (inOrder tips') := by
  funext c
  refine Option.ext fun b => ?_
  simp only [lastHolder?_eq_some_iff, h.heads]

end Tip

theorem mem_latest_iff {α : Type*} {entries : List (String × α)} {e : String × α} :
    e ∈ latest entries ↔ (entries.filter fun r => r.1 = e.1).getLast? = some e := by
  fun_induction latest entries with
  | case1 => simp
  | case2 x rest hlater ih =>
    rw [ih, List.filter_cons]
    split
    next he =>
      -- a later entry has the name of `x`
      obtain ⟨r, hr, hrx⟩ := List.any_eq_true.1 hlater
      have hne : rest.filter (fun r => decide (r.1 = e.1)) ≠ [] :=
        List.ne_nil_of_mem (List.mem_filter.2 ⟨hr, by simp_all⟩)
      rw [List.getLast?_cons_of_ne_nil hne]
    next => rfl
  | case3 x rest hlater ih =>
    have hnone : ∀ r ∈ rest, r.1 ≠ x.1 := fun r hr he =>
      hlater (List.any_eq_true.2 ⟨r, hr, decide_eq_true he⟩)
    rw [List.mem_cons, ih, List.filter_cons]
    split
    next he =>
      have he : x.1 = e.1 := of_decide_eq_true he
      have hrest : rest.filter (fun r => decide (r.1 = e.1)) = [] :=
        List.filter_eq_nil_iff.2 fun r hr => by simpa [← he] using hnone r hr
      rw [hrest, List.getLast?_nil, List.getLast?_singleton, Option.some_inj]
      simp [eq_comm]
    next he =>
      have hx : e ≠ x := fun h => he (by simp [h])
      simp [hx]

namespace Lineage

variable {tips tips' : List Tip} {b : String} {parent : Option String}

theorem mem_links_ofTips : (b, parent) ∈ (ofTips tips).links ↔
    (Tip.base? tips b).map (Tip.lastHolder? (Tip.inOrder tips)) = some parent := by
  change (b, parent) ∈ latest _ ↔ _
  rw [mem_latest_iff, List.filter_map, List.getLast?_map]
  change ((Tip.ofBranch (Tip.inOrder tips) b).getLast?.map fun t =>
    (t.branch, Tip.lastHolder? (Tip.inOrder tips) t.base)) = some (b, parent) ↔ _
  rw [Tip.ofBranch_inOrder, Tip.base?, Option.map_map]
  cases ht : (Tip.ofBranch tips b).getLast? with
  | none => simp
  | some t =>
    have hb : t.branch = b := (Tip.mem_ofBranch.1 (List.mem_of_getLast? ht)).2
    simp [hb]

theorem parent?_ofTips (tips : List Tip) (b : String) : (ofTips tips).parent? b =
    (Tip.base? tips b).bind (Tip.lastHolder? (Tip.inOrder tips)) := by
  have hlookup : (ofTips tips).links.lookup b =
      (Tip.base? tips b).map (Tip.lastHolder? (Tip.inOrder tips)) :=
    Option.ext fun _ => (lookup_eq_some_iff (ofTips tips).nodup_branches).trans mem_links_ofTips
  rw [parent?, hlookup]
  cases Tip.base? tips b <;> rfl

theorem isParent_ofTips_iff {p : String} : (ofTips tips).IsParent p b ↔
    ∃ c, Tip.base? tips b = some c ∧ IsGreatest {x | c ∈ Tip.heads tips x} p := by
  rw [IsParent, parent?_ofTips, Option.bind_eq_some_iff]
  simp only [Tip.lastHolder?_eq_some_iff]

theorem eq_of_links {l l' : Lineage} (h : l.links = l'.links) : l = l' := by
  cases l
  cases l'
  cases h
  rfl

theorem ofTips_eq_of_agree (h : Tip.Agree tips tips') : ofTips tips = ofTips tips' := by
  have hmem : ∀ e, e ∈ (ofTips tips).links ↔ e ∈ (ofTips tips').links := by
    intro e
    rw [mem_links_ofTips, mem_links_ofTips, h.base?, h.lastHolder?_eq]
  have hincreasing : ∀ l : Lineage, l.links.Pairwise fun d e => d.1 < e.1 := fun l =>
    List.pairwise_map.1 l.increasing
  have hnodup : ∀ l : Lineage, l.links.Nodup := fun l => l.nodup_branches.of_map
  have hperm := (List.perm_ext_iff_of_nodup (hnodup _) (hnodup _)).2 hmem
  have hlinks : (ofTips tips).links = (ofTips tips').links :=
    hperm.eq_of_pairwise (fun d e _ _ hde hed => absurd (String.lt_trans hde hed) (String.lt_irrefl _))
      (hincreasing _) (hincreasing _)
  exact eq_of_links hlinks

end Lineage

theorem Tip.inOrder_eq_flatMap (tips : List Tip) :
    inOrder tips = (Lineage.ofTips tips).branches.flatMap (ofBranch tips) := by
  have hmem : ∀ t ∈ inOrder tips, t.branch ∈ (Lineage.ofTips tips).branches := fun t ht =>
    Lineage.mem_branches_ofTips.2 ⟨t, mem_inOrder.1 ht, rfl⟩
  have hsplit := eq_flatMap_ofBranch (pairwise_inOrder tips) (Lineage.ofTips tips).increasing hmem
  rwa [funext (ofBranch_inOrder tips)] at hsplit

namespace SharedHead

variable {tips : List Tip} {b c : String}

def holder? (seen : List Tip) (c : String) : Option String :=
  (seen.find? fun s => s.head = c).map Tip.branch

theorem holder?_append (near far : List Tip) (c : String) :
    holder? (near ++ far) c = (holder? near c).or (holder? far c) := by
  simp [holder?, List.find?_append, Option.map_or]

theorem holder?_of_forall_branch {seen : List Tip} (hb : ∀ s ∈ seen, s.branch = b) :
    holder? seen c = if c ∈ seen.map Tip.head then some b else none := by
  split
  next hc =>
    obtain ⟨s, hs, rfl⟩ := List.mem_map.1 hc
    have hsome : (seen.find? fun t => t.head = s.head).isSome :=
      List.find?_isSome.2 ⟨s, hs, by simp⟩
    obtain ⟨t, ht⟩ := Option.isSome_iff_exists.1 hsome
    rw [holder?, ht, Option.map_some, hb t (List.mem_of_find?_eq_some ht)]
  next hc =>
    rw [holder?, Option.map_eq_none_iff, List.find?_eq_none]
    intro s hs hsc
    exact hc (List.mem_map.2 ⟨s, hs, of_decide_eq_true hsc⟩)

theorem with?_eq (seen : List Tip) (t : Tip) : with? seen t =
    (holder? seen t.head).bind fun s => if s = t.branch then none else some ⟨t.head, t.branch, s⟩ := by
  rw [with?, holder?]
  cases seen.find? fun s => s.head = t.head <;> rfl

theorem after_append (seen xs ys : List Tip) :
    after seen (xs ++ ys) = after seen xs ++ after (xs.reverse ++ seen) ys := by
  induction xs generalizing seen with
  | nil => rfl
  | cons x xs ih => simp [after, ih]

theorem after_of_forall_branch {seen tips : List Tip} (hb : ∀ t ∈ tips, t.branch = b)
    (hseen : ∀ s ∈ seen, s.branch ≠ b) : after seen tips =
      (tips.map Tip.head).eraseDups.filterMap fun c => (holder? seen c).map fun s => ⟨c, b, s⟩ := by
  induction tips using List.reverseRecOn with
  | nil => rfl
  | append_singleton tips t ih =>
    have hbt : t.branch = b := hb t (by simp)
    have hearlier : ∀ s ∈ tips, s.branch = b := fun s hs => hb s (List.mem_append_left _ hs)
    have hlast : after (tips.reverse ++ seen) [t] = (with? (tips.reverse ++ seen) t).toList := by
      simp [after]
    rw [after_append, ih hearlier, List.map_append, List.map_singleton, List.eraseDups_append,
      List.filterMap_append, hlast, with?_eq, holder?_append,
      holder?_of_forall_branch fun s hs => hearlier s (List.mem_reverse.1 hs)]
    congr 1
    by_cases hc : t.head ∈ tips.map Tip.head
    · have hnone : [t.head].removeAll (tips.map Tip.head) = [] := by simpa [List.removeAll] using hc
      simp [hnone, List.mem_map.1 hc, hbt]
    · have hnew : [t.head].removeAll (tips.map Tip.head) = [t.head] := by
        simpa [List.removeAll] using hc
      have hreverse : t.head ∉ tips.reverse.map Tip.head := by simpa using hc
      rw [hnew, if_neg hreverse, Option.none_or]
      cases hs : holder? seen t.head with
      | none => simp [hs, List.eraseDups_cons]
      | some s =>
        obtain ⟨u, hu, rfl⟩ := Option.map_eq_some_iff.1 hs
        have hne : u.branch ≠ b := hseen u (List.mem_of_find?_eq_some hu)
        simp [hs, hne, hbt, List.eraseDups_cons]

def shadowed? (tips : List Tip) (names : List String) (b c : String) : Option String :=
  (names.filter fun x => x < b && c ∈ Tip.heads tips x).getLast?

theorem after_flatMap {seen : List Tip} {done names : List String}
    (hnames : (done ++ names).Pairwise (· < ·)) (hseen : ∀ s ∈ seen, s.branch ∈ done)
    (hholder : ∀ c, holder? seen c = (done.filter fun x => c ∈ Tip.heads tips x).getLast?) :
    after seen (names.flatMap (Tip.ofBranch tips)) =
      names.flatMap fun b => (Tip.heads tips b).filterMap fun c =>
        (shadowed? tips (done ++ names) b c).map fun s => ⟨c, b, s⟩ := by
  induction names generalizing seen done with
  | nil => rfl
  | cons b names ih =>
    obtain ⟨-, hlater, hbefore⟩ := List.pairwise_append.1 hnames
    have hlt : ∀ x ∈ done, x < b := fun x hx => hbefore x hx b List.mem_cons_self
    have hgroup : ∀ t ∈ Tip.ofBranch tips b, t.branch = b := fun t ht => (Tip.mem_ofBranch.1 ht).2
    have hfresh : ∀ s ∈ seen, s.branch ≠ b := fun s hs he =>
      String.lt_irrefl b (he ▸ hlt _ (hseen s hs))
    have hfirst : ∀ c, holder? seen c = shadowed? tips (done ++ b :: names) b c := by
      intro c
      have hnone : (b :: names).filter (fun x => x < b && c ∈ Tip.heads tips x) = [] := by
        refine List.filter_eq_nil_iff.2 fun x hx => ?_
        have hle : ¬ x < b := by
          rcases List.mem_cons.1 hx with rfl | hx
          · exact String.lt_irrefl x
          · exact String.lt_asymm ((List.pairwise_cons.1 hlater).1 x hx)
        simp [hle]
      have hdone : done.filter (fun x => x < b && c ∈ Tip.heads tips x) =
          done.filter fun x => c ∈ Tip.heads tips x :=
        List.filter_congr fun x hx => by simp [hlt x hx]
      rw [hholder, shadowed?, List.filter_append, hnone, List.append_nil, hdone]
    rw [List.flatMap_cons, after_append, after_of_forall_branch hgroup hfresh, List.flatMap_cons]
    congr 1
    · exact List.filterMap_congr fun c _ => by rw [hfirst]
    · have hassoc : done ++ b :: names = (done ++ [b]) ++ names := by simp
      rw [hassoc] at hnames ⊢
      refine ih hnames (fun s hs => ?_) fun c => ?_
      · rcases List.mem_append.1 hs with hs | hs
        · simp [hgroup s (List.mem_reverse.1 hs)]
        · exact List.mem_append_left _ (hseen s hs)
      · have hmem : c ∈ (Tip.ofBranch tips b).reverse.map Tip.head ↔ c ∈ Tip.heads tips b := by
          simp [Tip.heads]
        rw [holder?_append, holder?_of_forall_branch fun s hs => hgroup s (List.mem_reverse.1 hs),
          hholder, List.filter_append, List.getLast?_append]
        by_cases hc : c ∈ Tip.heads tips b
        · rw [if_pos (hmem.2 hc)]
          simp [hc]
        · rw [if_neg (hmem.not.2 hc)]
          simp [hc]

/-- Through the branches in name order, each of their heads is reported with the last branch
before that has it. -/
theorem ofTips_eq_flatMap (tips : List Tip) : ofTips tips =
    (Lineage.ofTips tips).branches.flatMap fun b => (Tip.heads tips b).filterMap fun c =>
      (shadowed? tips (Lineage.ofTips tips).branches b c).map fun s => ⟨c, b, s⟩ := by
  rw [ofTips, Tip.inOrder_eq_flatMap]
  have hstart : ∀ c, holder? [] c =
      (([] : List String).filter fun x => c ∈ Tip.heads tips x).getLast? := fun c => rfl
  have hnames : ([] ++ (Lineage.ofTips tips).branches).Pairwise (· < ·) :=
    (Lineage.ofTips tips).increasing
  exact after_flatMap hnames (by simp) hstart

theorem ofTips_eq_of_agree {tips' : List Tip} (h : Tip.Agree tips tips') :
    ofTips tips = ofTips tips' := by
  have hheads : Tip.heads tips = Tip.heads tips' := funext h.heads
  rw [ofTips_eq_flatMap, ofTips_eq_flatMap tips', Lineage.ofTips_eq_of_agree h]
  unfold shadowed?
  rw [hheads]

end SharedHead

namespace Tip

variable {tips tips' : List Tip}

theorem Agree.of_ofBranch (h : ∀ b, ofBranch tips b = ofBranch tips' b) : Agree tips tips' := by
  have hmem : ∀ (tips : List Tip) b, b ∈ tips.map branch ↔ ofBranch tips b ≠ [] := by
    intro tips b
    simp [ofBranch]
  refine ⟨fun b => ?_, fun b => ?_, fun b => ?_⟩
  · rw [hmem, hmem, h]
  · rw [Tip.heads, h, Tip.heads]
  · rw [Tip.base?, h, Tip.base?]

theorem Agree.of_perm (h : tips.Perm tips') (hnames : (tips.map branch).Nodup) :
    Agree tips tips' := by
  refine .of_ofBranch fun b => ?_
  have hperm : (ofBranch tips b).Perm (ofBranch tips' b) := h.filter _
  -- a branch has at most one tip
  have hbranches : (ofBranch tips b).map branch = List.replicate (ofBranch tips b).length b :=
    List.map_eq_replicate_iff.2 fun t ht => (mem_ofBranch.1 ht).2
  have hnodup : ((ofBranch tips b).map branch).Nodup :=
    hnames.sublist (List.filter_sublist.map branch)
  rw [hbranches, List.nodup_replicate] at hnodup
  match hone : ofBranch tips b with
  | [] => rw [hone] at hperm; exact hperm.nil_eq
  | [t] => rw [hone] at hperm; exact (List.perm_singleton.1 hperm.symm).symm
  | s :: t :: rest => simp [hone] at hnodup

theorem ofBranch_append (tips tips' : List Tip) (b : String) :
    ofBranch (tips ++ tips') b = ofBranch tips b ++ ofBranch tips' b := List.filter_append ..

theorem heads_append_of_known {b : String} (h : ∀ t ∈ tips', t.branch = b → t.head ∈ heads tips b) :
    heads (tips ++ tips') b = heads tips b := by
  have hnone : ((ofBranch tips' b).map head).removeAll ((ofBranch tips b).map head) = [] := by
    refine List.filter_eq_nil_iff.2 fun c hc => ?_
    obtain ⟨t, ht, rfl⟩ := List.mem_map.1 hc
    obtain ⟨ht, hb⟩ := mem_ofBranch.1 ht
    simpa using List.mem_eraseDups.1 (h t ht hb)
  rw [heads, ofBranch_append, List.map_append, List.eraseDups_append, hnone, List.eraseDups_nil,
    List.append_nil, heads]

theorem Agree.append_left (h : Agree tips tips') : Agree tips (tips ++ tips') := by
  refine ⟨fun b => ?_, fun b => ?_, fun b => ?_⟩
  · rw [List.map_append, List.mem_append, ← h.branches, or_self]
  · refine (heads_append_of_known fun t ht hb => ?_).symm
    rw [h.heads]
    exact mem_heads.2 ⟨t, ht, hb, rfl⟩
  · have hbase : Tip.base? tips b = Tip.base? tips' b := h.base? b
    rw [Tip.base?, Tip.base?] at hbase
    rw [Tip.base?, Tip.base?, ofBranch_append, List.getLast?_append, Option.map_or, ← hbase,
      Option.or_self]

theorem Agree.flatten_replicate (tips : List Tip) (n : ℕ) :
    Agree tips (List.replicate (n + 1) tips).flatten := by
  induction n with
  | zero => simpa using Agree.of_ofBranch fun b => rfl
  | succ n ih =>
    rw [List.replicate_succ, List.flatten_cons]
    exact ih.append_left

end Tip

namespace Plan

structure Same (tips tips' : List Tip) : Prop where
  plan : ofTips tips = ofTips tips'
  branches : (Lineage.ofTips tips).branches = (Lineage.ofTips tips').branches
  parent? : ∀ b, (Lineage.ofTips tips).parent? b = (Lineage.ofTips tips').parent? b
  climb : ∀ b, (Lineage.ofTips tips).climb b = (Lineage.ofTips tips').climb b

theorem Same.of_agree {tips tips' : List Tip} (h : Tip.Agree tips tips') : Same tips tips' := by
  have hlineage := Lineage.ofTips_eq_of_agree h
  refine ⟨?_, by rw [hlineage], fun b => by rw [hlineage], fun b => by rw [hlineage]⟩
  rw [ofTips, ofTips, hlineage, SharedHead.ofTips_eq_of_agree h]

/-- Readings that agree on each branch give the same plan. So the order of readings of different
branches and a repetition of the whole reading do not count. -/
theorem same_of_agree :
    (∀ tips tips', Tip.Agree tips tips' → Same tips tips') ∧
    (∀ tips tips', tips.Perm tips' → (tips.map Tip.branch).Nodup → Same tips tips') ∧
    (∀ tips tips', (∀ b, tips.filter (fun t => t.branch = b) = tips'.filter fun t => t.branch = b) →
      Same tips tips') ∧
    ∀ tips n, Same tips (List.replicate (n + 1) tips).flatten := by
  refine ⟨fun _ _ => Same.of_agree, ?_, ?_, ?_⟩
  · intro tips tips' hperm hnames
    exact .of_agree (.of_perm hperm hnames)
  · intro tips tips' hbranch
    exact .of_agree (.of_ofBranch hbranch)
  · intro tips n
    exact .of_agree (.flatten_replicate tips n)

def mixed : List Tip :=
  [⟨"b", "x", "r"⟩, ⟨"a", "y", "x"⟩, ⟨"b", "z", "q"⟩, ⟨"c", "x", "z"⟩, ⟨"b", "x", "y"⟩]

def remixed : List Tip :=
  [⟨"c", "x", "q"⟩, ⟨"b", "x", "a"⟩, ⟨"b", "x", "b"⟩, ⟨"b", "z", "y"⟩, ⟨"c", "x", "z"⟩,
    ⟨"a", "y", "x"⟩]

theorem same_mixed_remixed : Tip.Agree mixed remixed ∧ Same mixed remixed := by
  have hagree : Tip.Agree mixed remixed := by
    have hcases : ∀ b, b ∈ ["a", "b", "c"] ∨
        Tip.ofBranch mixed b = [] ∧ Tip.ofBranch remixed b = [] := by
      simp only [Tip.ofBranch, mixed, remixed, List.filter_eq_nil_iff]
      grind
    have hnamed : ∀ b ∈ ["a", "b", "c"], Tip.heads mixed b = Tip.heads remixed b ∧
        Tip.base? mixed b = Tip.base? remixed b := by decide
    have hbranches : ∀ b, b ∈ mixed.map Tip.branch ↔ b ∈ remixed.map Tip.branch := by
      simp only [mixed, remixed, List.map_cons, List.map_nil, List.mem_cons]
      grind
    refine ⟨hbranches, fun b => ?_, fun b => ?_⟩
    · rcases hcases b with hb | ⟨hb, hb'⟩
      · exact (hnamed b hb).1
      · simp [Tip.heads, hb, hb']
    · rcases hcases b with hb | ⟨hb, hb'⟩
      · exact (hnamed b hb).2
      · simp [Tip.base?, hb, hb']
  exact ⟨hagree, same_of_agree.1 _ _ hagree⟩

end Plan

end Restack
