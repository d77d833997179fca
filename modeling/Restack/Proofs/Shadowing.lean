import Mathlib.Algebra.BigOperators.Group.Finset.Basic
import Mathlib.Data.Prod.Lex
import Restack.Proofs.SharedHeads

/-!
# All reports of shared heads

The branches that share a head, in name order, are reported in turn: each but the first is kept, and
shadows the one right before it. Reports about different heads are mixed by the branch that they
keep, and those that keep one branch come in the order in which its heads were first read. There is
one report for each head of a branch, less one for each head.
-/

namespace Restack

namespace Tip

variable {tips : List Tip} {b c : String}

def firstWith (tips : List Tip) (b c : String) : ℕ :=
  tips.findIdx fun t => t.branch = b && t.head = c

theorem heads_concat_of_new {t : Tip} (hb : t.branch = b) (h : t.head ∉ heads tips b) :
    heads (tips ++ [t]) b = heads tips b ++ [t.head] := by
  have hgroup : ofBranch [t] b = [t] := by simp [ofBranch, hb]
  have hnew : [t.head].removeAll ((ofBranch tips b).map head) = [t.head] := by
    simpa [List.removeAll] using mt List.mem_eraseDups.2 h
  rw [heads, ofBranch_append, List.map_append, List.eraseDups_append, hgroup, List.map_singleton,
    hnew, List.eraseDups_cons, List.filter_nil, List.eraseDups_nil, heads]

theorem firstWith_lt_length (hc : c ∈ heads tips b) : firstWith tips b c < tips.length := by
  obtain ⟨t, ht, hb, hhead⟩ := mem_heads.1 hc
  exact List.findIdx_lt_length.2 ⟨t, ht, by simp [hb, hhead]⟩

theorem firstWith_append (hc : c ∈ heads tips b) (later : List Tip) :
    firstWith (tips ++ later) b c = firstWith tips b c :=
  List.findIdx_append.trans (if_pos (firstWith_lt_length hc))

theorem firstWith_concat_of_new {t : Tip} (hb : t.branch = b) (h : t.head ∉ heads tips b) :
    firstWith (tips ++ [t]) b t.head = tips.length := by
  have hnone : firstWith tips b t.head = tips.length := by
    refine List.findIdx_eq_length.2 fun s hs => ?_
    simpa using fun hsb hhead => h (mem_heads.2 ⟨s, hs, hsb, hhead⟩)
  have hend : ¬ firstWith tips b t.head < tips.length := by omega
  refine List.findIdx_append.trans ((if_neg hend).trans ?_)
  simp [hb]

theorem pairwise_firstWith_heads (tips : List Tip) (b : String) :
    (heads tips b).Pairwise fun c d => firstWith tips b c < firstWith tips b d := by
  induction tips using List.reverseRecOn with
  | nil => exact .nil
  | append_singleton tips t ih =>
    have hearlier : (heads tips b).Pairwise fun c d =>
        firstWith (tips ++ [t]) b c < firstWith (tips ++ [t]) b d := by
      refine ih.imp_of_mem fun hc hd h => ?_
      rwa [firstWith_append hc, firstWith_append hd]
    by_cases hnew : t.branch = b ∧ t.head ∉ heads tips b
    · obtain ⟨hb, hhead⟩ := hnew
      rw [heads_concat_of_new hb hhead, List.pairwise_append]
      refine ⟨hearlier, List.pairwise_singleton _ _, fun c hc d hd => ?_⟩
      rw [List.mem_singleton.1 hd, firstWith_concat_of_new hb hhead, firstWith_append hc]
      exact firstWith_lt_length hc
    · rwa [heads_append_of_known]
      intro s hs hb
      obtain rfl : s = t := List.mem_singleton.1 hs
      exact not_not.1 fun hhead => hnew ⟨hb, hhead⟩

end Tip

namespace SharedHead

variable {tips : List Tip} {names : List String} {r : SharedHead} {b c : String}

/-- The reports about a head that these branches have: each of them but the first is kept, and the
one before it is shadowed. -/
def inTurn (c : String) (names : List String) : List SharedHead :=
  List.zipWith (fun x y => ⟨c, y, x⟩) names names.tail

theorem map_kept_inTurn (c : String) (names : List String) :
    (inTurn c names).map kept = names.tail := by
  rw [inTurn, List.map_zipWith]
  induction names with
  | nil => rfl
  | cons x rest ih =>
    cases rest with
    | nil => rfl
    | cons y rest => exact congrArg (y :: ·) ih

theorem mem_inTurn_iff_append : r ∈ inTurn c names ↔
    r.head = c ∧ ∃ before after, names = before ++ r.shadowed :: r.kept :: after := by
  induction names with
  | nil => simp [inTurn]
  | cons x rest ih =>
    cases rest with
    | nil => simp [inTurn, List.cons_eq_append_iff]
    | cons y rest =>
      change r ∈ ⟨c, y, x⟩ :: inTurn c (y :: rest) ↔ _
      rw [List.mem_cons, ih]
      constructor
      · intro h
        rcases h with rfl | ⟨hc, before, after, hsplit⟩
        · exact ⟨rfl, [], rest, rfl⟩
        · exact ⟨hc, x :: before, after, congrArg (x :: ·) hsplit⟩
      · intro h
        obtain ⟨rfl, before, after, hsplit⟩ := h
        cases before with
        | nil =>
          obtain ⟨rfl, hrest⟩ := List.cons.inj hsplit
          obtain ⟨rfl, -⟩ := List.cons.inj hrest
          exact .inl rfl
        | cons z before => exact .inr ⟨rfl, before, after, (List.cons.inj hsplit).2⟩

theorem mem_inTurn_iff (h : names.Pairwise (· < ·)) : r ∈ inTurn c names ↔
    r.head = c ∧ r.kept ∈ names ∧ IsGreatest {x | x < r.kept ∧ x ∈ names} r.shadowed := by
  have hbefore : ∀ {before after}, names = before ++ r.kept :: after →
      (IsGreatest {x | x < r.kept ∧ x ∈ names} r.shadowed ↔ before.getLast? = some r.shadowed) := by
    intro before after hsplit
    rw [hsplit] at h
    rw [getLast?_eq_some_iff_isGreatest (List.pairwise_append.1 h).1, hsplit]
    simp only [mem_iff_of_increasing h]
  rw [mem_inTurn_iff_append]
  refine and_congr_right fun _ => ?_
  constructor
  · intro hsplit
    obtain ⟨before, after, hsplit⟩ := hsplit
    have hsplit' : names = (before ++ [r.shadowed]) ++ r.kept :: after := by simp [hsplit]
    exact ⟨by simp [hsplit], (hbefore hsplit').2 (by simp)⟩
  · intro hgreatest
    obtain ⟨hmem, hgreatest⟩ := hgreatest
    obtain ⟨before, after, hsplit⟩ := List.append_of_mem hmem
    obtain ⟨front, rfl⟩ := List.getLast?_eq_some_iff.1 ((hbefore hsplit).1 hgreatest)
    exact ⟨front, after, by simp [hsplit]⟩

def place (tips : List Tip) (r : SharedHead) : String ×ₗ ℕ :=
  toLex (r.kept, Tip.firstWith tips r.kept r.head)

theorem pairwise_place_ofTips (tips : List Tip) :
    (ofTips tips).Pairwise fun r s => place tips r < place tips s := by
  have hkept : ∀ {b : String} {r : SharedHead}, r ∈ (Tip.heads tips b).filterMap (fun c =>
      (shadowed? tips (Lineage.ofTips tips).branches b c).map fun s => ⟨c, b, s⟩) → r.kept = b := by
    intro b r hr
    obtain ⟨c, -, hc⟩ := List.mem_filterMap.1 hr
    obtain ⟨x, -, rfl⟩ := Option.map_eq_some_iff.1 hc
    rfl
  simp only [ofTips_eq_flatMap, List.pairwise_flatMap, List.pairwise_filterMap, place,
    Prod.Lex.toLex_lt_toLex]
  constructor
  · intro b _
    refine (Tip.pairwise_firstWith_heads tips b).imp fun hlt r hr s hs => ?_
    obtain ⟨x, -, rfl⟩ := Option.map_eq_some_iff.1 hr
    obtain ⟨y, -, rfl⟩ := Option.map_eq_some_iff.1 hs
    exact .inr ⟨rfl, hlt⟩
  · refine (Lineage.ofTips tips).increasing.imp fun hlt r hr s hs => ?_
    rw [hkept hr, hkept hs]
    exact .inl hlt

def holders (tips : List Tip) (c : String) : List String :=
  (Lineage.ofTips tips).branches.filter fun b => c ∈ Tip.heads tips b

theorem mem_holders : b ∈ holders tips c ↔ c ∈ Tip.heads tips b := by
  simp only [holders, List.mem_filter, decide_eq_true_eq]
  exact and_iff_right_of_imp mem_branches_of_mem_heads

theorem pairwise_holders (tips : List Tip) (c : String) : (holders tips c).Pairwise (· < ·) :=
  (Lineage.ofTips tips).increasing.filter _

theorem filter_ofTips_eq_inTurn (tips : List Tip) (c : String) :
    (ofTips tips).filter (fun r => r.head = c) = inTurn c (holders tips c) := by
  have hincreasing := pairwise_holders tips c
  have hmem : ∀ r, r ∈ (ofTips tips).filter (fun r => r.head = c) ↔
      r ∈ inTurn c (holders tips c) := by
    intro r
    simp only [List.mem_filter, decide_eq_true_eq, mem_inTurn_iff hincreasing, mem_ofTips_iff,
      mem_holders]
    refine and_comm.trans (and_congr_right fun he => ?_)
    rw [he]
  -- about one head no two reports keep the same branch
  have hleft : ((ofTips tips).filter fun r => r.head = c).Pairwise fun r s => r.kept < s.kept := by
    refine ((pairwise_place_ofTips tips).filter _).imp_of_mem fun hr hs hlt => ?_
    have hr := of_decide_eq_true (List.mem_filter.1 hr).2
    have hs := of_decide_eq_true (List.mem_filter.1 hs).2
    simp only [place, Prod.Lex.toLex_lt_toLex, hr, hs] at hlt
    rcases hlt with hlt | ⟨he, hlt⟩
    · exact hlt
    · rw [he] at hlt
      exact absurd hlt (lt_irrefl _)
  have hright : (inTurn c (holders tips c)).Pairwise fun r s => r.kept < s.kept := by
    rw [← List.pairwise_map, map_kept_inTurn]
    exact hincreasing.tail
  have hnodup : ∀ {rs : List SharedHead}, rs.Pairwise (fun r s => r.kept < s.kept) → rs.Nodup :=
    fun h => h.imp fun hlt he => (he ▸ hlt).false
  have hperm := (List.perm_ext_iff_of_nodup (hnodup hleft) (hnodup hright)).2 hmem
  exact hperm.eq_of_pairwise (fun _ _ _ _ hrs hsr => absurd hrs hsr.asymm) hleft hright

theorem length_inTurn (c : String) (names : List String) :
    (inTurn c names).length = names.length - 1 := by
  have hlength := congrArg List.length (map_kept_inTurn c names)
  rwa [List.length_map, List.length_tail] at hlength

theorem length_filter_ofTips {c : String} (hc : c ∈ tips.map Tip.head) :
    ((ofTips tips).filter fun r => r.head = c).length + 1 = (holders tips c).length := by
  obtain ⟨t, ht, rfl⟩ := List.mem_map.1 hc
  have hpos : 0 < (holders tips t.head).length :=
    List.length_pos_of_mem (mem_holders.2 (Tip.mem_heads.2 ⟨t, ht, rfl, rfl⟩))
  rw [filter_ofTips_eq_inTurn, length_inTurn]
  omega

theorem length_ofTips_eq_sum (tips : List Tip) : (ofTips tips).length =
    ∑ c ∈ (tips.map Tip.head).toFinset, ((ofTips tips).filter fun r => r.head = c).length := by
  have hnodup : (ofTips tips).Nodup :=
    (pairwise_place_ofTips tips).imp fun hlt he => (he ▸ hlt).false
  have hheads : Set.MapsTo head ↑(ofTips tips).toFinset ↑(tips.map Tip.head).toFinset := by
    intro r hr
    obtain ⟨t, ht, -, hhead⟩ := Tip.mem_heads.1 (mem_ofTips_iff.1 (List.mem_toFinset.1 hr)).1
    exact List.mem_toFinset.2 (List.mem_map.2 ⟨t, ht, hhead⟩)
  rw [← List.toFinset_card_of_nodup hnodup, Finset.card_eq_sum_card_fiberwise hheads]
  refine Finset.sum_congr rfl fun c _ => ?_
  rw [← List.toFinset_card_of_nodup (hnodup.filter _), List.toFinset_filter]
  simp only [decide_eq_true_eq]

theorem card_pairs_eq_sum (tips : List Tip) :
    (tips.map fun t => (t.branch, t.head)).toFinset.card =
      ∑ c ∈ (tips.map Tip.head).toFinset, (holders tips c).length := by
  have hheads : Set.MapsTo (Prod.snd : String × String → String)
      ↑(tips.map fun t => (t.branch, t.head)).toFinset ↑(tips.map Tip.head).toFinset := by
    intro pair hpair
    obtain ⟨t, ht, rfl⟩ := List.mem_map.1 (List.mem_toFinset.1 hpair)
    exact List.mem_toFinset.2 (List.mem_map_of_mem ht)
  rw [Finset.card_eq_sum_card_fiberwise hheads]
  refine Finset.sum_congr rfl fun c _ => ?_
  have hfiber : {pair ∈ (tips.map fun t => (t.branch, t.head)).toFinset | pair.2 = c} =
      ((holders tips c).map fun b => (b, c)).toFinset := by
    ext pair
    obtain ⟨b, c'⟩ := pair
    simp only [Finset.mem_filter, List.mem_toFinset, List.mem_map, mem_holders, Tip.mem_heads,
      Prod.mk.injEq]
    grind
  have hholders : (holders tips c).Nodup := (Lineage.ofTips tips).nodup_branches.filter _
  have hnodup : ((holders tips c).map fun b => (b, c)).Nodup :=
    hholders.map fun _ _ he => congrArg Prod.fst he
  rw [hfiber, List.toFinset_card_of_nodup hnodup, List.length_map]

theorem length_ofTips_add (tips : List Tip) :
    (ofTips tips).length + (tips.map Tip.head).toFinset.card =
      (tips.map fun t => (t.branch, t.head)).toFinset.card := by
  rw [length_ofTips_eq_sum, card_pairs_eq_sum, Finset.card_eq_sum_ones, ← Finset.sum_add_distrib]
  exact Finset.sum_congr rfl fun c hc => length_filter_ofTips (List.mem_toFinset.1 hc)

end SharedHead

namespace Plan

/-- The reports of a plan about one head are those of the branches that have it, each with the next
one. All reports are ordered by the branch that is kept, and then by the place of the first tip that
gave it this head, so that none comes twice. -/
theorem sharedHeads_ofTips (tips : List Tip) :
    let shared := (ofTips tips).sharedHeads
    (∀ c, ∃ names : List String, names.Pairwise (· < ·) ∧
      (∀ b, b ∈ names ↔ ∃ t ∈ tips, t.branch = b ∧ t.head = c) ∧
      shared.filter (fun r => r.head = c) =
        List.zipWith (fun x y => ⟨c, y, x⟩) names names.tail) ∧
    shared.Pairwise (fun r s => r.kept < s.kept ∨ r.kept = s.kept ∧
      tips.findIdx (fun t => t.branch = r.kept && t.head = r.head) <
        tips.findIdx (fun t => t.branch = s.kept && t.head = s.head)) ∧
    shared.length + (tips.map Tip.head).toFinset.card =
      (tips.map fun t => (t.branch, t.head)).toFinset.card := by
  intro shared
  refine ⟨fun c => ?_, ?_, SharedHead.length_ofTips_add tips⟩
  · refine ⟨SharedHead.holders tips c, SharedHead.pairwise_holders tips c, fun b => ?_, ?_⟩
    · rw [SharedHead.mem_holders, Tip.mem_heads]
    · exact SharedHead.filter_ofTips_eq_inTurn tips c
  · exact (SharedHead.pairwise_place_ofTips tips).imp Prod.Lex.toLex_lt_toLex.1

example : SharedHead.ofTips [⟨"c", "x", "r"⟩, ⟨"b", "y", "r"⟩, ⟨"a", "x", "r"⟩, ⟨"a", "y", "r"⟩,
    ⟨"b", "x", "r"⟩, ⟨"b", "y", "r"⟩] = [⟨"y", "b", "a"⟩, ⟨"x", "b", "a"⟩, ⟨"x", "c", "b"⟩] := by
  cbv

end Plan

end Restack
