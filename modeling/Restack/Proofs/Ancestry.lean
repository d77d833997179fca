import Mathlib.Data.List.Chain
import Mathlib.Data.List.Nodup
import Restack.Lineage

/-!
# Paths of ancestors

A path runs from a branch down to one of its descendants, never visits a branch twice, and cannot
be continued above its root: the root has no parent, or its parent lies on the path. For every
branch there is exactly one such path that ends in it, and it is the one that climbing finds.
-/

namespace Restack

namespace Climb

variable {parent? : String → Option String} {pool : List String} {b : String}

theorem within_path_eq (hpool : pool.Nodup) :
    ∃ above, (within parent? pool b).path = above ++ [b] ∧ above.Nodup ∧ above ⊆ pool := by
  fun_induction within parent? pool b with
  | case1 pool b _ => exact ⟨[], rfl, List.nodup_nil, List.nil_subset _⟩
  | case2 pool b p _ hp above ih =>
    obtain ⟨rest, hpath, hnodup, hsub⟩ := ih (hpool.erase p)
    refine ⟨rest ++ [p], by rw [hpath], ?_, ?_⟩
    · have hnot : p ∉ rest := fun h => (hpool.mem_erase_iff.1 (hsub h)).1 rfl
      simpa using hnodup.concat hnot
    · intro x hx
      rcases List.mem_append.1 hx with hx | hx
      · exact List.mem_of_mem_erase (hsub hx)
      · exact List.mem_singleton.1 hx ▸ hp
  | case3 pool b _ _ _ => exact ⟨[], rfl, List.nodup_nil, List.nil_subset _⟩

theorem within_getLast? (hpool : pool.Nodup) :
    (within parent? pool b).path.getLast? = some b := by
  obtain ⟨above, hpath, -, -⟩ := @within_path_eq parent? pool b hpool
  rw [hpath, List.getLast?_append, List.getLast?_singleton, Option.some_or]

theorem within_linked (hpool : pool.Nodup) :
    (within parent? pool b).path.IsChain fun p c => parent? c = some p := by
  fun_induction within parent? pool b with
  | case1 pool b _ => exact List.isChain_singleton b
  | case2 pool b p hparent _ above ih =>
    refine (ih (hpool.erase p)).append (List.isChain_singleton b) fun x hx y hy => ?_
    have hlast : above.path.getLast? = some p := within_getLast? (hpool.erase p)
    obtain rfl : p = x := by rwa [hlast, Option.mem_some_iff] at hx
    obtain rfl : b = y := by simpa using hy
    exact hparent
  | case3 pool b _ _ _ => exact List.isChain_singleton b

theorem within_rooted (hpool : pool.Nodup) {r p : String}
    (hr : (within parent? pool b).path.head? = some r) (hp : parent? r = some p) :
    p ∈ (within parent? pool b).path ∨ p ∉ pool := by
  fun_induction within parent? pool b with
  | case1 pool b hnone =>
    obtain rfl : b = r := by simpa using hr
    rw [hnone] at hp
    cases hp
  | case2 pool b q _ hq above ih =>
    have hlast : above.path.getLast? = some q := within_getLast? (hpool.erase q)
    have hhead : above.path.head? = some r := by
      rwa [List.head?_append_of_ne_nil _ fun h => by simp [h] at hlast] at hr
    rcases ih (hpool.erase q) hhead with hmem | hout
    · exact Or.inl (List.mem_append_left _ hmem)
    · by_cases hpq : p = q
      · exact Or.inl (List.mem_append_left _ (hpq ▸ List.mem_of_getLast? hlast))
      · exact Or.inr fun hpool' => hout ((List.mem_erase_of_ne hpq).2 hpool')
  | case3 pool b q hparent hq =>
    obtain rfl : b = r := by simpa using hr
    obtain rfl : q = p := Option.some.inj (hparent.symm.trans hp)
    exact Or.inr hq

theorem within_looped_iff (hpool : pool.Nodup) : (within parent? pool b).looped ↔
    ∃ r p, (within parent? pool b).path.head? = some r ∧ parent? r = some p := by
  fun_induction within parent? pool b with
  | case1 pool b hnone => simp [hnone]
  | case2 pool b q _ _ above ih =>
    have hlast : above.path.getLast? = some q := within_getLast? (hpool.erase q)
    have hne : above.path ≠ [] := fun h => by simp [h] at hlast
    rw [List.head?_append_of_ne_nil _ hne]
    exact ih (hpool.erase q)
  | case3 pool b q hparent _ => simp [hparent]

end Climb

namespace Lineage

variable {l : Lineage}

def IsParent (l : Lineage) (p b : String) : Prop := l.parent? b = some p

theorem IsParent.eq {p q b : String} (h : l.IsParent p b) (h' : l.IsParent q b) : p = q :=
  Option.some.inj (h.symm.trans h')

structure IsPath (l : Lineage) (path : List String) : Prop where
  nodup : path.Nodup
  linked : path.IsChain l.IsParent
  rooted : ∀ r, path.head? = some r → ∀ p, l.IsParent p r → p ∈ path

theorem climb_isPath (l : Lineage) (b : String) : l.IsPath (l.climb b).path := by
  have hpool : (l.branches.erase b).Nodup := l.nodup_branches.erase b
  rw [climb_eq_within]
  obtain ⟨above, hpath, hnodup, hsub⟩ := @Climb.within_path_eq l.parent? _ b hpool
  refine ⟨?_, Climb.within_linked hpool, fun r hr p hp => ?_⟩
  · rw [hpath]
    have hb : b ∉ above := fun h => (l.nodup_branches.mem_erase_iff.1 (hsub h)).1 rfl
    simpa using hnodup.concat hb
  · rcases Climb.within_rooted hpool hr hp with hmem | hout
    · exact hmem
    -- a parent outside of the pool can only be the branch that the climb began at
    · have hb : p = b := by
        by_contra hne
        exact hout ((List.mem_erase_of_ne hne).2 (mem_branches_of_parent? hp).2)
      rw [hb, hpath]
      exact List.mem_append_right above (List.mem_singleton_self b)

theorem climb_getLast? (l : Lineage) (b : String) : (l.climb b).path.getLast? = some b := by
  rw [climb_eq_within]
  exact Climb.within_getLast? (l.nodup_branches.erase b)

theorem mem_climb_self (l : Lineage) (b : String) : b ∈ (l.climb b).path :=
  List.mem_of_getLast? (l.climb_getLast? b)

theorem climb_looped_iff {b : String} : (l.climb b).looped ↔
    ∃ r p, (l.climb b).path.head? = some r ∧ l.IsParent p r := by
  rw [climb_eq_within]
  exact Climb.within_looped_iff (l.nodup_branches.erase b)

theorem climb_induction {P : String → Prop} {b x : String}
    (hup : ∀ p c, l.IsParent p c → P c → P p) (hb : P b) (hx : x ∈ (l.climb b).path) : P x := by
  refine (l.climb_isPath b).linked.backwards_induction P _ hup ?_ x hx
  intro hne
  have hlast := List.getLast?_eq_some_getLast hne
  rw [climb_getLast?] at hlast
  rwa [← Option.some.inj hlast]

theorem climb_subset_branches {b : String} (hb : b ∈ l.branches) :
    (l.climb b).path ⊆ l.branches := fun _ hx =>
  climb_induction (fun _ _ hpc _ => (mem_branches_of_parent? hpc).2) hb hx

namespace IsPath

theorem isParent_of_append {P U : List String} {p c : String}
    (h : l.IsPath (P ++ p :: c :: U)) : l.IsParent p c :=
  (List.isChain_append_cons_cons.1 h.linked).2.1

theorem not_mem_of_append {P U : List String} {p c : String}
    (h : l.IsPath (P ++ p :: c :: U)) : p ∉ c :: U :=
  (List.nodup_cons.1 (List.nodup_append.1 h.nodup).2.1).1

/-- Going up from `c`, two paths cannot part, and neither can stop before the other. -/
theorem above_eq {P Q U : List String} {c : String} (hP : l.IsPath (P ++ c :: U))
    (hQ : l.IsPath (Q ++ c :: U)) : P = Q := by
  induction P using List.reverseRecOn generalizing Q c U with
  | nil =>
    rcases Q.eq_nil_or_concat' with rfl | ⟨Q', q, rfl⟩
    · rfl
    · rw [List.append_assoc] at hQ
      have hmem : q ∈ c :: U := hP.rooted c rfl q hQ.isParent_of_append
      exact absurd hmem hQ.not_mem_of_append
  | append_singleton P' p ih =>
    rw [List.append_assoc] at hP
    rcases Q.eq_nil_or_concat' with rfl | ⟨Q', q, rfl⟩
    · have hmem : p ∈ c :: U := hQ.rooted c rfl p hP.isParent_of_append
      exact absurd hmem hP.not_mem_of_append
    · rw [List.append_assoc] at hQ
      obtain rfl : p = q := hP.isParent_of_append.eq hQ.isParent_of_append
      rw [ih hP hQ]

theorem unique {P Q : List String} {b : String} (hP : l.IsPath P) (hQ : l.IsPath Q)
    (hPb : P.getLast? = some b) (hQb : Q.getLast? = some b) : P = Q := by
  obtain ⟨P', rfl⟩ := List.getLast?_eq_some_iff.1 hPb
  obtain ⟨Q', rfl⟩ := List.getLast?_eq_some_iff.1 hQb
  rw [above_eq hP hQ]

theorem parent_mem {path : List String} {p x : String} (h : l.IsPath path) (hx : x ∈ path)
    (hp : l.IsParent p x) : p ∈ path := by
  obtain ⟨above, below, rfl⟩ := List.append_of_mem hx
  rcases above.eq_nil_or_concat' with rfl | ⟨above', a, rfl⟩
  · exact h.rooted x rfl p hp
  · rw [List.append_assoc] at h
    rw [hp.eq h.isParent_of_append]
    simp

end IsPath

theorem climb_eq_of_isPath {path : List String} {b : String} (h : l.IsPath path)
    (hb : path.getLast? = some b) : (l.climb b).path = path :=
  (l.climb_isPath b).unique h (l.climb_getLast? b) hb

theorem climb_subset {b x : String} (hx : x ∈ (l.climb b).path) :
    (l.climb x).path ⊆ (l.climb b).path := fun _ hy =>
  climb_induction (fun _ _ hpc hc => (l.climb_isPath b).parent_mem hc hpc) hx hy

theorem links_ofTips_of_pairwise {tips : List Tip} (h : tips.Pairwise (Tip.before · ·)) :
    (ofTips tips).links = linksOf tips := by
  change linksOf (Tip.inOrder tips) = linksOf tips
  rw [Tip.inOrder, List.mergeSort_of_pairwise h]

end Lineage

end Restack
