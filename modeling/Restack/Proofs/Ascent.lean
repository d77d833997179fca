import Mathlib.Data.List.Perm.Subperm
import Mathlib.Logic.Relation
import Restack.Proofs.Ancestry

/-!
# The ascent from a branch

An ascent starts at a branch and goes up one parent at a time, as long as the next one is not on
the path already. It cannot go on without end, and the one path on which it can end is the path
that climbing finds. On it are the branches that parent links lead to, and no others.
-/

namespace Restack.Lineage

variable {l : Lineage} {b x : String} {path : List String}

inductive Ascends (l : Lineage) : List String → List String → Prop
  | up {p r : String} {below : List String} (hp : l.IsParent p r) (hnew : p ∉ r :: below) :
      Ascends l (r :: below) (p :: r :: below)

/-- What every turn of an ascent from the branch keeps. -/
structure IsAscent (l : Lineage) (b : String) (path : List String) : Prop where
  nodup : path.Nodup
  linked : path.IsChain l.IsParent
  getLast?_eq : path.getLast? = some b

theorem isAscent_singleton (l : Lineage) (b : String) : l.IsAscent b [b] where
  nodup := List.nodup_singleton b
  linked := List.isChain_singleton b
  getLast?_eq := rfl

theorem isAscent_climb (l : Lineage) (b : String) : l.IsAscent b (l.climb b).path where
  nodup := (l.climb_isPath b).nodup
  linked := (l.climb_isPath b).linked
  getLast?_eq := l.climb_getLast? b

namespace IsAscent

theorem step {next : List String} (h : l.IsAscent b path) (hstep : l.Ascends path next) :
    l.IsAscent b next := by
  cases hstep with
  | up hp hnew => exact ⟨List.nodup_cons.2 ⟨hnew, h.nodup⟩, h.linked.cons_cons hp, h.getLast?_eq⟩

theorem of_reaches (h : Relation.ReflTransGen l.Ascends [b] path) : l.IsAscent b path := by
  induction h with
  | refl => exact l.isAscent_singleton b
  | tail _ hstep ih => exact ih.step hstep

theorem reaches (h : l.IsAscent b path) : Relation.ReflTransGen l.Ascends [b] path := by
  induction path with
  | nil => cases h.getLast?_eq
  | cons p below ih =>
    cases below with
    | nil =>
      obtain rfl : p = b := by simpa using h.getLast?_eq
      exact .refl
    | cons r below =>
      obtain ⟨hnew, hnodup⟩ := List.nodup_cons.1 h.nodup
      obtain ⟨hp, hlinked⟩ := List.isChain_cons_cons.1 h.linked
      have hbelow : l.IsAscent b (r :: below) := ⟨hnodup, hlinked, by simpa using h.getLast?_eq⟩
      exact (ih hbelow).tail (.up hp hnew)

theorem subset (h : l.IsAscent b path) : path ⊆ b :: l.branches := by
  intro x hx
  refine h.linked.backwards_induction (· ∈ b :: l.branches) _ ?_ ?_ x hx
  · intro p c hpc _
    exact List.mem_cons_of_mem b (mem_branches_of_parent? hpc).2
  · intro hne
    rw [Option.some.inj ((List.getLast?_eq_some_getLast hne).symm.trans h.getLast?_eq)]
    exact List.mem_cons_self

theorem length_le (h : l.IsAscent b path) : path.length ≤ l.branches.length + 1 :=
  (List.subperm_of_subset h.nodup h.subset).length_le

theorem ended_iff (h : l.IsAscent b path) : (∀ next, ¬ l.Ascends path next) ↔ l.IsPath path := by
  constructor
  · intro hended
    refine ⟨h.nodup, h.linked, fun r hr p hp => ?_⟩
    by_contra hnew
    obtain ⟨below, rfl⟩ := List.head?_eq_some_iff.1 hr
    exact hended _ (.up hp hnew)
  · intro hpath next hstep
    cases hstep with
    | up hp hnew => exact hnew (hpath.rooted _ rfl _ hp)

end IsAscent

theorem isPath_iff_eq_climb : l.IsPath path ∧ path.getLast? = some b ↔ path = (l.climb b).path := by
  constructor
  · intro h
    exact (climb_eq_of_isPath h.1 h.2).symm
  · intro h
    rw [h]
    exact ⟨l.climb_isPath b, l.climb_getLast? b⟩

theorem ascent_ends_iff : (Relation.ReflTransGen l.Ascends [b] path ∧
    ∀ next, ¬ l.Ascends path next) ↔ path = (l.climb b).path := by
  constructor
  · intro h
    have hascent := IsAscent.of_reaches h.1
    exact isPath_iff_eq_climb.1 ⟨hascent.ended_iff.1 h.2, hascent.getLast?_eq⟩
  · intro h
    have hascent := l.isAscent_climb b
    rw [h]
    exact ⟨hascent.reaches, hascent.ended_iff.2 (l.climb_isPath b)⟩

theorem Ascends.length_eq {next : List String} (h : l.Ascends path next) :
    next.length = path.length + 1 := by
  cases h
  rfl

theorem not_exists_endless_ascent (l : Lineage) (b : String) :
    ¬ ∃ paths : ℕ → List String, paths 0 = [b] ∧ ∀ n, l.Ascends (paths n) (paths (n + 1)) := by
  intro h
  obtain ⟨paths, hstart, hturn⟩ := h
  have hmet : ∀ n, l.IsAscent b (paths n) ∧ (paths n).length = n + 1 := by
    intro n
    induction n with
    | zero =>
      rw [hstart]
      exact ⟨l.isAscent_singleton b, rfl⟩
    | succ n ih => exact ⟨ih.1.step (hturn n), by rw [(hturn n).length_eq, ih.2]⟩
  -- a path longer than this would have a branch twice
  obtain ⟨hascent, hlength⟩ := hmet (l.branches.length + 1)
  have hle := hascent.length_le
  omega

theorem mem_climb_iff_reachable :
    x ∈ (l.climb b).path ↔ Relation.ReflTransGen (fun c p => l.IsParent p c) b x := by
  constructor
  · exact climb_induction (fun p c hp hc => hc.tail hp) .refl
  · intro h
    induction h with
    | refl => exact l.mem_climb_self b
    | tail _ hp ih => exact (l.climb_isPath b).parent_mem ih hp

theorem length_climb_le (hb : b ∈ l.branches) : (l.climb b).path.length ≤ l.branches.length :=
  (List.subperm_of_subset (l.climb_isPath b).nodup (climb_subset_branches hb)).length_le

/-- The ascent from a branch, known or not, ends, and only at the path of the climb. There is no
other list that ends in the branch, has no name twice, goes from parent to child, and begins with a
root or with a branch whose parent it holds. Its names are those that parent links lead to. -/
theorem ascent_ends_at_climb (tips : List Tip) (b : String) :
    let l := Lineage.ofTips tips
    (¬ ∃ paths : ℕ → List String, paths 0 = [b] ∧ ∀ n, l.Ascends (paths n) (paths (n + 1))) ∧
    (∀ path, (Relation.ReflTransGen l.Ascends [b] path ∧ ∀ next, ¬ l.Ascends path next) ↔
      path = (l.climb b).path) ∧
    (∀ path, (path ≠ [] ∧ path.getLast? = some b ∧ path.Nodup ∧
        path.IsChain (fun p c => l.parent? c = some p) ∧
        ∀ r, path.head? = some r → l.parent? r = none ∨ ∃ p ∈ path, l.parent? r = some p) ↔
      path = (l.climb b).path) ∧
    (∀ x, x ∈ (l.climb b).path ↔
      Relation.ReflTransGen (fun c p => l.parent? c = some p) b x) ∧
    (b ∈ l.branches → (l.climb b).path.length ≤ l.branches.length) := by
  intro l
  refine ⟨l.not_exists_endless_ascent b, fun path => ascent_ends_iff, fun path => ?_,
    fun x => mem_climb_iff_reachable, length_climb_le⟩
  rw [← isPath_iff_eq_climb]
  constructor
  · intro h
    obtain ⟨-, hlast, hnodup, hlinked, hrooted⟩ := h
    refine ⟨⟨hnodup, hlinked, fun r hr p hp => ?_⟩, hlast⟩
    rcases hrooted r hr with hnone | ⟨q, hq, hparent⟩
    · cases hnone.symm.trans hp
    · rwa [Option.some.inj (hp.symm.trans hparent)]
  · intro h
    obtain ⟨hpath, hlast⟩ := h
    refine ⟨List.ne_nil_of_mem (List.mem_of_getLast? hlast), hlast, hpath.nodup, hpath.linked, ?_⟩
    intro r hr
    cases hp : l.parent? r with
    | none => exact .inl rfl
    | some p => exact .inr ⟨p, hpath.rooted r hr p hp, rfl⟩

end Restack.Lineage
