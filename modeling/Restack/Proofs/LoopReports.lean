import Restack.Event
import Restack.Proofs.Loop
import Restack.Proofs.Parents

/-!
# Which loops are noted

While a plan is made, a loop is noted for every branch from which going up comes back to a branch
that it has met. The branch that is noted with it is the root of its path. It is the last that is
met before going up enters the loop again, so its parent is where the loop is entered first.
-/

namespace Restack

namespace Lineage

variable {l : Lineage} {b x : String} {path : List String}

def above (l : Lineage) (b : String) : ℕ → Option String
  | 0 => some b
  | n + 1 => (l.above b n).bind l.parent?

def Revisits (l : Lineage) (b : String) : Prop :=
  ∃ m n x, m < n ∧ l.above b m = some x ∧ l.above b n = some x

/-- Going up from the branch, the entry is the first that lies on a circuit. -/
def Enters (l : Lineage) (b entry : String) : Prop :=
  ∃ circuit k, l.IsCircuit circuit ∧ entry ∈ circuit ∧ l.above b k = some entry ∧
    ∀ j < k, ∀ x, l.above b j = some x → x ∉ circuit

theorem above_length {below : List String} (h : (x :: below).IsChain l.IsParent)
    (hb : (x :: below).getLast? = some b) : l.above b below.length = some x := by
  induction below generalizing x with
  | nil =>
    obtain rfl : x = b := by simpa using hb
    rfl
  | cons y below ih =>
    obtain ⟨hparent, hchain⟩ := List.isChain_cons_cons.1 h
    rw [List.length_cons, above, ih hchain (by simpa using hb)]
    exact hparent

theorem above_eq_getElem? {k : ℕ} (h : path.IsChain l.IsParent) (hb : path.getLast? = some b)
    (hk : k < path.length) : l.above b k = path.reverse[k]? := by
  induction path with
  | nil => simp at hk
  | cons x below ih =>
    rw [List.reverse_cons]
    rcases Nat.lt_succ_iff_lt_or_eq.1 hk with hlt | rfl
    · rw [List.getElem?_append_left (by simpa using hlt)]
      refine ih h.tail ?_ hlt
      have hne : below ≠ [] := List.length_pos_iff.1 (Nat.zero_lt_of_lt hlt)
      rwa [List.getLast?_cons_of_ne_nil hne] at hb
    · rw [above_length h hb]
      simp

theorem above_eq_none_of_le {m n : ℕ} (h : l.above b m = none) (hmn : m ≤ n) :
    l.above b n = none := by
  induction hmn with
  | refl => exact h
  | step _ ih => rw [above, ih, Option.bind_none]

section Root

variable {r p : String} (hr : (l.climb b).path.head? = some r)
include hr

theorem above_length_climb : l.above b (l.climb b).path.length = l.parent? r := by
  obtain ⟨rest, hpath⟩ := List.head?_eq_some_iff.1 hr
  have hlinked := (l.climb_isPath b).linked
  have hlast := l.climb_getLast? b
  rw [hpath] at hlinked hlast ⊢
  rw [List.length_cons, above, above_length hlinked hlast, Option.bind_some]

theorem revisits_of_root (hp : l.IsParent p r) : l.Revisits b := by
  obtain ⟨top, below, hsplit⟩ := List.append_of_mem ((l.climb_isPath b).rooted r hr p hp)
  have hlinked := (l.climb_isPath b).linked
  have hlast := l.climb_getLast? b
  rw [hsplit] at hlinked hlast
  rw [List.getLast?_append_cons] at hlast
  refine ⟨below.length, (l.climb b).path.length, p, ?_,
    above_length hlinked.right_of_append hlast, (above_length_climb hr).trans hp⟩
  rw [hsplit, List.length_append, List.length_cons]
  omega

theorem not_revisits_of_root (hnone : l.parent? r = none) : ¬ l.Revisits b := by
  intro h
  obtain ⟨m, n, x, hmn, hm, hn⟩ := h
  have hpath := l.climb_isPath b
  have hlast := l.climb_getLast? b
  have hlt : n < (l.climb b).path.length := by
    by_contra hge
    have hend := (above_length_climb hr).trans hnone
    rw [above_eq_none_of_le hend (Nat.le_of_not_lt hge)] at hn
    cases hn
  rw [above_eq_getElem? hpath.linked hlast (hmn.trans hlt)] at hm
  rw [above_eq_getElem? hpath.linked hlast hlt] at hn
  have hnodup : (l.climb b).path.reverse.Nodup := List.nodup_reverse.2 hpath.nodup
  have heq : m = n :=
    (List.getElem?_inj (by simpa using hmn.trans hlt) hnodup).1 (hm.trans hn.symm)
  exact hmn.ne heq

theorem enters_of_root (hp : l.IsParent p r) : l.Enters b p := by
  have hpath := l.climb_isPath b
  have hlast := l.climb_getLast? b
  obtain ⟨top, below, hsplit⟩ := List.append_of_mem (hpath.rooted r hr p hp)
  rw [hsplit] at hpath hlast hr
  rw [List.getLast?_append_cons] at hlast
  have hlinked : (p :: below).IsChain l.IsParent := hpath.linked.right_of_append
  refine ⟨↑(p :: top), below.length, hpath.isCircuit hr hp, by simp, above_length hlinked hlast,
    fun j hj x hx hmem => ?_⟩
  have hne : below ≠ [] := List.length_pos_iff.1 (Nat.zero_lt_of_lt hj)
  rw [List.getLast?_cons_of_ne_nil hne] at hlast
  rw [above_eq_getElem? hlinked.tail hlast hj] at hx
  -- what comes before the entry on the way up stands below it on the path
  have hbelow : x ∈ below := List.mem_reverse.1 (List.mem_of_getElem? hx)
  obtain ⟨-, hnot, hapart⟩ := List.nodup_append.1 hpath.nodup
  rcases List.mem_cons.1 (Cycle.mem_coe_iff.1 hmem) with rfl | htop
  · exact (List.nodup_cons.1 hnot).1 hbelow
  · exact hapart x htop x (List.mem_cons_of_mem p hbelow) rfl

end Root

theorem climb_looped_iff_revisits : (l.climb b).looped ↔ l.Revisits b := by
  rw [climb_looped_iff]
  constructor
  · intro h
    obtain ⟨r, p, hr, hp⟩ := h
    exact revisits_of_root hr hp
  · intro h
    obtain ⟨r, hcons⟩ := l.climb_eq_cons b
    have hr : (l.climb b).path.head? = some r := by rw [hcons, List.head?_cons]
    have hparent : l.parent? r ≠ none := fun hnone => not_revisits_of_root hr hnone h
    obtain ⟨p, hp⟩ := Option.ne_none_iff_exists'.1 hparent
    exact ⟨r, p, hr, hp⟩

def Notes (l : Lineage) (b : String) (e : Event.Entry) : Prop :=
  ∃ root entry, e = ⟨.debug, "plan:cycle in parent links",
      [("branch", Text.literal b), ("at", Text.literal root)]⟩ ∧
    (l.climb b).path.head? = some root ∧ l.parent? root = some entry ∧ l.Enters b entry

theorem notes_of_loopEvent? {e : Event} (h : l.loopEvent? b = some e) : l.Notes b e.entry := by
  obtain ⟨hlooped, hhead⟩ := Option.ite_none_right_eq_some.1 h
  obtain ⟨r, p, hr, hp⟩ := climb_looped_iff.1 hlooped
  rw [hr, Option.map_some, Option.some.injEq] at hhead
  exact ⟨r, p, hhead ▸ rfl, hr, hp, enters_of_root hr hp⟩

theorem isSome_loopEvent? : (l.loopEvent? b).isSome = (l.climb b).looped := by
  by_cases hlooped : (l.climb b).looped
  · obtain ⟨r, -, hr, -⟩ := climb_looped_iff.1 hlooped
    simp [loopEvent?, hlooped, hr]
  · simp [loopEvent?, hlooped]

end Lineage

namespace Tip

def Notes (tips : List Tip) (t : Tip) (e : Event.Entry) : Prop :=
  ∃ parent, e = ⟨.debug, "plan:resolve parent",
      [("branch", t.branch), ("parent", Text.optionLiteral Text.literal parent)]⟩ ∧
    ∀ p, parent = some p ↔ IsGreatest {x | ∃ s ∈ tips, s.branch = x ∧ s.head = t.base} p

theorem forall₂_resolutions (tips : List Tip) :
    List.Forall₂ (Notes tips) (inOrder tips) ((resolutions tips).map Event.entry) := by
  rw [resolutions, List.map_map, List.forall₂_map_right_iff, List.forall₂_same]
  intro t _
  refine ⟨_, rfl, fun p => ?_⟩
  rw [lastHolder?_eq_some_iff]
  simp only [mem_heads]

end Tip

theorem forall₂_filterMap {α β : Type*} {f : α → Option β} {p : α → Bool}
    (h : ∀ a, (f a).isSome = p a) (members : List α) :
    List.Forall₂ (fun a b => f a = some b) (members.filter p) (members.filterMap f) := by
  induction members with
  | nil => exact .nil
  | cons a members ih =>
    cases hf : f a with
    | none =>
      rw [List.filterMap_cons_none hf, List.filter_cons_of_neg (by simp [← h, hf])]
      exact ih
    | some b =>
      rw [List.filterMap_cons_some hf, List.filter_cons_of_pos (by simp [← h, hf])]
      exact .cons hf ih

/-- First comes a note for each tip, in name order and those of one branch as they were read. Then
comes a note for each branch from which going up meets some branch twice, in name order, and for no
other. -/
theorem Plan.derivation_notes_loops (tips : List Tip) :
    let l := Lineage.ofTips tips
    ∃ ordered looping resolved loops,
      (Plan.derivation tips).map Event.entry = resolved ++ loops ∧
      (ordered.Perm tips ∧ (ordered.Pairwise fun s t => s.branch ≤ t.branch) ∧
        ∀ b, Tip.ofBranch ordered b = Tip.ofBranch tips b) ∧
      List.Forall₂ (Tip.Notes tips) ordered resolved ∧
      (looping.Pairwise (· < ·) ∧
        ∀ b, b ∈ looping ↔ (∃ t ∈ tips, t.branch = b) ∧ l.Revisits b) ∧
      List.Forall₂ l.Notes looping loops := by
  intro l
  refine ⟨Tip.inOrder tips, l.branches.filter fun b => (l.climb b).looped, _, _,
    List.map_append, ⟨Tip.inOrder_perm tips, Tip.pairwise_inOrder tips, Tip.ofBranch_inOrder tips⟩,
    Tip.forall₂_resolutions tips, ⟨l.increasing.filter _, fun b => ?_⟩, ?_⟩
  · rw [List.mem_filter, Lineage.mem_branches_ofTips, Lineage.climb_looped_iff_revisits]
  · rw [List.forall₂_map_right_iff]
    refine (forall₂_filterMap (fun b => Lineage.isSome_loopEvent?) l.branches).imp fun b e h => ?_
    exact Lineage.notes_of_loopEvent? h

example : (Plan.derivation [⟨"a", "a", "c"⟩, ⟨"b", "b", "a"⟩, ⟨"c", "c", "b"⟩, ⟨"self", "s", "s"⟩,
    ⟨"tail", "t", "b"⟩]).drop 5 = [.loopFound "a" "b", .loopFound "b" "c", .loopFound "c" "a",
    .loopFound "self" "self", .loopFound "tail" "c"] := by
  cbv

end Restack
