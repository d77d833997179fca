import Restack.Proofs.Ascent
import Restack.Proofs.Loop

/-!
# The path of a branch and the path of its parent

Off the circuits of parent links the path of a branch is the path of its parent, with the branch at
the end: the climbs differ in the branch that they began at, and this one is not met again. On a
circuit it is met again. Both climbs go once round then, and the path of the parent is that of the
branch turned by one place.
-/

namespace Restack

namespace Lineage

variable {l : Lineage} {circuit : Cycle String} {b p : String}

theorem path_climb_of_not_mem (hp : l.IsParent p b) (hb : b ∉ (l.climb p).path) :
    (l.climb b).path = (l.climb p).path ++ [b] := by
  have hpath := l.climb_isPath p
  refine climb_eq_of_isPath ⟨?_, ?_, fun r hr q hq => ?_⟩ (by simp)
  · simpa using hpath.nodup.concat hb
  · refine hpath.linked.append (List.isChain_singleton b) fun x hx y hy => ?_
    rw [climb_getLast?, Option.mem_some_iff] at hx
    rw [List.head?_singleton, Option.mem_some_iff] at hy
    rwa [← hx, ← hy]
  · have hne : (l.climb p).path ≠ [] := List.ne_nil_of_mem (l.mem_climb_self p)
    rw [List.head?_append_of_ne_nil _ hne] at hr
    exact List.mem_append_left _ (hpath.rooted r hr q hq)

theorem exists_circuit_of_mem (hp : l.IsParent p b) (hb : b ∈ (l.climb p).path) :
    ∃ circuit, l.IsCircuit circuit ∧ b ∈ circuit := by
  obtain ⟨above, below, hsplit⟩ := List.append_of_mem hb
  have hpath : l.IsPath (above ++ b :: below) := hsplit ▸ l.climb_isPath p
  have hlast : (b :: below).getLast? = some p := by
    have hlast := l.climb_getLast? p
    rwa [hsplit, List.getLast?_append_cons] at hlast
  refine ⟨↑(b :: below), ⟨(List.nodup_append.1 hpath.nodup).2.1, by simp, ?_⟩, by simp⟩
  rw [Cycle.chain_coe_cons]
  have hlinked : (b :: below).IsChain l.IsParent := hpath.linked.right_of_append
  refine hlinked.append (List.isChain_singleton b) fun x hx y hy => ?_
  rw [hlast, Option.mem_some_iff] at hx
  rw [List.head?_singleton, Option.mem_some_iff] at hy
  rwa [← hx, ← hy]

namespace IsCircuit

theorem exists_eq_concat (h : l.IsCircuit circuit) (hb : b ∈ circuit) :
    ∃ rest front p, circuit = ↑(b :: rest) ∧ b :: rest = front ++ [p] ∧ l.IsParent p b := by
  obtain ⟨rest, rfl⟩ := exists_cons_of_mem_cycle hb
  obtain ⟨front, p, hsplit⟩ := (List.eq_nil_or_concat' (b :: rest)).resolve_left (by simp)
  have hlinked : (b :: rest ++ [b]).IsChain l.IsParent := h.linked
  rw [hsplit, List.append_assoc] at hlinked
  exact ⟨rest, front, p, rfl, hsplit, (List.isChain_append_cons_cons.1 hlinked).2.1⟩

theorem exists_parent (h : l.IsCircuit circuit) (hb : b ∈ circuit) :
    ∃ p ∈ circuit, l.IsParent p b := by
  obtain ⟨rest, front, p, rfl, hsplit, hp⟩ := h.exists_eq_concat hb
  exact ⟨p, by simp [hsplit], hp⟩

theorem path_climb_parent (h : l.IsCircuit circuit) (hb : b ∈ circuit) (hp : l.IsParent p b) :
    (l.climb p).path = b :: (l.climb b).path.dropLast := by
  obtain ⟨rest, front, q, rfl, hsplit, hq⟩ := h.exists_eq_concat hb
  obtain rfl : p = q := hp.eq hq
  have hturned : l.IsCircuit ↑(p :: front) := by
    rwa [Cycle.coe_cons_eq_coe_append, ← hsplit]
  rw [hturned.path_climb_eq, h.path_climb_eq, List.dropLast_concat, hsplit]

end IsCircuit

theorem exists_circuit_iff : (∃ circuit, l.IsCircuit circuit ∧ b ∈ circuit) ↔
    Relation.TransGen (fun c p => l.IsParent p c) b b := by
  rw [Relation.TransGen.head'_iff]
  constructor
  · intro h
    obtain ⟨circuit, hcircuit, hb⟩ := h
    obtain ⟨p, hmem, hp⟩ := hcircuit.exists_parent hb
    rw [hcircuit.eq_climb hmem] at hb
    exact ⟨p, hp, mem_climb_iff_reachable.1 hb⟩
  · intro h
    obtain ⟨p, hp, hback⟩ := h
    exact exists_circuit_of_mem hp (mem_climb_iff_reachable.2 hback)

/-- A branch with a parent either lies on no circuit, and then its path is that of the parent and
the branch itself, or it lies on one. Then its path is that circuit, gone round once, and the path
of the parent is the same turned by one place. -/
theorem climb_extends_or_turns (tips : List Tip) (b p : String)
    (hp : (ofTips tips).parent? b = some p) :
    let l := ofTips tips
    let up := fun c p => l.parent? c = some p
    (¬ Relation.TransGen up b b → (l.climb b).path = (l.climb p).path ++ [b]) ∧
    (Relation.TransGen up b b ↔ ∃ circuit, l.IsCircuit circuit ∧ b ∈ circuit) ∧
    ∀ circuit, l.IsCircuit circuit → b ∈ circuit →
      circuit = ↑(l.climb b).path ∧ (l.climb b).path.length = circuit.length ∧
      (l.climb p).path = b :: (l.climb b).path.dropLast := by
  intro l up
  refine ⟨fun hoff => ?_, exists_circuit_iff.symm, fun circuit hcircuit hb => ?_⟩
  · refine path_climb_of_not_mem hp fun hb => hoff ?_
    exact exists_circuit_iff.1 (exists_circuit_of_mem hp hb)
  · have hround : circuit = ↑(l.climb b).path := hcircuit.eq_climb hb
    refine ⟨hround, ?_, hcircuit.path_climb_parent hb hp⟩
    rw [hround, Cycle.length_coe]

def tailed : List Tip :=
  [⟨"a", "a", "c"⟩, ⟨"b", "b", "a"⟩, ⟨"c", "c", "b"⟩, ⟨"self", "s", "s"⟩, ⟨"tail", "t", "b"⟩]

theorem climb_extends_or_turns_tailed :
    let l := ofTips tailed
    (l.parent? "tail" = some "b" ∧ (l.climb "tail").path = (l.climb "b").path ++ ["tail"]) ∧
    (l.parent? "b" = some "a" ∧ l.IsCircuit ↑["b", "c", "a"] ∧ (l.climb "b").path.length = 3 ∧
      (l.climb "a").path = "b" :: (l.climb "b").path.dropLast) ∧
    l.parent? "self" = some "self" ∧ (l.climb "self").path.length = 1 := by
  intro l
  have hlinks : l.links = [("a", some "c"), ("b", some "a"), ("c", some "b"),
      ("self", some "self"), ("tail", some "b")] := by
    change (ofTips tailed).links = _
    rw [links_ofTips_of_pairwise (by decide)]
    decide
  have hparent : ∀ {b p}, (b, some p) ∈ l.links → l.parent? b = some p :=
    parent?_eq_some_iff.2
  have htail : l.parent? "tail" = some "b" := hparent (by simp [hlinks])
  have hb : l.parent? "b" = some "a" := hparent (by simp [hlinks])
  have hself : l.parent? "self" = some "self" := hparent (by simp [hlinks])
  have hthree : l.IsCircuit ↑["b", "c", "a"] := by
    refine ⟨by simp, by simp, ?_⟩
    simp [IsParent, hb, hparent, hlinks]
  have hone : l.IsCircuit ↑["self"] := ⟨by simp, by simp, by simpa [IsParent] using hself⟩
  obtain ⟨hextends, -, -⟩ := climb_extends_or_turns tailed "tail" "b" htail
  obtain ⟨-, -, hthree'⟩ := climb_extends_or_turns tailed "b" "a" hb
  obtain ⟨-, -, hone'⟩ := climb_extends_or_turns tailed "self" "self" hself
  obtain ⟨-, hlength, hturned⟩ := hthree' _ hthree (by simp)
  refine ⟨⟨htail, hextends fun hback => ?_⟩, ⟨hb, hthree, hlength, hturned⟩, hself,
    (hone' _ hone (by simp)).2.1⟩
  -- nothing has `tail` for its parent
  obtain ⟨c, -, hc⟩ := Relation.TransGen.tail'_iff.1 hback
  have hmem : (c, some "tail") ∈ l.links := parent?_eq_some_iff.1 hc
  simp [hlinks] at hmem

end Lineage

end Restack
