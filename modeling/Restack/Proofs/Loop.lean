import Mathlib.Data.List.Cycle
import Restack.Proofs.Ancestry

/-!
# Loops of parent links

A circuit is a cycle of branches, each of them the parent of the next. The path of a branch on a
circuit goes once round it, so two circuits that share a branch are one. A loop is a circuit of at
least two branches; a branch that is its own parent is not on a loop but a root. Without loops every
path starts at a root, and the path of a branch is the beginning of each path that the branch lies
on.
-/

namespace Restack.Lineage

variable {l : Lineage} {loop circuit : Cycle String}

structure IsCircuit (l : Lineage) (circuit : Cycle String) : Prop where
  nodup : circuit.Nodup
  ne_nil : circuit ≠ Cycle.nil
  linked : circuit.Chain l.IsParent

structure IsLoop (l : Lineage) (loop : Cycle String) : Prop where
  nodup : loop.Nodup
  two_le_length : 2 ≤ loop.length
  linked : loop.Chain l.IsParent

def Loopless (l : Lineage) : Prop := ∀ loop, ¬ l.IsLoop loop

theorem exists_cons_of_mem_cycle {α : Type*} {c : Cycle α} {a : α} (h : a ∈ c) :
    ∃ rest : List α, c = ↑(a :: rest) := by
  induction c using Quotient.inductionOn' with
  | h members =>
    obtain ⟨before, after, rfl⟩ := List.append_of_mem h
    exact ⟨after ++ before, Cycle.coe_eq_coe.2 List.isRotated_append⟩

namespace IsCircuit

theorem path_climb_eq {b : String} {rest : List String} (h : l.IsCircuit ↑(b :: rest)) :
    (l.climb b).path = rest ++ [b] := by
  have hlinked : (b :: (rest ++ [b])).IsChain l.IsParent := h.linked
  refine climb_eq_of_isPath ⟨?_, hlinked.tail, fun r hr p hp => ?_⟩ (by simp)
  · exact (List.perm_append_singleton b rest).nodup_iff.2 h.nodup
  · rw [hp.eq (hlinked.rel_head? hr)]
    simp

theorem eq_climb {b : String} (h : l.IsCircuit circuit) (hb : b ∈ circuit) :
    circuit = ↑(l.climb b).path := by
  obtain ⟨rest, rfl⟩ := exists_cons_of_mem_cycle hb
  rw [h.path_climb_eq, Cycle.coe_cons_eq_coe_append]

theorem eq {circuit' : Cycle String} {b : String} (h : l.IsCircuit circuit)
    (h' : l.IsCircuit circuit') (hb : b ∈ circuit) (hb' : b ∈ circuit') : circuit = circuit' :=
  (h.eq_climb hb).trans (h'.eq_climb hb').symm

end IsCircuit

namespace IsLoop

theorem isCircuit (h : l.IsLoop loop) : l.IsCircuit loop where
  nodup := h.nodup
  ne_nil := by
    intro hnil
    have hlength := h.two_le_length
    rw [hnil, Cycle.length_nil] at hlength
    omega
  linked := h.linked

theorem eq_climb {b : String} (h : l.IsLoop loop) (hb : b ∈ loop) :
    loop = ↑(l.climb b).path := h.isCircuit.eq_climb hb

theorem exists_parent {b : String} (h : l.IsLoop loop) (hb : b ∈ loop) :
    ∃ p ∈ loop, l.IsParent p b ∧ p ≠ b := by
  obtain ⟨rest, rfl⟩ := exists_cons_of_mem_cycle hb
  have hlinked : (b :: (rest ++ [b])).IsChain l.IsParent := h.linked
  have hlength : 2 ≤ (b :: rest).length := h.two_le_length
  rcases rest.eq_nil_or_concat' with rfl | ⟨rest, p, rfl⟩
  · simp at hlength
  · have hnot : b ∉ rest ++ [p] := (List.nodup_cons.1 h.nodup).1
    rw [List.append_assoc] at hlinked
    refine ⟨p, by simp, (List.isChain_cons_append_cons_cons.1 hlinked).2.1, ?_⟩
    intro he
    exact hnot (by simp [he])

theorem exists_mem (h : l.IsLoop loop) : ∃ b, b ∈ loop := by
  induction loop with
  | nil => exact absurd h.two_le_length (by simp)
  | cons b rest => exact ⟨b, by simp⟩

theorem mem_climb_iff {x y b : String} (h : l.IsLoop loop) (hx : x ∈ loop) (hy : y ∈ loop) :
    x ∈ (l.climb b).path ↔ y ∈ (l.climb b).path := by
  constructor
  · intro hmem
    rw [h.eq_climb hx] at hy
    exact climb_subset hmem hy
  · intro hmem
    rw [h.eq_climb hy] at hx
    exact climb_subset hmem hx

end IsLoop

theorem IsPath.isCircuit {top below : List String} {r p : String}
    (h : l.IsPath (top ++ p :: below)) (hr : (top ++ p :: below).head? = some r)
    (hp : l.IsParent p r) : l.IsCircuit ↑(p :: top) := by
  have hlinked : (top ++ [p]).IsChain l.IsParent := (List.isChain_split.1 h.linked).1
  have hhead : (top ++ [p]).head? = some r := by simpa [List.head?_append] using hr
  refine ⟨?_, by simp, List.isChain_cons.2 ⟨fun y hy => ?_, hlinked⟩⟩
  · have hnodup : (top ++ [p]).Nodup := h.nodup.sublist (List.Sublist.append_left (by simp) top)
    exact (List.perm_append_singleton p top).nodup_iff.1 hnodup
  · obtain rfl : r = y := Option.some.inj (hhead.symm.trans hy)
    exact hp

theorem IsPath.exists_loop {r b q : String} {rest : List String}
    (h : l.IsPath (r :: b :: rest)) (hq : l.IsParent q r) (hne : q ≠ r) :
    ∃ loop, l.IsLoop loop ∧ r ∈ loop ∧ b ∈ loop := by
  have hmem : q ∈ b :: rest := (List.mem_cons.1 (h.rooted r rfl q hq)).resolve_left hne
  obtain ⟨above, below, hsplit⟩ := List.append_of_mem hmem
  rw [hsplit] at h
  have hcircuit : l.IsCircuit ↑(q :: r :: above) := h.isCircuit rfl hq
  refine ⟨↑(q :: r :: above), ⟨hcircuit.nodup, by simp, hcircuit.linked⟩, by simp, ?_⟩
  cases above with
  | nil =>
    obtain rfl : b = q := (List.cons.inj hsplit).1
    simp
  | cons a above =>
    obtain rfl : b = a := (List.cons.inj hsplit).1
    simp

theorem IsPath.eq_root_of_loopless {path : List String} {r p : String} (h : l.IsPath path)
    (hl : l.Loopless) (hr : path.head? = some r) (hp : l.IsParent p r) : p = r := by
  by_contra hne
  have hmem : p ∈ path := h.rooted r hr p hp
  obtain ⟨tail, rfl⟩ := List.head?_eq_some_iff.1 hr
  cases tail with
  | nil => exact hne (List.mem_singleton.1 hmem)
  | cons b rest =>
    obtain ⟨loop, hloop, -⟩ := h.exists_loop hp hne
    exact hl loop hloop

theorem climb_eq_of_append {above below : List String} {b x : String} (hl : l.Loopless)
    (h : (l.climb b).path = above ++ x :: below) : (l.climb x).path = above ++ [x] := by
  have hpath : l.IsPath (above ++ x :: below) := h ▸ l.climb_isPath b
  have hlinked : (above ++ [x]).IsChain l.IsParent := (List.isChain_split.1 hpath.linked).1
  refine climb_eq_of_isPath ⟨?_, hlinked, fun r hr p hp => ?_⟩ (by simp)
  · exact hpath.nodup.sublist (List.Sublist.append_left (by simp) above)
  · have hhead : (above ++ x :: below).head? = some r := by simpa [List.head?_append] using hr
    rw [hpath.eq_root_of_loopless hl hhead hp]
    exact List.mem_of_head? hr

theorem loopless_of_rank (rank : String → ℕ)
    (h : ∀ p b, l.IsParent p b → p ≠ b → rank p < rank b) : l.Loopless := by
  intro loop hloop
  have hnone : ∀ n b, rank b = n → b ∉ loop := by
    intro n
    induction n using Nat.strongRecOn with
    | ind n ih =>
      intro b hn hb
      obtain ⟨p, hp, hpb, hne⟩ := hloop.exists_parent hb
      exact ih (rank p) (hn ▸ h p b hpb hne) p rfl hp
  obtain ⟨b, hb⟩ := hloop.exists_mem
  exact hnone _ b rfl hb

end Restack.Lineage
