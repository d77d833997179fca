import Mathlib.Data.List.Basic

/-!
# Pieces of a list

A list is split at an element into the pieces that stand between its occurrences. No piece has the
element in it, a last piece grows with the list, and to put some pieces together is to put the
first ones together, the rest of them, and the element in between.
-/

namespace Restack

variable {α : Type*}

theorem intercalate_append (a : α) {front back : List (List α)} (hfront : front ≠ [])
    (hback : back ≠ []) :
    [a].intercalate (front ++ back) = [a].intercalate front ++ a :: [a].intercalate back := by
  induction front with
  | nil => exact absurd rfl hfront
  | cons piece front ih =>
    by_cases hnil : front = []
    · rw [hnil, List.singleton_append, List.intercalate_cons_of_ne_nil hback,
        List.intercalate_singleton, List.append_assoc, List.singleton_append]
    · have hne : front ++ back ≠ [] := List.append_ne_nil_of_left_ne_nil hnil back
      rw [List.cons_append, List.intercalate_cons_of_ne_nil hne, ih hnil,
        List.intercalate_cons_of_ne_nil hnil, List.append_assoc, List.append_assoc,
        List.append_assoc]

section Splitting

variable [DecidableEq α] {a b : α}

theorem not_mem_of_mem_splitOn {s piece : List α} (h : piece ∈ s.splitOn a) : a ∉ piece := by
  induction s generalizing piece with
  | nil =>
    obtain rfl : piece = [] := by simpa using h
    exact List.not_mem_nil
  | cons b s ih =>
    rw [List.splitOn_cons_eq_if_modifyHead] at h
    split at h
    next =>
      rcases List.mem_cons.1 h with rfl | h
      · exact List.not_mem_nil
      · exact ih h
    next hb =>
      obtain ⟨first, rest, hsplit⟩ := List.exists_cons_of_ne_nil (List.splitOn_ne_nil a s)
      rw [hsplit] at h ih
      rcases List.mem_cons.1 h with rfl | h
      · have hne : a ≠ b := fun he => hb (beq_iff_eq.2 he.symm)
        exact List.not_mem_cons_of_ne_of_not_mem hne (ih List.mem_cons_self)
      · exact ih (List.mem_cons_of_mem first h)

theorem exists_splitOn_concat (hb : b ≠ a) (s : List α) : ∃ before last,
    s.splitOn a = before ++ [last] ∧ (s ++ [b]).splitOn a = before ++ [last ++ [b]] := by
  induction s with
  | nil => exact ⟨[], [], rfl, by simp [List.splitOn_cons_eq_if_modifyHead, hb]⟩
  | cons d s ih =>
    obtain ⟨before, last, hsplit, hconcat⟩ := ih
    rw [List.cons_append, List.splitOn_cons_eq_if_modifyHead, List.splitOn_cons_eq_if_modifyHead,
      hsplit, hconcat]
    split
    · exact ⟨[] :: before, last, rfl, rfl⟩
    · cases before with
      | nil => exact ⟨[], d :: last, rfl, rfl⟩
      | cons piece before => exact ⟨(d :: piece) :: before, last, rfl, rfl⟩

/-- Between two pieces stands the element, and what is on its two sides has the pieces there. -/
theorem exists_of_splitOn_eq_append {s : List α} {front back : List (List α)}
    (h : s.splitOn a = front ++ back) (hfront : front ≠ []) (hback : back ≠ []) :
    ∃ before after, s = before ++ a :: after ∧ before.splitOn a = front ∧
      after.splitOn a = back := by
  have hfree : ∀ piece ∈ front ++ back, a ∉ piece := by
    rw [← h]
    exact fun piece => not_mem_of_mem_splitOn
  obtain ⟨hfreeFront, hfreeBack⟩ := List.forall_mem_append.1 hfree
  refine ⟨[a].intercalate front, [a].intercalate back, ?_,
    List.splitOn_intercalate a hfreeFront hfront, List.splitOn_intercalate a hfreeBack hback⟩
  rw [← intercalate_append a hfront hback, ← h, List.intercalate_splitOn]

end Splitting

theorem getLast?_filter_eq_some_iff {keep : α → Bool} {s : List α} {x : α} :
    (s.filter keep).getLast? = some x ↔
      ∃ front after, s = front ++ x :: after ∧ keep x ∧ ∀ y ∈ after, keep y = false := by
  rw [List.getLast?_filter, List.find?_eq_some_iff_append]
  constructor
  · rintro ⟨hx, before, rest, hsplit, hbefore⟩
    refine ⟨rest.reverse, before.reverse, ?_, hx, by simpa using hbefore⟩
    rw [← List.reverse_reverse s, hsplit]
    simp
  · rintro ⟨front, after, rfl, hx, hafter⟩
    exact ⟨hx, after.reverse, front.reverse, by simp, by simpa using hafter⟩

end Restack
