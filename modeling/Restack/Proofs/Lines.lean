import Mathlib.Data.List.DropRight
import Restack.Proofs.Pieces
import Restack.Proofs.Reading

/-!
# The branches that a listing names

A listing is read without the blanks around it, line by line, and each line without the blanks
around it. For the branches this comes to the same as to split the whole text at its newlines and
to leave out the pieces that are blank.
-/

namespace Restack.Text.Chars

variable {c : Char} {s : List Char}

theorem trim_cons_of_isBlank (h : isBlank c) (s : List Char) : trim (c :: s) = trim s := by
  simp [trim, trimStart, h]

theorem trim_concat_of_isBlank (h : isBlank c) (s : List Char) : trim (s ++ [c]) = trim s := by
  by_cases hs : s.dropWhile isBlank = []
  · simp [trim, trimStart, List.dropWhile_append, hs, h]
  · have hstart : trimStart (s ++ [c]) = trimStart s ++ [c] := by
      simp [trimStart, List.dropWhile_append, hs]
    rw [trim, hstart]
    exact List.rdropWhile_concat_pos isBlank _ _ h

theorem trim_dropReturn (line : List Char) : trim (dropReturn line) = trim line := by
  unfold dropReturn
  split
  next h =>
    obtain ⟨start, rfl⟩ := List.getLast?_eq_some_iff.1 h
    rw [List.dropLast_concat, trim_concat_of_isBlank (by decide)]
  next => rfl

def named (pieces : List (List Char)) : List (List Char) := (pieces.map trim).filter (· ≠ [])

theorem named_append (pieces rest : List (List Char)) :
    named (pieces ++ rest) = named pieces ++ named rest := by
  simp [named]

theorem named_singleton_congr {piece piece' : List Char} (h : trim piece = trim piece') :
    named [piece] = named [piece'] := by
  simp [named, h]

theorem named_cons_congr {piece piece' : List Char} {rest rest' : List (List Char)}
    (h : trim piece = trim piece') (hrest : named rest = named rest') :
    named (piece :: rest) = named (piece' :: rest') := by
  rw [← List.singleton_append, named_append, named_singleton_congr h, hrest, ← named_append]
  rfl

theorem named_linesOfPieces (pieces : List (List Char)) :
    named (linesOfPieces pieces) = named pieces := by
  fun_induction linesOfPieces pieces with
  | case1 => rfl
  | case2 last h =>
    rw [List.isEmpty_iff.1 h]
    rfl
  | case3 last h => rfl
  | case4 piece rest h ih => exact named_cons_congr (trim_dropReturn piece) ih

theorem named_splitOn_cons (h : isBlank c) (s : List Char) :
    named ((c :: s).splitOn '\n') = named (s.splitOn '\n') := by
  rw [List.splitOn_cons_eq_if_modifyHead]
  split
  · rfl
  · obtain ⟨piece, rest, hsplit⟩ := List.exists_cons_of_ne_nil (List.splitOn_ne_nil '\n' s)
    rw [hsplit]
    exact named_cons_congr (trim_cons_of_isBlank h piece) rfl

theorem named_splitOn_concat (h : isBlank c) (s : List Char) :
    named ((s ++ [c]).splitOn '\n') = named (s.splitOn '\n') := by
  by_cases hc : c = '\n'
  · rw [hc, List.splitOn_append_cons_self, named_append]
    exact List.append_nil _
  · obtain ⟨before, last, hsplit, hconcat⟩ := exists_splitOn_concat hc s
    rw [hsplit, hconcat, named_append, named_append,
      named_singleton_congr (trim_concat_of_isBlank h last)]

theorem named_splitOn_trimStart (s : List Char) :
    named ((trimStart s).splitOn '\n') = named (s.splitOn '\n') := by
  induction s with
  | nil => rfl
  | cons c s ih =>
    by_cases h : isBlank c
    · rw [trimStart, List.dropWhile_cons_of_pos h, ← trimStart, ih, named_splitOn_cons h]
    · rw [trimStart, List.dropWhile_cons_of_neg h]

theorem named_splitOn_trimEnd (s : List Char) :
    named ((trimEnd s).splitOn '\n') = named (s.splitOn '\n') := by
  change named ((s.rdropWhile isBlank).splitOn '\n') = _
  induction s using List.reverseRecOn with
  | nil => rfl
  | append_singleton s c ih =>
    by_cases h : isBlank c
    · rw [List.rdropWhile_concat_pos _ _ _ h, ih, named_splitOn_concat h]
    · rw [List.rdropWhile_concat_neg _ _ _ h]

/-- Neither the blanks around a text nor its way of ending lines matter for what is named. -/
theorem named_lines_trim (s : List Char) : named (lines (trim s)) = named (s.splitOn '\n') := by
  rw [lines, named_linesOfPieces, trim, named_splitOn_trimEnd, named_splitOn_trimStart]

theorem trim_subset (s : List Char) : trim s ⊆ s := by
  intro c hc
  have hstart : c ∈ trimStart s := (List.rdropWhile_prefix isBlank (trimStart s)).subset hc
  exact (List.dropWhile_suffix isBlank).subset hstart

theorem exists_subset_of_mem_linesOfPieces {pieces : List (List Char)} {line : List Char}
    (h : line ∈ linesOfPieces pieces) : ∃ piece ∈ pieces, line ⊆ piece := by
  fun_induction linesOfPieces pieces with
  | case1 => cases h
  | case2 last hlast => cases h
  | case3 last hlast => exact ⟨line, h, List.Subset.refl line⟩
  | case4 piece rest hrest ih =>
    rcases List.mem_cons.1 h with rfl | h
    · refine ⟨piece, List.mem_cons_self, ?_⟩
      unfold dropReturn
      split
      · exact List.dropLast_subset piece
      · exact List.Subset.refl piece
    · obtain ⟨other, hother, hsub⟩ := ih h
      exact ⟨other, List.mem_cons_of_mem piece hother, hsub⟩

def IsTrimmed (s : List Char) : Prop :=
  s.head?.any isBlank = false ∧ s.getLast?.any isBlank = false

instance (s : List Char) : Decidable (IsTrimmed s) := inferInstanceAs (Decidable (_ ∧ _))

theorem trim_of_isTrimmed (h : IsTrimmed s) : trim s = s := by
  have hstart : trimStart s = s := by
    cases s with
    | nil => rfl
    | cons c s => exact List.dropWhile_cons_of_neg (by simpa using h.1)
  rw [trim, hstart]
  refine List.rdropWhile_eq_self_iff.2 fun hne => ?_
  simpa [List.getLast?_eq_some_getLast hne] using h.2

theorem isTrimmed_trim (s : List Char) : IsTrimmed (trim s) := by
  constructor
  · have hstart : trim s <+: s.dropWhile isBlank := List.rdropWhile_prefix isBlank _
    cases htrim : trim s with
    | nil => rfl
    | cons c rest =>
      obtain ⟨more, hmore⟩ := hstart
      have hhead := List.head?_dropWhile_not isBlank s
      rw [← hmore, htrim] at hhead
      simpa using hhead
  · by_cases hnil : trim s = []
    · rw [hnil]
      rfl
    · have hlast : ¬ isBlank ((trim s).getLast hnil) :=
        List.rdropWhile_last_not isBlank (trimStart s) hnil
      simpa [List.getLast?_eq_some_getLast hnil] using hlast

theorem trim_eq_self_iff : trim s = s ↔ IsTrimmed s := by
  constructor
  · intro h
    rw [← h]
    exact isTrimmed_trim s
  · exact trim_of_isTrimmed

end Restack.Text.Chars

namespace Restack

open Text

theorem Text.trim_eq_self_iff {s : String} : trim s = s ↔ Chars.IsTrimmed s.toList := by
  rw [← Chars.trim_eq_self_iff, ← toList_trim, String.toList_inj]

theorem Text.trim_append_newline {s : String} (h : Chars.IsTrimmed s.toList) :
    trim (s ++ "\n") = s := by
  have hchars : Chars.trim (s.toList ++ ['\n']) = s.toList := by
    rw [Chars.trim_concat_of_isBlank (by decide), Chars.trim_of_isTrimmed h]
  rw [trim, String.toList_append]
  exact (congrArg String.ofList hchars).trans String.ofList_toList

theorem Text.splitOn_join {lines : List String} (h : ∀ l ∈ lines, '\n' ∉ l.toList) :
    (String.join (lines.map (· ++ "\n"))).toList.splitOn '\n' =
      lines.map String.toList ++ [[]] := by
  induction lines with
  | nil => rfl
  | cons l rest ih =>
    obtain ⟨hl, hrest⟩ := List.forall_mem_cons.1 h
    rw [List.map_cons, String.join_cons, String.toList_append, String.toList_append,
      List.append_assoc]
    exact (List.splitOn_append_cons_self_of_not_mem hl _).trans (congrArg _ (ih hrest))

theorem Settings.chosen_map_ofList (settings : Settings) (pieces : List (List Char)) :
    settings.chosen (pieces.map String.ofList) =
      ((Chars.named pieces).map String.ofList).filter fun b => !settings.excludes b := by
  have htrim : Text.trim ∘ String.ofList = String.ofList ∘ Chars.trim := by
    funext piece
    simp [Text.trim]
  rw [chosen, List.map_map, htrim, Chars.named, ← List.map_map]
  generalize pieces.map Chars.trim = names
  rw [List.filter_map, List.filter_map, List.filter_filter]
  simp [Function.comp_def, Bool.and_comm]

theorem Settings.chosen_lines_trim (settings : Settings) (text : String) :
    settings.chosen (lines (trim text)) =
      settings.chosen ((text.toList.splitOn '\n').map String.ofList) := by
  rw [lines, chosen_map_ofList, chosen_map_ofList, toList_trim, Chars.named_lines_trim]

theorem Settings.newline_not_mem_of_mem_chosen {settings : Settings} {text b : String}
    (h : b ∈ settings.chosen (lines text)) : '\n' ∉ b.toList := by
  obtain ⟨line, hline, rfl⟩ := List.mem_map.1 (List.mem_of_mem_filter h)
  obtain ⟨chars, hchars, rfl⟩ := List.mem_map.1 hline
  obtain ⟨piece, hpiece, hsub⟩ := Chars.exists_subset_of_mem_linesOfPieces hchars
  intro hmem
  rw [toList_trim, String.toList_ofList] at hmem
  exact not_mem_of_mem_splitOn hpiece (hsub (Chars.trim_subset chars hmem))

theorem Settings.chosen_append (settings : Settings) (names rest : List String) :
    settings.chosen (names ++ rest) = settings.chosen names ++ settings.chosen rest := by
  simp [chosen]

theorem Settings.chosen_join (settings : Settings) {names : List String}
    (h : ∀ b ∈ names, '\n' ∉ b.toList) :
    settings.chosen (lines (trim (String.join (names.map (· ++ "\n"))))) =
      settings.chosen names := by
  have hback : (names.map String.toList).map String.ofList = names := by simp
  have hlast : settings.chosen [""] = [] := rfl
  rw [chosen_lines_trim, splitOn_join h, List.map_append, hback, List.map_singleton,
    String.ofList_nil, chosen_append, hlast, List.append_nil]

theorem Settings.chosen_of_isTrimmed (settings : Settings) {names : List String}
    (h : ∀ b ∈ names, b ≠ "" ∧ Chars.IsTrimmed b.toList) :
    settings.chosen names = names.filter fun b => !settings.excludes b := by
  have htrim : names.map trim = names := by
    rw [List.map_congr_left fun b hb => trim_eq_self_iff.2 (h b hb).2, List.map_id']
  rw [chosen, htrim]
  refine List.filter_congr fun b hb => ?_
  simp [(h b hb).1]

theorem Settings.mem_chosen_iff_isTrimmed {settings : Settings} {names : List String} {b : String}
    (hb : b ∈ names) (hne : b ≠ "") (hkept : settings.excludes b = false) :
    b ∈ settings.chosen names ↔ Chars.IsTrimmed b.toList := by
  rw [← trim_eq_self_iff]
  constructor
  · intro h
    obtain ⟨name, -, rfl⟩ := List.mem_map.1 (List.mem_of_mem_filter h)
    rw [trim_eq_self_iff, toList_trim]
    exact Chars.isTrimmed_trim _
  · intro h
    refine List.mem_filter.2 ⟨List.mem_map.2 ⟨b, hb, h⟩, ?_⟩
    simp [hne, hkept]

theorem Settings.chosen_listing (settings : Settings) {branches : List String}
    (h : ∀ b ∈ branches, b ≠ "" ∧ '\n' ∉ b.toList ∧ Chars.IsTrimmed b.toList) :
    settings.chosen (lines (trim (String.join (branches.map (· ++ "\n"))))) =
      branches.filter fun b => !settings.excludes b := by
  rw [chosen_join settings fun b hb => (h b hb).2.1]
  exact chosen_of_isTrimmed settings fun b hb => ⟨(h b hb).1, (h b hb).2.2⟩

end Restack
