import Restack.LogFile
import Restack.Proofs.Decoding
import Restack.Proofs.PathNames
import Restack.Proofs.Pieces

/-!
# Paths in two parts

A path has a name at its end if the last piece between its slashes that means anything is one. The
directory of the path and this name, joined, have the components of the path. The log path is split
in this way, and there not even a byte is lost.
-/

namespace Restack

namespace Path

variable {p : Path} {n s : List UInt8} {front after : List (List UInt8)}

/-- Of all that stands between slashes in the path, `n` is the last that is neither empty nor `.`,
and it is no step up. -/
def EndsIn (p : Path) (n : List UInt8) : Prop :=
  (∃ front after, p.splitOn slash = front ++ n :: after ∧ isIdle n = false ∧
    ∀ s ∈ after, isIdle s) ∧ n ≠ dotdot

theorem EndsIn.isName (h : p.EndsIn n) : IsName n := by
  obtain ⟨⟨front, after, hsplit, hidle, -⟩, hdotdot⟩ := h
  have hmem : n ∈ p.splitOn slash := by simp [hsplit]
  exact ⟨not_mem_of_mem_splitOn hmem, hidle, hdotdot⟩

theorem components_lead (p : Path) : components p.lead = p.leadComponent := by
  rcases lead_cases p with hlead | ⟨hlead, -⟩ | ⟨hlead, -⟩
  · rw [leadComponent, hlead]
    rfl
  · rw [leadComponent, hlead]
    decide
  · rw [leadComponent, hlead]
    decide

theorem filter_splitOn (p : Path) : (p.splitOn slash).filter (fun s => !isIdle s) =
    p.segments.filter fun s => !isIdle s := by
  have hslash (rest : Path) : (slash :: rest).splitOn slash = [] :: rest.splitOn slash :=
    List.splitOn_append_cons_self [] rest
  rcases lead_cases p with hlead | ⟨hlead, rest, rfl⟩ | ⟨hlead, rfl | ⟨rest, rfl⟩⟩
  · rw [segments, hlead, List.length_nil, List.drop_zero]
  · rw [segments, hlead, hslash]
    rfl
  · decide
  · rw [segments, hlead, List.drop_left, List.splitOn_append_cons_self, hslash]
    rfl

theorem ofSegment_eq_name_iff : Component.ofSegment s = .name n ↔ s = n ∧ n ≠ dotdot := by
  rw [Component.ofSegment]
  split_ifs with hs
  · simp [hs, eq_comm]
  · constructor
    · rintro ⟨⟩
      exact ⟨rfl, hs⟩
    · rintro ⟨rfl, -⟩
      rfl

theorem name_not_mem_leadComponent (p : Path) (n : List UInt8) : .name n ∉ p.leadComponent := by
  rw [leadComponent]
  split_ifs <;> simp

theorem getLast?_components_eq_name_iff : p.components.getLast? = some (.name n) ↔
    (p.segments.filter fun s => !isIdle s).getLast? = some n ∧ n ≠ dotdot := by
  rw [components, List.getLast?_append, List.getLast?_map]
  cases (p.segments.filter fun s => !isIdle s).getLast? with
  | none =>
    have hlead : p.leadComponent.getLast? ≠ some (.name n) := fun h =>
      name_not_mem_leadComponent p n (List.mem_of_getLast? h)
    simpa using hlead
  | some s => simp [ofSegment_eq_name_iff]

theorem getLast?_components_iff_endsIn :
    p.components.getLast? = some (.name n) ↔ p.EndsIn n := by
  rw [getLast?_components_eq_name_iff, ← filter_splitOn, getLast?_filter_eq_some_iff, EndsIn]
  simp

theorem filter_eq_nil_of_idle (h : ∀ t ∈ after, isIdle t) :
    after.filter (fun t => !isIdle t) = [] := by
  simpa using h

theorem directory_cases (hsegments : p.segments = front ++ s :: after) (hs : isIdle s = false)
    (hafter : ∀ t ∈ after, isIdle t) :
    ((∀ t ∈ front, isIdle t) ∧ p.directory = p.lead) ∨
    ∃ rest skipped, p = p.directory ++ slash :: rest ∧ p.directory ≠ [] ∧
      rest.splitOn slash = skipped ++ s :: after ∧ ∀ t ∈ skipped, isIdle t := by
  have hdirectory : p.directory = p.lead ++ [slash].intercalate (front.rdropWhile isIdle) := by
    rw [directory, hsegments, directorySegments_append hs hafter]
  by_cases hkept : front.rdropWhile isIdle = []
  · refine Or.inl ⟨List.rdropWhile_eq_nil_iff.1 hkept, ?_⟩
    rw [hdirectory, hkept]
    exact List.append_nil _
  · have hsplit : (p.drop p.lead.length).splitOn slash =
        front.rdropWhile isIdle ++ (front.rtakeWhile isIdle ++ s :: after) := by
      rw [← List.append_assoc, List.rdropWhile_append_rtakeWhile, ← hsegments, segments]
    obtain ⟨before, rest, hp, hbefore, hrest⟩ :=
      exists_of_splitOn_eq_append hsplit hkept (by simp)
    rw [← hbefore, List.intercalate_splitOn] at hdirectory
    refine Or.inr ⟨rest, front.rtakeWhile isIdle, ?_, ?_, hrest, fun t ht =>
      List.mem_rtakeWhile_imp ht⟩
    · rw [hdirectory, List.append_assoc, ← hp, lead_append_drop]
    -- an empty piece means nothing, so it would not be the last that is kept
    · intro hnil
      obtain ⟨-, rfl⟩ := List.append_eq_nil_iff.1 (hdirectory ▸ hnil)
      have hlast := List.rdropWhile_last_not isIdle front hkept
      simp [← hbefore, isIdle] at hlast

theorem components_directory (h : (p.segments.filter fun t => !isIdle t).getLast? = some s) :
    p.components = p.directory.components ++ [.ofSegment s] := by
  obtain ⟨front, after, hsegments, hs, hafter⟩ := getLast?_filter_eq_some_iff.1 h
  simp only [Bool.not_eq_true', Bool.not_eq_false'] at hs hafter
  have hmeant (idle : List (List UInt8)) (hidle : ∀ t ∈ idle, isIdle t) :
      ((idle ++ s :: after).filter fun t => !isIdle t).map Component.ofSegment =
        [.ofSegment s] := by
    rw [List.filter_append, filter_eq_nil_of_idle hidle, List.filter_cons_of_pos (by simp [hs]),
      filter_eq_nil_of_idle hafter]
    rfl
  rcases directory_cases hsegments hs hafter with
    ⟨hfront, hdirectory⟩ | ⟨rest, skipped, hp, hne, hrest, hskipped⟩
  · rw [hdirectory, components_lead, components, hsegments, hmeant front hfront]
  · calc p.components
        = (p.directory ++ slash :: rest).components := congrArg components hp
      _ = p.directory.components ++ [.ofSegment s] := by
          rw [components_append_slash hne, hrest, hmeant skipped hskipped]

theorem components_join_directory (h : p.EndsIn n) :
    (p.directory.join n).components = p.components := by
  obtain ⟨hlast, hdotdot⟩ := getLast?_components_eq_name_iff.1 (getLast?_components_iff_endsIn.2 h)
  rw [components_join h.isName, components_directory hlast, ofSegment_eq_name_iff.2 ⟨rfl, hdotdot⟩]

theorem fileName?_eq_some_iff : p.fileName? = some n ↔ p.components.getLast? = some (.name n) := by
  rw [fileName?]
  split
  next m hlast => simp [hlast]
  next hlast =>
    simp only [reduceCtorEq, false_iff]
    exact fun h => hlast n h

end Path

namespace LogFile

variable {p directory : Path} {file : String} {stateHome : Option String} {home : Option Path}

theorem split?_eq_some_iff : split? p = some (directory, file) ↔
    p.components.getLast? = some (.name (Utf8.encode file)) ∧ p.directory = directory := by
  rw [← Path.fileName?_eq_some_iff]
  constructor
  · intro h
    obtain ⟨name, hname, h⟩ := Option.bind_eq_some_iff.1 h
    obtain ⟨text, htext, h⟩ := Option.bind_eq_some_iff.1 h
    obtain ⟨rfl, rfl⟩ := Prod.mk.inj (Option.some.inj h)
    rw [Utf8.toOption_decode_eq_some_iff] at htext
    exact ⟨htext ▸ hname, rfl⟩
  · rintro ⟨hname, rfl⟩
    have htext : (Utf8.decode (Utf8.encode file)).toOption = some file :=
      Utf8.toOption_decode_eq_some_iff.2 rfl
    simp [split?, hname, htext]

theorem isSome_split?_iff : (split? p).isSome ↔
    ∃ name, p.components.getLast? = some (.name name) ∧ Utf8.IsText name := by
  rw [Option.isSome_iff_exists]
  constructor
  · rintro ⟨⟨directory, file⟩, h⟩
    exact ⟨_, (split?_eq_some_iff.1 h).1, file, rfl⟩
  · rintro ⟨name, hlast, file, rfl⟩
    exact ⟨(p.directory, file), split?_eq_some_iff.2 ⟨hlast, rfl⟩⟩

theorem exists_eq_join_of_path? {log : Path} (h : path? stateHome home = some log) :
    ∃ base : Path, log = (base.join program).join fileName := by
  unfold path? at h
  split at h
  next s _ => exact ⟨_, (Option.some.inj h).symm⟩
  next =>
    obtain ⟨homeDirectory, -, rfl⟩ := Option.map_eq_some_iff.1 h
    exact ⟨_, rfl⟩

theorem split?_join (base : Path) : split? (base.join fileName) =
    some ((base.join fileName).directory, "rebase-plan.log") := by
  have hname : Path.IsName fileName := by decide
  rw [split?_eq_some_iff, Path.components_join hname, List.getLast?_concat]
  exact ⟨rfl, rfl⟩

/-- A path is split exactly when its last component is a name and a text, and the two parts, joined
again, have the components of the path. The log path of the program is always split, and joining
its parts gives it back byte for byte. -/
theorem split?_loses_nothing (p : Path) (stateHome : Option String) (home : Option Path) :
    ((split? p).isSome ↔ ∃ name, p.components.getLast? = some (.name name) ∧ Utf8.IsText name) ∧
    (∀ name, p.components.getLast? = some (.name name) ↔ p.EndsIn name) ∧
    (∀ directory file, split? p = some (directory, file) → p.EndsIn (Utf8.encode file) ∧
      (directory.join (Utf8.encode file)).components = p.components) ∧
    ∀ log, path? stateHome home = some log → ∃ directory,
      split? log = some (directory, "rebase-plan.log") ∧
      directory.join (Utf8.encode "rebase-plan.log") = log := by
  refine ⟨isSome_split?_iff, fun name => Path.getLast?_components_iff_endsIn,
    fun directory file h => ?_, fun log h => ?_⟩
  · obtain ⟨hlast, rfl⟩ := split?_eq_some_iff.1 h
    have hends := Path.getLast?_components_iff_endsIn.1 hlast
    exact ⟨hends, Path.components_join_directory hends⟩
  · obtain ⟨base, rfl⟩ := exists_eq_join_of_path? h
    have hsplit := split?_join (base.join program)
    rw [Path.directory_join (by decide) (by decide)] at hsplit
    exact ⟨base.join program, hsplit, rfl⟩

theorem split?_loses_nothing_scattered :
    let p : Path := Utf8.encode ".//logs/./..//today//./"
    let above : Path := Utf8.encode ".//logs/./.."
    let home : Path := [0x72, 0xFF, Path.slash, Path.slash]
    let log := home ++ Utf8.encode ".local/state/rebase-plan/rebase-plan.log"
    (split? p = some (above, "today") ∧
      (above.join (Utf8.encode "today")).components = p.components) ∧
    path? none (some home) = some log ∧ ∃ directory,
      split? log = some (directory, "rebase-plan.log") ∧
      directory.join (Utf8.encode "rebase-plan.log") = log := by
  intro p above home log
  have hsplit : split? p = some (above, "today") := by
    rw [split?_eq_some_iff]
    decide
  have hlog : path? none (some home) = some log := by decide
  obtain ⟨-, -, hparts, hback⟩ := split?_loses_nothing p none (some home)
  exact ⟨⟨hsplit, (hparts above "today" hsplit).2⟩, hlog, hback log hlog⟩

end LogFile

end Restack
