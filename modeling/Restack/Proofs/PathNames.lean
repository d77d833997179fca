import Mathlib.Data.List.DropRight
import Restack.Path

/-!
# Names at the end of paths

Joining a name to a path adds one component to it. Taking the joined path apart gives the path back,
without a slash at its end.
-/

namespace Restack.Path

variable {p : Path} {n s : List UInt8} {front after : List (List UInt8)}

structure IsName (n : List UInt8) : Prop where
  slash_not_mem : slash ∉ n
  not_idle : isIdle n = false
  ne_dotdot : n ≠ dotdot

instance (n : List UInt8) : Decidable (IsName n) :=
  decidable_of_iff (slash ∉ n ∧ isIdle n = false ∧ n ≠ dotdot)
    ⟨fun h => ⟨h.1, h.2.1, h.2.2⟩, fun h => ⟨h.1, h.2, h.3⟩⟩

theorem IsName.ne_nil (h : IsName n) : n ≠ [] := by
  rintro rfl
  exact absurd h.not_idle (by decide)

theorem lead_cases (p : Path) : p.lead = [] ∨ (p.lead = [slash] ∧ ∃ rest, p = slash :: rest) ∨
    (p.lead = dot ∧ (p = dot ∨ ∃ rest, p = dot ++ slash :: rest)) := by
  cases p with
  | nil => exact Or.inl rfl
  | cons b rest =>
    rw [lead]
    split_ifs with hslash hdot
    · exact Or.inr (Or.inl ⟨rfl, rest, by rw [hslash]⟩)
    · refine Or.inr (Or.inr ⟨rfl, ?_⟩)
      simp only [Bool.and_eq_true, Bool.or_eq_true, decide_eq_true_eq, List.isEmpty_iff] at hdot
      obtain ⟨hb, rfl | hrest⟩ := hdot
      · exact Or.inl hb
      · obtain ⟨more, rfl⟩ := List.head?_eq_some_iff.1 hrest
        exact Or.inr ⟨more, by rw [← hb]; rfl⟩
    · exact Or.inl rfl

theorem lead_eq_nil_of_isName (h : IsName n) : lead n = [] := by
  rcases lead_cases n with hlead | ⟨-, rest, rfl⟩ | ⟨-, rfl | ⟨rest, rfl⟩⟩
  · exact hlead
  · exact absurd List.mem_cons_self h.slash_not_mem
  · exact absurd h.not_idle (by decide)
  · exact absurd (List.mem_append_right dot List.mem_cons_self) h.slash_not_mem

theorem lead_append_slash (hp : p ≠ []) (q : Path) : lead (p ++ slash :: q) = lead p := by
  obtain ⟨b, rest, rfl⟩ := List.exists_cons_of_ne_nil hp
  cases rest <;> simp [lead]

theorem lead_append_drop (p : Path) : p.lead ++ p.drop p.lead.length = p := by
  rcases lead_cases p with hlead | ⟨hlead, rest, rfl⟩ | ⟨hlead, rfl | ⟨rest, rfl⟩⟩ <;>
    rw [hlead] <;> rfl

theorem length_lead_le (p : Path) : p.lead.length ≤ p.length := by
  conv_rhs => rw [← lead_append_drop p, List.length_append]
  exact Nat.le_add_right _ _

theorem intercalate_segments (p : Path) : p.lead ++ [slash].intercalate p.segments = p := by
  rw [segments, List.intercalate_splitOn, lead_append_drop]

theorem segments_append_slash (hp : p ≠ []) (q : Path) :
    segments (p ++ slash :: q) = segments p ++ q.splitOn slash := by
  rw [segments, lead_append_slash hp, List.drop_append_of_le_length (length_lead_le p),
    List.splitOn_append_cons_self, segments]

theorem leadComponent_append_slash (hp : p ≠ []) (q : Path) :
    leadComponent (p ++ slash :: q) = leadComponent p := by
  rw [leadComponent, lead_append_slash hp, leadComponent]

theorem components_append_slash (hp : p ≠ []) (q : Path) :
    components (p ++ slash :: q) = components p ++
      ((q.splitOn slash).filter fun s => !isIdle s).map .ofSegment := by
  rw [components, leadComponent_append_slash hp, segments_append_slash hp, List.filter_append,
    List.map_append, components, List.append_assoc]

theorem directorySegments_append (hs : isIdle s = false) (hafter : ∀ t ∈ after, isIdle t) :
    directorySegments (front ++ s :: after) = front.rdropWhile isIdle := by
  have hidle : after.reverse.dropWhile isIdle = [] := by simpa using hafter
  simp [directorySegments, List.rdropWhile, List.dropWhile_append, hidle, hs]

theorem directory_append_slash (hp : p ≠ []) (hn : IsName n) (hlast : ∃ front s,
    segments p = front ++ [s] ∧ isIdle s = false) : directory (p ++ slash :: n) = p := by
  obtain ⟨front, s, hsegments, hs⟩ := hlast
  rw [directory, lead_append_slash hp, segments_append_slash hp,
    List.splitOn_eq_singleton hn.slash_not_mem]
  have hkept : directorySegments (segments p ++ [n]) = segments p := by
    rw [directorySegments_append hn.not_idle (List.forall_mem_nil _), hsegments,
      List.rdropWhile_concat_neg _ _ _ (by simp [hs])]
  rw [hkept, intercalate_segments]

theorem isAbsolute_eq_false_of_isName (hn : IsName n) : isAbsolute n = false := by
  rw [isAbsolute, decide_eq_false_iff_not]
  exact fun he => hn.slash_not_mem (List.mem_of_head? he)

theorem segments_of_isName (hn : IsName n) : segments n = [n] := by
  rw [segments, lead_eq_nil_of_isName hn, List.length_nil, List.drop_zero,
    List.splitOn_eq_singleton hn.slash_not_mem]

theorem segments_slash_cons (hn : slash ∉ n) : segments (slash :: n) = [n] := by
  have hlead : lead (slash :: n) = [slash] := by simp [lead]
  rw [segments, hlead]
  exact List.splitOn_eq_singleton hn

theorem join_cases (hn : IsName n) (base : Path) :
    (base = [] ∧ base.join n = n) ∨
    (∃ front, base = front ++ [slash] ∧ base.join n = front ++ slash :: n) ∨
    (base ≠ [] ∧ base.getLast? ≠ some slash ∧ base.join n = base ++ slash :: n) := by
  rw [join, isAbsolute_eq_false_of_isName hn, if_neg Bool.false_ne_true]
  rcases base.eq_nil_or_concat' with rfl | ⟨front, b, rfl⟩
  · exact Or.inl ⟨rfl, rfl⟩
  · by_cases hb : b = slash
    · refine Or.inr (Or.inl ⟨front, by rw [hb], ?_⟩)
      simp [hb]
    · refine Or.inr (Or.inr ⟨by simp, by simpa using hb, ?_⟩)
      simp [hb]

theorem components_join (hn : IsName n) (base : Path) :
    (base.join n).components = base.components ++ [.name n] := by
  have hname : ([n].filter fun s => !isIdle s).map Component.ofSegment = [.name n] := by
    simp [hn.not_idle, Component.ofSegment, hn.ne_dotdot]
  have hsplit : n.splitOn slash = [n] := List.splitOn_eq_singleton hn.slash_not_mem
  rcases join_cases hn base with ⟨rfl, hjoin⟩ | ⟨front, rfl, hjoin⟩ | ⟨hbase, -, hjoin⟩
  · rw [hjoin, components, leadComponent, lead_eq_nil_of_isName hn, segments_of_isName hn, hname]
    rfl
  · rw [hjoin]
    by_cases hfront : front = []
    · subst hfront
      have hlead : leadComponent (slash :: n) = [.root] := by simp [leadComponent, lead, dot, slash]
      rw [List.nil_append, components, segments_slash_cons hn.slash_not_mem, hname, hlead]
      rfl
    · rw [components_append_slash hfront, hsplit, hname, components_append_slash hfront]
      simp [isIdle]
  · rw [hjoin, components_append_slash hbase, hsplit, hname]

theorem exists_segments_join (hn : IsName n) (base : Path) :
    ∃ front, segments (base.join n) = front ++ [n] := by
  have hsplit : n.splitOn slash = [n] := List.splitOn_eq_singleton hn.slash_not_mem
  rcases join_cases hn base with ⟨rfl, hjoin⟩ | ⟨front, rfl, hjoin⟩ | ⟨hbase, -, hjoin⟩
  · exact ⟨[], by rw [hjoin, segments_of_isName hn, List.nil_append]⟩
  · rw [hjoin]
    by_cases hfront : front = []
    · exact ⟨[], by rw [hfront, List.nil_append, segments_slash_cons hn.slash_not_mem,
        List.nil_append]⟩
    · exact ⟨_, by rw [segments_append_slash hfront, hsplit]⟩
  · exact ⟨_, by rw [hjoin, segments_append_slash hbase, hsplit]⟩

theorem getLast?_join (hn : IsName n) (base : Path) : (base.join n).getLast? = n.getLast? := by
  rcases join_cases hn base with ⟨-, hjoin⟩ | ⟨front, -, hjoin⟩ | ⟨-, -, hjoin⟩
  · rw [hjoin]
  · rw [hjoin, List.getLast?_append_of_ne_nil _ (List.cons_ne_nil _ _),
      List.getLast?_cons_of_ne_nil hn.ne_nil]
  · rw [hjoin, List.getLast?_append_of_ne_nil _ (List.cons_ne_nil _ _),
      List.getLast?_cons_of_ne_nil hn.ne_nil]

theorem directory_join {m : List UInt8} (hm : IsName m) (hn : IsName n) (base : Path) :
    ((base.join m).join n).directory = base.join m := by
  -- the path before the last name ends with a name, so a slash is put between them
  have hlast : (base.join m).getLast? ≠ some slash := by
    rw [getLast?_join hm]
    exact fun he => hm.slash_not_mem (List.mem_of_getLast? he)
  obtain ⟨front, hsegments⟩ := exists_segments_join hm base
  rcases join_cases hn (base.join m) with ⟨hnil, -⟩ | ⟨back, hback, -⟩ | ⟨hne, -, hjoin⟩
  · have hnone := getLast?_join hm base
    rw [hnil, List.getLast?_nil, eq_comm, List.getLast?_eq_none_iff] at hnone
    exact absurd hnone hm.ne_nil
  · rw [hback] at hlast
    simp at hlast
  · rw [hjoin]
    exact directory_append_slash hne hn ⟨front, m, hsegments, hm.not_idle⟩

end Restack.Path
