import Mathlib.Data.List.Induction
import Restack.Proofs.ArgumentForms

/-!
# The argument that settles

Arguments are read from the left until one of them settles what happens: a flag, an option that is
wrong, or a path after another path. Nothing that follows it counts. If none does, a path is the
answer, unless there is none or it is empty. An empty path is also refused at a flag after it.
-/

namespace Restack.Arguments

variable {before args : List (List UInt8)} {a d name : List UInt8} {o : Outcome}
  {found : Option Path} {literal : Bool}

def IsPathAfter (before : List (List UInt8)) (a : List UInt8) : Prop :=
  dashes ∈ before ∨ Written .positional a

def HasPath (args : List (List UInt8)) (d : Path) : Prop :=
  ∃ earlier later, args = earlier ++ d :: later ∧ IsPathAfter earlier d

/-- What an argument settles where it stands, behind the others. -/
inductive Settles (before : List (List UInt8)) : List UInt8 → Outcome → Prop
  | flag {a : List UInt8} {f : Flag} (hopen : dashes ∉ before) (ha : Written (.flag f) a)
      (hempty : ¬ HasPath before []) : Settles before a (.flag f)
  | emptyValue {a : List UInt8} {f : Flag} (hopen : dashes ∉ before) (ha : Written (.flag f) a)
      (hempty : HasPath before []) : Settles before a (.refused .emptyValue)
  | wrong {a : List UInt8} {p : Problem} (hopen : dashes ∉ before) (ha : Written (.wrong p) a) :
      Settles before a (.refused p)
  | surplus {a : List UInt8} {d : Path} (ha : IsPathAfter before a) (hd : HasPath before d) :
      Settles before a (.refused (.surplus (Utf8.decodeLossy a)))

def Unsettled (args : List (List UInt8)) : Prop :=
  ∀ earlier a later o, args = earlier ++ a :: later → ¬ Settles earlier a o

theorem Unsettled.of_concat (h : Unsettled (before ++ [a])) : Unsettled before := by
  intro earlier b later o hsplit
  exact h earlier b (later ++ [a]) o (by rw [hsplit, List.append_assoc, List.cons_append])

theorem Unsettled.not_settles (h : Unsettled (before ++ [a])) (o : Outcome) :
    ¬ Settles before a o := h before a [] o rfl

theorem hasPath_concat_iff :
    HasPath (before ++ [a]) d ↔ HasPath before d ∨ a = d ∧ IsPathAfter before a := by
  constructor
  · intro h
    obtain ⟨earlier, later, hsplit, hd⟩ := h
    rcases later.eq_nil_or_concat' with rfl | ⟨later, b, rfl⟩
    · obtain ⟨rfl, hlast⟩ := List.append_inj' hsplit rfl
      obtain rfl := List.singleton_inj.1 hlast
      exact .inr ⟨rfl, hd⟩
    · rw [← List.cons_append, ← List.append_assoc] at hsplit
      exact .inl ⟨earlier, later, (List.append_inj' hsplit rfl).1, hd⟩
  · intro h
    rcases h with ⟨earlier, later, rfl, hd⟩ | ⟨rfl, hd⟩
    · exact ⟨earlier, later ++ [a], by simp, hd⟩
    · exact ⟨before, [], rfl, hd⟩

/-- What is known when the arguments `before` have been read. -/
structure Met (before : List (List UInt8)) (found : Option Path) (literal : Bool) : Prop where
  literal_iff : literal ↔ dashes ∈ before
  found_iff : ∀ d, found = some d ↔ HasPath before d

theorem met_nil : Met [] none false where
  literal_iff := by simp
  found_iff d := by simp [HasPath]

theorem parseFrom_of_path (h : literal ∨ Written .positional a) (rest : List (List UInt8)) :
    parseFrom found literal (a :: rest) =
      match found with
      | none => parseFrom (some a) literal rest
      | some _ => .refused (.surplus (Utf8.decodeLossy a)) := by
  have htoken : (if literal then .positional else Token.ofArgument a) = .positional := by
    by_cases hliteral : literal
    · rw [if_pos hliteral]
    · rw [if_neg hliteral, (h.resolve_left hliteral).ofArgument_eq]
  cases found <;> simp only [parseFrom, htoken]

namespace Met

theorem isPathAfter_iff (h : Met before found literal) :
    IsPathAfter before a ↔ (literal ∨ Written .positional a) := by
  rw [IsPathAfter, h.literal_iff]

theorem concat_path (h : Met before none literal) (ha : IsPathAfter before a) :
    Met (before ++ [a]) (some a) literal where
  literal_iff := by
    have hdashes : dashes = a → dashes ∈ before := by
      rintro rfl
      exact ha.resolve_right fun hpath => absurd hpath.ofArgument_eq (by decide)
    rw [h.literal_iff, List.mem_append, List.mem_singleton]
    exact ⟨.inl, fun hmem => hmem.elim id hdashes⟩
  found_iff d := by
    simp [hasPath_concat_iff, ← h.found_iff, ha]

theorem concat_dashes (h : Met before found false) : Met (before ++ [dashes]) found true where
  literal_iff := by simp
  found_iff d := by
    have hnot : ¬ IsPathAfter before dashes := by
      rw [h.isPathAfter_iff]
      rintro (hliteral | hpath)
      · cases hliteral
      · exact absurd hpath.ofArgument_eq (by decide)
    rw [hasPath_concat_iff, h.found_iff]
    exact ⟨.inl, fun hd => hd.resolve_right fun hlast => hnot hlast.2⟩

theorem parseFrom_of_settles (h : Met before found literal) (ha : Settles before a o)
    (rest : List (List UInt8)) : parseFrom found literal (a :: rest) = o := by
  have hfree : dashes ∉ before → literal = false := fun hopen => by
    rwa [← h.literal_iff, Bool.not_eq_true] at hopen
  cases ha with
  | flag hopen ha hempty =>
    have hfound : found ≠ some [] := fun hd => hempty ((h.found_iff []).1 hd)
    simp [parseFrom, hfree hopen, ha.ofArgument_eq, hfound]
  | emptyValue hopen ha hempty =>
    simp [parseFrom, hfree hopen, ha.ofArgument_eq, (h.found_iff []).2 hempty]
  | wrong hopen ha => simp [parseFrom, hfree hopen, ha.ofArgument_eq]
  | surplus ha hd =>
    rw [parseFrom_of_path (h.isPathAfter_iff.1 ha), (h.found_iff _).2 hd]

theorem exists_step (h : Met before found literal) (ha : ∀ o, ¬ Settles before a o) :
    ∃ found' literal', Met (before ++ [a]) found' literal' ∧
      ∀ rest, parseFrom found literal (a :: rest) = parseFrom found' literal' rest := by
  by_cases hpath : IsPathAfter before a
  · have hnone : found = none := Option.eq_none_iff_forall_ne_some.2 fun d hd =>
      ha _ (.surplus hpath ((h.found_iff d).1 hd))
    subst hnone
    exact ⟨some a, literal, h.concat_path hpath, parseFrom_of_path (h.isPathAfter_iff.1 hpath)⟩
  · obtain ⟨hopen, hnot⟩ := not_or.1 hpath
    have hliteral : literal = false := by rwa [← h.literal_iff, Bool.not_eq_true] at hopen
    subst hliteral
    obtain ⟨t, ht⟩ := exists_written a
    cases t with
    | positional => exact absurd ht hnot
    | terminator =>
      cases ht
      refine ⟨found, true, h.concat_dashes, fun rest => ?_⟩
      simp [parseFrom, Written.terminator.ofArgument_eq]
    | flag f =>
      by_cases hempty : HasPath before []
      · exact absurd (.emptyValue hopen ht hempty) (ha _)
      · exact absurd (.flag hopen ht hempty) (ha _)
    | wrong p => exact absurd (.wrong hopen ht) (ha _)

end Met

theorem exists_met (name : List UInt8) (h : Unsettled before) :
    ∃ found literal, Met before found literal ∧
      ∀ rest, parse (name :: (before ++ rest)) = parseFrom found literal rest := by
  induction before using List.reverseRecOn with
  | nil => exact ⟨none, false, met_nil, fun rest => rfl⟩
  | append_singleton before a ih =>
    obtain ⟨found, literal, hmet, hread⟩ := ih h.of_concat
    obtain ⟨found', literal', hmet', hstep⟩ := hmet.exists_step h.not_settles
    refine ⟨found', literal', hmet', fun rest => ?_⟩
    rw [List.append_assoc, hread, List.singleton_append, hstep]

theorem parse_of_settles (name : List UInt8) (h : Unsettled before) (ha : Settles before a o)
    (after : List (List UInt8)) : parse (name :: (before ++ a :: after)) = o := by
  obtain ⟨found, literal, hmet, hread⟩ := exists_met name h
  rw [hread, hmet.parseFrom_of_settles ha]

theorem exists_parse_eq_atEnd (name : List UInt8) (h : Unsettled args) :
    ∃ found, parse (name :: args) = atEnd found ∧ ∀ d, found = some d ↔ HasPath args d := by
  obtain ⟨found, literal, hmet, hread⟩ := exists_met name h
  have hend : parseFrom found literal [] = atEnd found := by rw [parseFrom]
  refine ⟨found, ?_, hmet.found_iff⟩
  rw [← hend, ← hread [], List.append_nil]

section Accepted

theorem atEnd_eq_path_iff {p : Path} : atEnd (some p) = .path d ↔ p = d ∧ d ≠ [] := by
  rw [atEnd]
  split_ifs with hp
  · refine iff_of_false (by simp) fun h => h.2 (h.1 ▸ hp)
  · rw [Outcome.path.injEq]
    exact ⟨fun h => ⟨h, h ▸ hp⟩, fun h => h.1⟩

theorem parseFrom_found_literal_eq_path_iff {p : Path} :
    parseFrom (some p) true args = .path d ↔ args = [] ∧ p = d ∧ d ≠ [] := by
  cases args with
  | nil => simp [parseFrom, atEnd_eq_path_iff]
  | cons a rest => simp [parseFrom]

theorem parseFrom_literal_eq_path_iff :
    parseFrom none true args = .path d ↔ args = [d] ∧ d ≠ [] := by
  cases args with
  | nil => simp [parseFrom, atEnd]
  | cons a rest =>
    rw [parseFrom_of_path (.inl rfl)]
    simp [parseFrom_found_literal_eq_path_iff, and_left_comm, and_assoc]

theorem parseFrom_cons_eq_path_iff {rest : List (List UInt8)} :
    parseFrom found false (a :: rest) = .path d ↔
      a = dashes ∧ parseFrom found true rest = .path d ∨
      (a = [dash] ∨ a.head? ≠ some dash) ∧ found = none ∧ parseFrom (some a) false rest = .path d := by
  rw [← written_terminator_iff, ← written_positional_iff, ← ofArgument_eq_iff, ← ofArgument_eq_iff]
  obtain ⟨t, ht⟩ := exists_written a
  cases t with
  | positional => cases found <;> simp [parseFrom, ht.ofArgument_eq]
  | terminator => simp [parseFrom, ht.ofArgument_eq]
  | flag f =>
    by_cases hempty : found = some [] <;> simp [parseFrom, ht.ofArgument_eq, hempty]
  | wrong p => simp [parseFrom, ht.ofArgument_eq]

theorem parseFrom_found_eq_path_iff {p : Path} : parseFrom (some p) false args = .path d ↔
    (args = [] ∨ args = [dashes]) ∧ p = d ∧ d ≠ [] := by
  cases args with
  | nil => simp [parseFrom, atEnd_eq_path_iff]
  | cons a rest =>
    simp [parseFrom_cons_eq_path_iff, parseFrom_found_literal_eq_path_iff, and_assoc]

theorem parse_eq_path_iff : parse (name :: args) = .path d ↔ d ≠ [] ∧
    ((args = [d] ∨ args = [d, dashes]) ∧ (d = [dash] ∨ d.head? ≠ some dash) ∨
      args = [dashes, d]) := by
  change parseFrom none false args = .path d ↔ _
  cases args with
  | nil => simp [parseFrom, atEnd]
  | cons a rest =>
    rw [parseFrom_cons_eq_path_iff, parseFrom_literal_eq_path_iff, parseFrom_found_eq_path_iff]
    simp only [List.cons.injEq, true_and]
    constructor
    · intro h
      rcases h with ⟨rfl, rfl, hd⟩ | ⟨hpath, hrest, rfl, hd⟩
      · exact ⟨hd, .inr ⟨rfl, rfl⟩⟩
      · exact ⟨hd, .inl ⟨hrest.imp (⟨rfl, ·⟩) (⟨rfl, ·⟩), hpath⟩⟩
    · intro h
      obtain ⟨hd, ⟨⟨rfl, rfl⟩ | ⟨rfl, rfl⟩, hpath⟩ | ⟨rfl, rfl⟩⟩ := h
      · exact .inr ⟨hpath, .inl rfl, rfl, hd⟩
      · exact .inr ⟨hpath, .inr rfl, rfl, hd⟩
      · exact .inl ⟨rfl, rfl, hd⟩

end Accepted

/-- Whatever the program is called by, its arguments give a path exactly if this stands alone, with
two dashes behind it, or, of any form, with two dashes before it. The first argument that settles an
outcome gives it, whatever follows. If there is none, an empty path is refused, and so is no path at
all. -/
theorem parse_follows_grammar (name : List UInt8) :
    (∀ args d, parse (name :: args) = .path d ↔ d ≠ [] ∧
      ((args = [d] ∨ args = [d, dashes]) ∧ (d = [dash] ∨ d.head? ≠ some dash) ∨
        args = [dashes, d])) ∧
    (∀ before a o, Unsettled before → Settles before a o →
      ∀ after, parse (name :: (before ++ a :: after)) = o) ∧
    ∀ args, Unsettled args →
      (HasPath args [] → parse (name :: args) = .refused .emptyValue) ∧
      ((∀ d, ¬ HasPath args d) → parse (name :: args) = .refused .missing) ∧
      ∀ d, HasPath args d → d ≠ [] → parse (name :: args) = .path d := by
  refine ⟨fun args d => parse_eq_path_iff, fun before a o => parse_of_settles name,
    fun args h => ?_⟩
  obtain ⟨found, hparse, hfound⟩ := exists_parse_eq_atEnd name h
  refine ⟨fun hempty => ?_, fun hnone => ?_, fun d hd hne => ?_⟩
  · rw [hparse, (hfound []).2 hempty]
    rfl
  · have hnone : found = none :=
      Option.eq_none_iff_forall_ne_some.2 fun d hd => hnone d ((hfound d).1 hd)
    rw [hparse, hnone]
    rfl
  · rw [hparse, (hfound d).2 hd, atEnd, if_neg hne]

theorem not_hasPath_nil : ¬ HasPath [] d := by simp [HasPath]

theorem hasPath_singleton_iff : HasPath [a] d ↔ a = d ∧ Written .positional a := by
  have hconcat := @hasPath_concat_iff [] a d
  simpa [not_hasPath_nil, IsPathAfter] using hconcat

theorem unsettled_singleton (h : Written .positional a ∨ Written .terminator a) :
    Unsettled [a] := by
  intro earlier b later o hsplit hsettles
  obtain ⟨rfl, rfl, -⟩ : earlier = [] ∧ b = a ∧ later = [] := by
    simpa [List.singleton_eq_append_iff] using hsplit
  have htoken : Token.ofArgument b = .positional ∨ Token.ofArgument b = .terminator :=
    h.imp Written.ofArgument_eq Written.ofArgument_eq
  cases hsettles with
  | flag _ ha | emptyValue _ ha | wrong _ ha =>
    rw [ha.ofArgument_eq] at htoken
    simp at htoken
  | surplus _ hd => exact not_hasPath_nil hd

theorem parse_follows_grammar_cluster :
    let name := Utf8.encode "rebase-plan"
    let repo := Utf8.encode "repo/.git"
    (Unsettled [repo] ∧ Settles [repo] (Utf8.encode "-Vh") (.flag .version) ∧
      ∀ after, parse (name :: repo :: Utf8.encode "-Vh" :: after) = .flag .version) ∧
    (Unsettled [dashes] ∧ parse [name, dashes] = .refused .missing) ∧
    parse [name, dashes, Utf8.encode "-h"] = .path (Utf8.encode "-h") := by
  intro name repo
  obtain ⟨hpaths, hsettled, hunsettled⟩ := parse_follows_grammar name
  have hrepo : Unsettled [repo] := unsettled_singleton (.inl (.path (by decide)))
  have hcluster : Settles [repo] (Utf8.encode "-Vh") (.flag .version) := by
    refine .flag (by decide) (.version (Utf8.encode "h")) ?_
    rw [hasPath_singleton_iff]
    exact fun h => absurd h.1 (by decide)
  have hdashes : Unsettled [dashes] := unsettled_singleton (.inr .terminator)
  obtain ⟨-, hmissing, -⟩ := hunsettled [dashes] hdashes
  refine ⟨⟨hrepo, hcluster, hsettled [repo] _ _ hrepo hcluster⟩, ⟨hdashes, hmissing fun d hd => ?_⟩,
    (hpaths _ _).2 ⟨by decide, .inr rfl⟩⟩
  exact absurd (hasPath_singleton_iff.1 hd).2.ofArgument_eq (by decide)

/-- The flag is the first argument that settles anything, and yet help is not what is given. -/
theorem parse_ne_help_of_emptyPath :
    let argv := [Utf8.encode "rebase-plan", [], Utf8.encode "-h"]
    Unsettled [[]] ∧ dashes ∉ [([] : List UInt8)] ∧ Written (.flag .help) (Utf8.encode "-h") ∧
      parse argv = .refused .emptyValue ∧ parse argv ≠ .flag .help := by
  intro argv
  have hempty : Written .positional [] := .path (by decide)
  have hhelp : Written (.flag .help) (Utf8.encode "-h") := .help []
  have hunsettled : Unsettled [[]] := unsettled_singleton (.inl hempty)
  have hsettles : Settles [[]] (Utf8.encode "-h") (.refused .emptyValue) :=
    .emptyValue (by decide) hhelp (hasPath_singleton_iff.2 ⟨rfl, hempty⟩)
  have hparse : parse argv = .refused .emptyValue := parse_of_settles _ hunsettled hsettles []
  refine ⟨hunsettled, by decide, hhelp, hparse, ?_⟩
  rw [hparse]
  decide

end Restack.Arguments
