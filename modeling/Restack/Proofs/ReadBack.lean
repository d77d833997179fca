import Mathlib.Data.List.Forall2
import Restack.Plan
import Restack.Shell

/-!
# Printed plans read back

The reader takes a quoted name for the name itself, whatever stands before and behind it, so the
pieces of a command come out as its words and the lines of a plan as its commands. A character of
a name never has the shell do anything.
-/

namespace Restack.Shell

variable {p : Position} {c : Char} {name rest : List Char}

namespace Position

def extend (p : Position) (w : List Char) : Position :=
  { p with current := some (p.current.getD [] ++ w) }

@[simp] theorem push_eq_extend : p.push c = p.extend [c] := rfl

@[simp] theorem openWord_eq_extend : p.openWord = p.extend [] := by
  simp [openWord, extend]

@[simp] theorem extend_extend (u v : List Char) : (p.extend u).extend v = p.extend (u ++ v) := by
  simp [extend]

end Position

def active : List Char :=
  ['\n', ' ', '\t', '\'', '\\', '$', '\x60', '"', '&', '|', ';', '<', '>', '(', ')', '*', '?',
    '[', ']', '{', '}', '!', '#']

theorem not_active_of_isPlain (h : isPlain c) : c ∉ active ∧ c ≠ '~' := by
  have hnone : ('~' :: active).all (!isPlain ·) := by decide
  have hc : c ∉ '~' :: active := fun hmem => by simpa [h] using List.all_eq_true.1 hnone c hmem
  rw [List.mem_cons, not_or] at hc
  exact hc.symm

theorem readPlain_of_not_active (hc : c ∉ active) (htilde : c = '~' → p.current.isSome) :
    readPlain p (c :: rest) = readPlain (p.extend [c]) rest := by
  simp only [active, List.mem_cons, List.not_mem_nil, or_false, not_or] at hc
  have hp : (c = '~' && p.current.isNone) = false := by simpa using htilde
  simp [readPlain, isSeparator, isSpecial, hc, hp]

theorem readPlain_append (h : ∀ c ∈ name, c ∉ active) (hne : name ≠ [])
    (htilde : name.head? = some '~' → p.current.isSome) :
    readPlain p (name ++ rest) = readPlain (p.extend name) rest := by
  induction name generalizing p with
  | nil => exact absurd rfl hne
  | cons c name ih =>
    rw [List.cons_append, readPlain_of_not_active (h c (by simp)) (by simpa using htilde)]
    cases name with
    | nil => rfl
    | cons d name =>
      rw [ih (fun x hx => h x (List.mem_cons_of_mem c hx)) (by simp) (by simp [Position.extend])]
      simp

theorem readQuoted_quoted :
    readQuoted p (quoted c ++ rest) = readQuoted (p.extend [c]) rest := by
  by_cases hc : c = '\''
  -- the quotes are left, one stands escaped, and they are opened again
  · simp [quoted, hc, readQuoted, readPlain, readEscaped, isSeparator]
  · simp [quoted, hc, readQuoted]

theorem readQuoted_flatMap_quoted :
    readQuoted p.openWord (name.flatMap quoted ++ '\'' :: rest) = readPlain (p.extend name) rest := by
  induction name generalizing p with
  | nil => simp [readQuoted]
  | cons c name ih =>
    have hnext := @ih (p.extend [c])
    simp only [Position.openWord_eq_extend, Position.extend_extend, List.append_nil] at hnext
    rw [List.flatMap_cons, List.append_assoc, readQuoted_quoted]
    simpa using hnext

theorem readPlain_word (name rest : List Char) :
    readPlain p (word name ++ rest) = readPlain (p.extend name) rest := by
  unfold word
  split
  next h =>
    simp only [isPlainName, Bool.and_eq_true, Bool.not_eq_true', List.isEmpty_eq_false_iff,
      List.all_eq_true] at h
    obtain ⟨hne, hplain⟩ := h
    refine readPlain_append (fun c hc => (not_active_of_isPlain (hplain c hc)).1) hne fun hhead => ?_
    exact absurd rfl (not_active_of_isPlain (hplain '~' (List.mem_of_head? hhead))).2
  next =>
    have hquoted := @readQuoted_flatMap_quoted p name rest
    simpa [readPlain, isSeparator] using hquoted

def Writes (text word : List Char) : Prop :=
  ∀ p rest, p.current = none → readPlain p (text ++ rest) = readPlain (p.extend word) rest

theorem writes_self {w : List Char} (h : w.all (· ∉ active)) (hhead : w.head? ≠ some '~')
    (hne : w ≠ []) : Writes w w := by
  intro p rest _
  have hactive : ∀ c ∈ w, c ∉ active := by simpa using h
  exact readPlain_append hactive hne fun h => absurd h hhead

theorem writes_word (name : List Char) : Writes (word name) name := by
  intro p rest _
  exact readPlain_word name rest

/-- The tilde of a revision stands inside of a word, where it means nothing to a shell. -/
theorem writes_word_append {name suffix : List Char} (h : suffix.all (· ∉ active))
    (hne : suffix ≠ []) : Writes (word name ++ suffix) (name ++ suffix) := by
  intro p rest _
  have hactive : ∀ c ∈ suffix, c ∉ active := by simpa using h
  rw [List.append_assoc, readPlain_word, readPlain_append hactive hne (by simp [Position.extend])]
  simp

theorem writes_append_word {before name : List Char} (h : Writes before before) :
    Writes (before ++ word name) (before ++ name) := by
  intro p rest hp
  rw [List.append_assoc, h p _ hp, readPlain_word]
  simp

theorem readPlain_blank : readPlain p (' ' :: rest) = readPlain p.endWord rest := by
  simp [readPlain, isSeparator]

theorem readPlain_newline : readPlain p ('\n' :: rest) = readPlain p.endCommand rest := by
  simp [readPlain]

theorem readPlain_line {texts words : List (List Char)} (h : List.Forall₂ Writes texts words)
    (hne : words ≠ []) (hp : p.current = none) :
    readPlain p ([' '].intercalate texts ++ '\n' :: rest) =
      readPlain ⟨p.commands ++ [p.words ++ words], [], none⟩ rest := by
  induction h generalizing p with
  | nil => exact absurd rfl hne
  | @cons text word texts words hword hwords ih =>
    cases hwords with
    | nil =>
      rw [List.intercalate_singleton, hword p _ hp, readPlain_newline]
      simp [Position.endCommand, Position.endWord, Position.extend, hp]
    | @cons text' word' texts words hword' hwords =>
      have hnext : (p.extend word).endWord.current = none := rfl
      rw [List.intercalate_cons_cons, List.append_assoc, List.append_assoc, hword p _ hp,
        List.singleton_append, readPlain_blank, ih (by simp) hnext]
      simp [Position.endWord, Position.extend, hp]

def IsPortable (c : Char) : Prop :=
  ('A' ≤ c ∧ c ≤ 'Z') ∨ ('a' ≤ c ∧ c ≤ 'z') ∨ ('0' ≤ c ∧ c ≤ '9') ∨
    c = '.' ∨ c = '_' ∨ c = '/' ∨ c = '-'

theorem isPlain_iff : isPlain c ↔ IsPortable c := by
  have hupper : c.isUpper = true ↔ 'A' ≤ c ∧ c ≤ 'Z' := decide_eq_true_iff
  have hlower : c.isLower = true ↔ 'a' ≤ c ∧ c ≤ 'z' :=
    Bool.and_eq_true_iff.trans (and_congr decide_eq_true_iff decide_eq_true_iff)
  have hdigit : c.isDigit = true ↔ '0' ≤ c ∧ c ≤ '9' :=
    Bool.and_eq_true_iff.trans (and_congr decide_eq_true_iff decide_eq_true_iff)
  have halphanum : c.isAlphanum = (c.isUpper || c.isLower || c.isDigit) := rfl
  simp only [isPlain, IsPortable, halphanum, Bool.or_eq_true, hupper, hlower, hdigit,
    decide_eq_true_eq]
  grind

theorem isPlainName_iff : isPlainName name ↔ name ≠ [] ∧ ∀ c ∈ name, IsPortable c := by
  simp [isPlainName, isPlain_iff]

theorem quote_of_isPlainName {name : String} (h : isPlainName name.toList) :
    quote name = name := by
  simp [quote, word, h]

theorem flatMap_quoted_eq_intercalate (cs : List Char) :
    cs.flatMap quoted = ['\'', '\\', '\'', '\''].intercalate (cs.splitOn '\'') := by
  induction cs with
  | nil => rfl
  | cons c cs ih =>
    have hne : cs.splitOn '\'' ≠ [] := List.splitOn_ne_nil '\'' cs
    rw [List.flatMap_cons, ih, List.splitOn_cons_eq_if_modifyHead]
    by_cases hc : c = '\''
    · simp [hc, quoted, List.intercalate_cons_of_ne_nil hne]
    · obtain ⟨piece, pieces, hsplit⟩ := List.exists_cons_of_ne_nil hne
      simp [hc, quoted, hsplit]

theorem quote_of_not_isPlainName {name : String} (h : ¬ isPlainName name.toList) :
    quote name =
      "'" ++ "'\\''".intercalate ((name.toList.splitOn '\'').map String.ofList) ++ "'" := by
  simp [← String.toList_inj, word, h, flatMap_quoted_eq_intercalate]

theorem length_le_flatMap_quoted (cs : List Char) : cs.length ≤ (cs.flatMap quoted).length := by
  induction cs with
  | nil => simp
  | cons c cs ih =>
    have hc : 1 ≤ (quoted c).length := by unfold quoted; split <;> simp
    simp only [List.flatMap_cons, List.length_append, List.length_cons]
    omega

theorem quote_eq_self_iff {name : String} :
    quote name = name ↔ name ≠ "" ∧ ∀ c ∈ name.toList, IsPortable c := by
  have hname : name ≠ "" ↔ name.toList ≠ [] := by simp
  rw [hname, ← isPlainName_iff]
  refine ⟨fun h => ?_, quote_of_isPlainName⟩
  by_contra hplain
  -- the quotes make the text longer than the name
  have hself : (word name.toList).length = name.toList.length := by rw [← toList_quote, h]
  have hle := length_le_flatMap_quoted name.toList
  simp only [word, hplain, if_false, List.length_append, List.length_cons,
    List.length_nil] at hself
  omega

end Restack.Shell

namespace Restack

open Shell

namespace Step

def words (strategy : String) (s : Step) : List String :=
  ["git", "rebase", "-X", strategy, s.branch ++ "~1", s.branch, "--onto=" ++ s.onto]

theorem command_eq_intercalate (s : Step) (strategy : String) :
    s.command strategy = " ".intercalate ["git", "rebase", "-X", quote strategy,
      quote s.branch ++ "~1", quote s.branch, "--onto=" ++ quote s.onto] := by
  have hstart : "git rebase -X " = "git" ++ " " ++ ("rebase" ++ " " ++ ("-X" ++ " ")) := by simp
  have honto : " --onto=" = " " ++ "--onto=" := by simp
  unfold command quoteRevision
  rw [hstart, honto]
  simp only [String.intercalate_cons_cons, String.intercalate_singleton, String.append_assoc]

theorem readPlain_command (s : Step) (strategy : String) {p : Position} (hp : p.current = none)
    (rest : List Char) : readPlain p ((s.command strategy ++ "\n").toList ++ rest) =
      readPlain ⟨p.commands ++ [p.words ++ (s.words strategy).map String.toList], [], none⟩ rest := by
  have hwritten : List.Forall₂ Writes
      (["git", "rebase", "-X", quote strategy, quote s.branch ++ "~1", quote s.branch,
        "--onto=" ++ quote s.onto].map String.toList) ((s.words strategy).map String.toList) := by
    simp only [words, List.map_cons, List.map_nil, String.toList_append, toList_quote]
    have hgit : Writes "git".toList "git".toList := writes_self (by decide) (by decide) (by decide)
    have hrebase : Writes "rebase".toList "rebase".toList := writes_self (by decide) (by decide) (by decide)
    have hoption : Writes "-X".toList "-X".toList := writes_self (by decide) (by decide) (by decide)
    have honto : Writes "--onto=".toList "--onto=".toList := writes_self (by decide) (by decide) (by decide)
    exact .cons hgit <| .cons hrebase <| .cons hoption <| .cons (writes_word _) <|
      .cons (writes_word_append (by decide) (by decide)) <| .cons (writes_word _) <|
      .cons (writes_append_word honto) .nil
  have hline := @readPlain_line p rest _ _ hwritten (by simp [words]) hp
  rw [command_eq_intercalate, String.toList_append, String.toList_intercalate, List.append_assoc]
  exact hline

theorem readPlain_commands (steps : List Step) (strategy : String)
    (commands : List (List (List Char))) :
    readPlain ⟨commands, [], none⟩
        (String.join (steps.map fun s => s.command strategy ++ "\n")).toList =
      some ⟨commands ++ steps.map fun s => (s.words strategy).map String.toList, [], none⟩ := by
  induction steps generalizing commands with
  | nil => simp [readPlain, Position.endCommand, Position.endWord]
  | cons s steps ih =>
    rw [List.map_cons, String.join_cons, String.toList_append, readPlain_command s strategy rfl, ih]
    simp

end Step

namespace Plan

/-- A plan that is printed, one command to a line, reads back as its commands, each with the names
themselves among its seven words. A name stands unquoted exactly if it is not empty and only made
of portable characters. -/
theorem read_commands (steps : List Step) (strategy : String) :
    Shell.read (String.join (steps.map fun s => s.command strategy ++ "\n")) =
      some (steps.map fun s => ["git", "rebase", "-X", strategy, s.branch ++ "~1", s.branch,
        "--onto=" ++ s.onto]) ∧
    (∀ s : Step, s.command strategy = " ".intercalate ["git", "rebase", "-X", quote strategy,
      quote s.branch ++ "~1", quote s.branch, "--onto=" ++ quote s.onto]) ∧
    ∀ name : String,
      (quote name = name ↔ name ≠ "" ∧ ∀ c ∈ name.toList, IsPortable c) ∧
      (quote name ≠ name → quote name =
        "'" ++ "'\\''".intercalate ((name.toList.splitOn '\'').map String.ofList) ++ "'") := by
  refine ⟨?_, fun s => s.command_eq_intercalate strategy, fun name => ⟨quote_eq_self_iff, ?_⟩⟩
  · have hback : ∀ s : Step, ((s.words strategy).map String.toList).map String.ofList =
        s.words strategy := by simp
    rw [Shell.read, Position.start, Step.readPlain_commands, Option.map_some, List.nil_append,
      List.map_map]
    exact congrArg some (List.map_congr_left fun s _ => hback s)
  · intro hne
    exact quote_of_not_isPlainName fun h => hne (quote_of_isPlainName h)

end Plan

end Restack
