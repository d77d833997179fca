import Restack.FileTree
import Restack.Program
import Restack.Proofs.SplitPaths

/-!
# Opening the log

Whether the log is opened depends on its path, on whether the directory of the path can be made, and
on whether the appender can be opened there. The program ends early if the appender cannot, or if
it can and the first message meets an argument that is no text; else it answers.
-/

namespace Restack

open LogFile

variable {σ : Type} {platform : Platform σ} {s : σ} {log : LogFile.Environment} {p : Path}

namespace LogFile

theorem exists_path_eq_join (h : path log = .ok p) : ∃ base : Path, p = base.join fileName := by
  unfold path at h
  split at h
  next q hq =>
    cases h
    obtain ⟨base, hbase⟩ := exists_eq_join_of_path? hq
    exact ⟨_, hbase⟩
  next =>
    cases hdirectory : log.currentDirectory with
    | error e => simp [hdirectory, Except.map] at h
    | ok directory => exact ⟨directory, by simpa [hdirectory, Except.map, eq_comm] using h⟩

theorem openOn_of_path_error {e : String} (h : path log = .error e) :
    openOn platform log s = (.unavailable, s) := by
  simp [openOn, h]

theorem openOn_of_path (h : path log = .ok p) : openOn platform log s =
    let made := platform.makeDirectories s p.directory
    if made.1 then
      match platform.openAppender made.2 p.directory "rebase-plan.log" with
      | .error text => (.refused text, made.2)
      | .ok s' => (.opened, s')
    else (.unavailable, made.2) := by
  obtain ⟨base, rfl⟩ := exists_path_eq_join h
  simp only [openOn, h, split?_join]
  rcases platform.makeDirectories s (base.join fileName).directory with ⟨made, s'⟩
  cases made with
  | false => rfl
  | true => cases happender : platform.openAppender s' (base.join fileName).directory _ <;>
      simp [happender]

end LogFile

namespace Platform

/-- The directory of the log can be made, but the appender cannot be opened there. -/
def BlocksLog (platform : Platform σ) (log : LogFile.Environment) (s : σ) : Prop :=
  ∃ p, path log = .ok p ∧ (platform.makeDirectories s p.directory).1 ∧ ∃ text,
    platform.openAppender (platform.makeDirectories s p.directory).2 p.directory
      "rebase-plan.log" = .error text

def OpensLog (platform : Platform σ) (log : LogFile.Environment) (s : σ) : Prop :=
  ∃ p, path log = .ok p ∧ (platform.makeDirectories s p.directory).1 ∧ ∃ s',
    platform.openAppender (platform.makeDirectories s p.directory).2 p.directory
      "rebase-plan.log" = .ok s'

theorem openOn_iff :
    (platform.BlocksLog log s ↔ ∃ text, (openOn platform log s).1 = .refused text) ∧
    (platform.OpensLog log s ↔ (openOn platform log s).1 = .opened) := by
  cases hpath : path log with
  | error e => simp [BlocksLog, OpensLog, hpath, openOn_of_path_error hpath]
  | ok p =>
    simp only [BlocksLog, OpensLog, hpath, openOn_of_path hpath, Except.ok.injEq, exists_eq_left']
    cases (platform.makeDirectories s p.directory).1 with
    | false => simp
    | true =>
      cases platform.openAppender (platform.makeDirectories s p.directory).2 p.directory _ <;>
        simp

theorem not_blocksLog_of_opens (h : platform.OpensLog log s) : ¬ platform.BlocksLog log s := by
  rw [openOn_iff.1, openOn_iff.2.1 h]
  simp

end Platform

namespace FileTree

variable {t : FileTree} {place : Place} {n : List UInt8} {panic : Refusal → String}
  {admitsStart? : String → Option Bool} {notText : List UInt8 → String}

@[simp] theorem follow_makeDirectories (t : FileTree) (p : Path) (way : List Path.Component) :
    (t.makeDirectories p).2.follow way = t.follow way := by
  rw [makeDirectories]
  split <;> rfl

theorem makeDirectories_platform (t : FileTree) (p : Path) :
    (FileTree.platform panic admitsStart? notText).makeDirectories t p = t.makeDirectories p := rfl

theorem openAppender_platform (t : FileTree) (p : Path) :
    (FileTree.platform panic admitsStart? notText).openAppender t p "rebase-plan.log" =
      (t.openForAppend (p.join fileName)).mapError panic := rfl

theorem files_makeDirectories (t : FileTree) (p : Path) :
    (t.makeDirectories p).2.files = t.files := by
  rw [makeDirectories]
  split <;> rfl

theorem follow_of_makeDirectories (h : (t.makeDirectories p).1) :
    ∃ place, t.follow p.components = some place ∧ t.isFile place = false := by
  rw [makeDirectories] at h
  split at h
  · cases h
  · simpa [Option.any_eq_true] using h

theorem follow_concat_name (h : t.follow p.components = some place) (hplace : t.isFile place = false)
    (hn : n.length ≤ maxName) :
    t.follow (p.components ++ [.name n]) = some (place ++ [n]) := by
  rw [follow] at h ⊢
  simp [List.foldlM_append, h, step, hplace, hn]

theorem components_log (h : path log = .ok p) :
    (p.directory.join fileName).components = p.components := by
  obtain ⟨base, rfl⟩ := exists_path_eq_join h
  apply Path.components_join_directory
  rw [← Path.getLast?_components_iff_endsIn, Path.components_join (by decide),
    List.getLast?_concat]

/-- Among files the log is blocked if its path is too long, or if there is a directory in its place
once its own directory is made. -/
theorem blocksLog_platform_iff :
    (FileTree.platform panic admitsStart? notText).BlocksLog log t ↔ ∃ p, path log = .ok p ∧
      (t.makeDirectories p.directory).1 ∧ (maxPath < (p.directory.join fileName).length ∨
        ∃ place, t.follow p.components = some place ∧
          (t.makeDirectories p.directory).2.isDirectory place) := by
  refine exists_congr fun p => and_congr_right fun hpath => and_congr_right fun hmade => ?_
  obtain ⟨place, hplace, hfile⟩ := follow_of_makeDirectories hmade
  have hcomponents := components_log hpath
  have hlast : t.follow p.components = some (place ++ [fileName]) := by
    rw [← hcomponents, Path.components_join (by decide)]
    exact follow_concat_name hplace hfile (by decide)
  rw [makeDirectories_platform, openAppender_platform]
  by_cases hlong : maxPath < (p.directory.join fileName).length
  · simp [openForAppend, hlong, Except.mapError]
  · simp only [openForAppend, hlong, hcomponents, follow_makeDirectories, hlast, if_false]
    split_ifs with hdirectory hthere <;> simp [Except.mapError, hdirectory]

theorem files_openForAppend {t' : FileTree} (h : t.openForAppend p = .ok t') :
    t'.files = t.files ∨
      ∃ place, t.follow p.components = some place ∧ t'.files = place :: t.files := by
  rw [openForAppend] at h
  split at h
  · cases h
  · split at h
    · cases h
    next place hplace =>
      split_ifs at h
      · cases h
        exact Or.inl rfl
      · cases h
        exact Or.inr ⟨place, hplace, rfl⟩

theorem files_openOn :
    let t' := (openOn (FileTree.platform panic admitsStart? notText) log t).2
    t'.files = t.files ∨ ∃ p place, path log = .ok p ∧ t.follow p.components = some place ∧
      t'.files = place :: t.files := by
  intro t'
  cases hpath : path log with
  | error e => exact Or.inl (by simp only [t', openOn_of_path_error hpath])
  | ok p =>
    have hmade := files_makeDirectories t p.directory
    simp only [t', openOn_of_path hpath]
    split_ifs with hdirectory
    · rw [makeDirectories_platform, openAppender_platform]
      cases hopen : (t.makeDirectories p.directory).2.openForAppend (p.directory.join fileName) with
      | error r => exact Or.inl hmade
      | ok t' =>
        have hfiles := files_openForAppend hopen
        rw [components_log hpath, follow_makeDirectories, hmade] at hfiles
        exact hfiles.imp_right fun ⟨place, hplace, hadded⟩ => ⟨p, place, rfl, hplace, hadded⟩
    · exact Or.inl hmade

end FileTree

namespace Program

variable {host : Host} {env : Environment} {argv : List (List UInt8)}

/-- The first message goes to the log, and shows an argument that is no text. -/
def NotesNonText (platform : Platform σ) (env : Environment) (s : σ)
    (argv : List (List UInt8)) : Prop :=
  platform.OpensLog env.log s ∧ env.notesStart platform ∧ ∃ a ∈ argv, ¬ Utf8.IsText a

def EndsEarly (platform : Platform σ) (env : Environment) (s : σ)
    (argv : List (List UInt8)) : Prop :=
  platform.BlocksLog env.log s ∨ NotesNonText platform env s argv

theorem isSome_unreadable?_iff : (unreadable? argv).isSome ↔ ∃ a ∈ argv, ¬ Utf8.IsText a := by
  have htext (a : List UInt8) : (Utf8.decode a).toOption.isNone ↔ ¬ Utf8.IsText a := by
    rw [Option.isNone_iff_eq_none, Option.eq_none_iff_forall_ne_some, Utf8.IsText, not_exists]
    refine forall_congr' fun text => not_congr ?_
    rw [Utf8.toOption_decode_eq_some_iff, eq_comm]
  simp [unreadable?, htext]

theorem isSome_panic?_iff :
    (panic? platform env argv (openOn platform env.log s).1).isSome ↔
      EndsEarly platform env s argv := by
  rw [EndsEarly, NotesNonText, Platform.openOn_iff.1, Platform.openOn_iff.2,
    ← isSome_unreadable?_iff]
  cases (openOn platform env.log s).1 with
  | refused text => simp [panic?]
  | unavailable => simp [panic?]
  | opened => by_cases hnotes : env.notesStart platform <;> simp [panic?, hnotes]

theorem exists_run_eq_crash (h : EndsEarly platform env s argv) :
    ∃ text, ∀ host, (run platform host env s argv).1 = crash text := by
  obtain ⟨text, htext⟩ := Option.isSome_iff_exists.1 (isSome_panic?_iff.2 h)
  exact ⟨text, fun host => by simp [run, htext]⟩

theorem report_of_endsEarly (h : EndsEarly platform env s argv) :
    let report := (run platform host env s argv).1
    report.code = 101 ∧ report.stdout = "" ∧ report.calls = [] := by
  obtain ⟨text, hcrash⟩ := exists_run_eq_crash h
  intro report
  have hreport : report = crash text := hcrash host
  rw [hreport]
  exact ⟨rfl, rfl, rfl⟩

theorem snd_run (platform : Platform σ) (host : Host) (env : Environment) (s : σ)
    (argv : List (List UInt8)) :
    (run platform host env s argv).2 = (openOn platform env.log s).2 := by
  unfold run
  dsimp only
  split <;> rfl

theorem run_of_not_endsEarly (h : ¬ EndsEarly platform env s argv) :
    (run platform host env s argv).1 = answer host env.rendering argv := by
  rw [← isSome_panic?_iff, Option.not_isSome_iff_eq_none] at h
  simp [run, h]

theorem not_notesNonText_of_isText (h : ∀ a ∈ argv, Utf8.IsText a) :
    ¬ NotesNonText platform env s argv := by
  rintro ⟨-, -, a, ha, hnot⟩
  exact hnot (h a ha)

theorem not_notesNonText_of_texts (args : List String) :
    ¬ NotesNonText platform env s (args.map Utf8.encode) :=
  not_notesNonText_of_isText (List.forall_mem_map.2 fun text _ => ⟨text, rfl⟩)

def machine : Platform FileTree := FileTree.platform (fun _ => "") (fun _ => none) fun _ => ""

def atHome : Environment where
  log := { home := some (Utf8.encode "/root"), currentDirectory := .ok (Utf8.encode "/") }

theorem opensLog_atHome : machine.OpensLog atHome.log ⟨[], [], []⟩ :=
  ⟨_, rfl, by decide, _, rfl⟩

theorem not_endsEarly_atHome (args : List String) :
    ¬ EndsEarly machine atHome ⟨[], [], []⟩ (args.map Utf8.encode) :=
  not_or.2 ⟨Platform.not_blocksLog_of_opens opensLog_atHome, not_notesNonText_of_texts args⟩

end Program

end Restack
