import Restack.Tip

/-!
# Lineage

The lineage of a repository gives each of its branches at most one parent branch: the one that
holds the commit behind the branch's head. The links may form loops. Climbing from a branch goes
from parent to parent until there is none, or until the next one is on the path already.
-/

namespace Restack

def latest : List (String × α) → List (String × α)
  | [] => []
  | e :: rest => if rest.any fun r => r.1 = e.1 then latest rest else e :: latest rest

theorem latest_sublist (entries : List (String × α)) : (latest entries).Sublist entries := by
  fun_induction latest entries with
  | case1 => exact .slnil
  | case2 e rest _ ih => exact ih.cons e
  | case3 e rest _ ih => exact ih.cons_cons e

theorem exists_latest_iff {entries : List (String × α)} {name : String} :
    (∃ e ∈ latest entries, e.1 = name) ↔ ∃ e ∈ entries, e.1 = name := by
  fun_induction latest entries with
  | case1 => simp
  | case2 e rest h ih =>
    rw [ih]
    simp only [List.any_eq_true, decide_eq_true_eq] at h
    obtain ⟨r, hr, hre⟩ := h
    constructor
    · rintro ⟨x, hx, rfl⟩
      exact ⟨x, List.mem_cons_of_mem e hx, rfl⟩
    · rintro ⟨x, hx, rfl⟩
      rcases List.mem_cons.1 hx with rfl | hx
      · exact ⟨r, hr, hre⟩
      · exact ⟨x, hx, rfl⟩
  | case3 e rest _ ih => simp [ih]

theorem pairwise_latest {entries : List (String × α)}
    (h : entries.Pairwise fun a b => a.1 ≤ b.1) :
    (latest entries).Pairwise fun a b => a.1 < b.1 := by
  fun_induction latest entries with
  | case1 => exact .nil
  | case2 e rest _ ih => exact ih (List.pairwise_cons.1 h).2
  | case3 e rest hne ih =>
    obtain ⟨hle, hrest⟩ := List.pairwise_cons.1 h
    refine List.pairwise_cons.2 ⟨fun r hr => ?_, ih hrest⟩
    have hr' := (latest_sublist rest).subset hr
    have hne' : e.1 ≠ r.1 := fun he =>
      hne (List.any_eq_true.2 ⟨r, hr', decide_eq_true he.symm⟩)
    exact Std.lt_of_le_of_ne (hle r hr') hne'

structure Lineage where
  links : List (String × Option String)
  increasing : (links.map Prod.fst).Pairwise (· < ·)
  closed : ∀ b p, (b, some p) ∈ links → p ∈ links.map Prod.fst

namespace Lineage

def branches (l : Lineage) : List String := l.links.map Prod.fst

def parent? (l : Lineage) (branch : String) : Option String := (l.links.lookup branch).join

/-- The entries that tips in name order give: the last tip of a branch decides its parent, and
the parent is the last branch that holds the commit. -/
def linksOf (ordered : List Tip) : List (String × Option String) :=
  latest (ordered.map fun t => (t.branch, Tip.lastHolder? ordered t.base))

theorem mem_map_linksOf {ordered : List Tip} {b : String} :
    b ∈ (linksOf ordered).map Prod.fst ↔ ∃ t ∈ ordered, t.branch = b := by
  rw [List.mem_map, linksOf, exists_latest_iff]
  constructor
  · rintro ⟨e, he, rfl⟩
    obtain ⟨t, ht, rfl⟩ := List.mem_map.1 he
    exact ⟨t, ht, rfl⟩
  · rintro ⟨t, ht, rfl⟩
    exact ⟨_, List.mem_map.2 ⟨t, ht, rfl⟩, rfl⟩

theorem lastHolder?_of_mem_linksOf {ordered : List Tip} {b : String} {parent : Option String}
    (h : (b, parent) ∈ linksOf ordered) :
    ∃ t ∈ ordered, t.branch = b ∧ Tip.lastHolder? ordered t.base = parent := by
  obtain ⟨t, ht, he⟩ := List.mem_map.1 ((latest_sublist _).subset h)
  exact ⟨t, ht, congrArg Prod.fst he, congrArg Prod.snd he⟩

def ofTips (tips : List Tip) : Lineage where
  links := linksOf (Tip.inOrder tips)
  increasing := by
    refine List.pairwise_map.2 (pairwise_latest (List.pairwise_map.2 ?_))
    exact Tip.pairwise_inOrder tips
  closed b p h := by
    obtain ⟨t, _, _, hp⟩ := lastHolder?_of_mem_linksOf h
    obtain ⟨u, hu, _, hb⟩ := Tip.exists_of_lastHolder? hp
    exact mem_map_linksOf.2 ⟨u, hu, hb⟩

theorem mem_branches_ofTips {tips : List Tip} {b : String} :
    b ∈ (ofTips tips).branches ↔ ∃ t ∈ tips, t.branch = b := by
  have h := @mem_map_linksOf (Tip.inOrder tips) b
  simpa only [branches, ofTips, Tip.mem_inOrder] using h

theorem nodup_branches (l : Lineage) : l.branches.Nodup :=
  l.increasing.imp fun h => Std.ne_of_lt h

theorem lookup_eq_some_iff {links : List (String × α)} (h : (links.map Prod.fst).Nodup)
    {b : String} {a : α} : links.lookup b = some a ↔ (b, a) ∈ links := by
  induction links with
  | nil => simp
  | cons e rest ih =>
    obtain ⟨name, x⟩ := e
    obtain ⟨hname, hrest⟩ := List.nodup_cons.1 h
    rw [List.lookup_cons]
    by_cases hb : b = name
    · subst hb
      have hx : (b, a) ∉ rest := fun hm => hname (List.mem_map.2 ⟨_, hm, rfl⟩)
      simp [hx, eq_comm]
    · have hbeq : (b == name) = false := beq_eq_false_iff_ne.2 hb
      rw [hbeq, List.mem_cons]
      simpa [hb] using ih hrest

theorem parent?_eq_some_iff {l : Lineage} {b p : String} :
    l.parent? b = some p ↔ (b, some p) ∈ l.links := by
  rw [parent?, Option.join_eq_some_iff, lookup_eq_some_iff l.nodup_branches]

theorem mem_branches_of_parent? {l : Lineage} {b p : String} (h : l.parent? b = some p) :
    b ∈ l.branches ∧ p ∈ l.branches :=
  have h := parent?_eq_some_iff.1 h
  ⟨List.mem_map.2 ⟨_, h, rfl⟩, l.closed b p h⟩

end Lineage

/-- What a climb found: the branches from the root down to where it began, and whether it ended
because the root's own parent lies on the path. -/
structure Climb where
  path : List String
  looped : Bool
deriving DecidableEq, Repr

def Climb.within (parent? : String → Option String) (pool : List String) (branch : String) :
    Climb :=
  match parent? branch with
  | none => ⟨[branch], false⟩
  | some parent =>
    if parent ∈ pool then
      let above := Climb.within parent? (pool.erase parent) parent
      ⟨above.path ++ [branch], above.looped⟩
    else ⟨[branch], true⟩
termination_by pool.length
decreasing_by
  have h : parent ∈ pool := by assumption
  have := List.length_pos_of_mem h
  rw [List.length_erase_of_mem h]
  omega

namespace Climb

variable {parent? : String → Option String} {pool : List String} {b p : String}

theorem within_of_none (h : parent? b = none) : within parent? pool b = ⟨[b], false⟩ := by
  rw [within, h]

theorem within_of_mem (h : parent? b = some p) (hp : p ∈ pool) :
    within parent? pool b =
      ⟨(within parent? (pool.erase p) p).path ++ [b],
        (within parent? (pool.erase p) p).looped⟩ := by
  rw [within, h]
  simp [hp]

theorem within_of_not_mem (h : parent? b = some p) (hp : p ∉ pool) :
    within parent? pool b = ⟨[b], true⟩ := by
  rw [within, h]
  simp [hp]

end Climb

def take? (name : String) : List (String × α) → Option (α × List (String × α))
  | [] => none
  | e :: rest =>
    if e.1 = name then some (e.2, rest)
    else
      match take? name rest with
      | none => none
      | some (a, others) => some (a, e :: others)

theorem take?_eq_none_iff {entries : List (String × α)} {name : String} :
    take? name entries = none ↔ name ∉ entries.map Prod.fst := by
  fun_induction take? name entries with grind

theorem of_take? {entries others : List (String × α)} {name : String} {a : α}
    (h : take? name entries = some (a, others)) :
    (name, a) ∈ entries ∧ others.Sublist entries ∧ others.length + 1 = entries.length ∧
      others.map Prod.fst = (entries.map Prod.fst).erase name := by
  fun_induction take? name entries generalizing others with
  | case1 => simp at h
  | case2 e rest he =>
    obtain ⟨rfl, rfl⟩ := h
    simp [← he]
  | case3 => simp at h
  | case4 e rest he b inner hin ih =>
    obtain ⟨rfl, rfl⟩ := h
    obtain ⟨hm, hs, hl, hf⟩ := ih hin
    refine ⟨List.mem_cons_of_mem e hm, hs.cons_cons e, by simp [hl], ?_⟩
    simp [he, hf]

/-- Climbs on from the path `path`, whose root has the parent `parent`. A parent is taken, with
its own parent, out of the links that are left; if there is none, it lies on the path. -/
def Climb.along (links : List (String × Option String)) (path : List String)
    (parent : Option String) : Climb :=
  match parent with
  | none => ⟨path, false⟩
  | some p =>
    match _h : take? p links with
    | none => ⟨path, true⟩
    | some (next, others) => Climb.along others (p :: path) next
termination_by links.length
decreasing_by
  have := (of_take? _h).2.2.1
  omega

theorem Climb.along_eq_within {parent? : String → Option String}
    {links : List (String × Option String)} {below : List String} {parent : Option String}
    {b : String} (h : ∀ e ∈ links, parent? e.1 = e.2) (hb : parent? b = parent) :
    Climb.along links (b :: below) parent =
      ⟨(within parent? (links.map Prod.fst) b).path ++ below,
        (within parent? (links.map Prod.fst) b).looped⟩ := by
  generalize hpath : b :: below = path
  fun_induction Climb.along links path parent generalizing b below with
  | case1 => simp [within_of_none hb, ← hpath]
  | case2 links path p hp =>
    simp [within_of_not_mem hb (take?_eq_none_iff.1 hp), ← hpath]
  | case3 links path p next others hp ih =>
    obtain ⟨hm, hs, _, hf⟩ := of_take? hp
    have hmem : p ∈ links.map Prod.fst := List.mem_map.2 ⟨_, hm, rfl⟩
    rw [within_of_mem hb hmem, ← hf]
    rw [ih (fun e he => h e (hs.subset he)) (h _ hm) rfl]
    simp [← hpath]

def Lineage.climb (l : Lineage) (branch : String) : Climb :=
  match take? branch l.links with
  | none => ⟨[branch], false⟩
  | some (parent, others) => Climb.along others [branch] parent

theorem Lineage.climb_eq_within (l : Lineage) (branch : String) :
    l.climb branch = Climb.within l.parent? (l.branches.erase branch) branch := by
  have hlinks : ∀ e ∈ l.links, l.parent? e.1 = e.2 := fun e he => by
    rw [parent?, (lookup_eq_some_iff l.nodup_branches).2 he, Option.join_some]
  unfold climb
  split
  next h =>
    have hnone : l.parent? branch = none := by
      rw [Option.eq_none_iff_forall_ne_some]
      exact fun p hp => take?_eq_none_iff.1 h (mem_branches_of_parent? hp).1
    rw [Climb.within_of_none hnone]
  next parent others h =>
    obtain ⟨hm, hs, _, hf⟩ := of_take? h
    rw [Climb.along_eq_within (fun e he => hlinks e (hs.subset he)) (hlinks _ hm), hf]
    simp [branches]

end Restack
