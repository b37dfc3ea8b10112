import YServer.BaseNet.Basic
import YServer.Machinery.Pieces
import Mathlib.Data.List.Nodup

/-!
# Config/ListAllFiles — the files below a directory

`recursive_directory_iterator` goes depth first, into every directory but through no link, and
throws where it cannot go on; what has been found by then stays in the list:

    conf/ ─┬─ a.yml            conf/a.yml
           ├─ net/ ── b.yml    conf/net/b.yml
           ├─ locked/          ✗ filesystem_error
           └─ z.yml

So the list has the files that match, each once, of those the iterator meets before its first
exception (`listAllFiles_exact`).
-/

namespace YServer

open Machinery

def slash : Byte := 0x2f

/-- What the iterator finds in a directory. -/
inductive DirEntry
  /-- Whatever is no directory and links to none; a link to nothing, too. -/
  | file (name : Bytes)
  /-- A link to a directory, which is not followed. -/
  | link (name : Bytes)
  /-- `is_directory()` throws. -/
  | unknown (name : Bytes)
  /-- A directory, with what is in it if it can be opened. -/
  | directory (name : Bytes) (opens : Bool) (entries : List DirEntry)

/-- `path / name`, as a string. -/
def joinPath (path name : Bytes) : Bytes :=
  if [slash] <:+ path then path ++ name else path ++ [slash] ++ name

/-- The test of the loop body. -/
def Matches (subfix name : Bytes) : Prop := subfix = [] ∨ subfix <:+ name

instance (subfix name : Bytes) : Decidable (Matches subfix name) :=
  inferInstanceAs (Decidable (_ ∨ _))

mutual

/-- The turns of the loop for an entry and what is below it: the files pushed, and whether the
iterator can go on. -/
def walkEntry (subfix path : Bytes) : DirEntry → List Bytes × Bool
  | .file name => (if Matches subfix name then [joinPath path name] else [], true)
  | .link _ => ([], true)
  | .unknown _ => ([], false)
  | .directory name opens entries =>
    if opens then walkEntries subfix (joinPath path name) entries else ([], false)

/-- The loop of `ListAllFiles` over a directory. -/
def walkEntries (subfix path : Bytes) : List DirEntry → List Bytes × Bool
  | [] => ([], true)
  | entry :: entries =>
    match walkEntry subfix path entry with
    | (files, false) => (files, false)
    | (files, true) =>
      let (more, goesOn) := walkEntries subfix path entries
      (files ++ more, goesOn)

end

/-- The directory a path leads to: its absolute path, and the entries if it can be opened. -/
abbrev FileSystem := Bytes → Option (Bytes × List DirEntry)

/-- `FSUtil::ListAllFiles`. -/
def listAllFiles (fs : FileSystem) (files : List Bytes) (path subfix : Bytes) : List Bytes :=
  match fs path with
  | none => files
  | some (absolutePath, entries) => files ++ (walkEntries subfix absolutePath entries).1

/-! ## The files below a directory -/

/-- The names that lead to a file. -/
def HasFile : List DirEntry → List Bytes → Prop
  | _, [] => False
  | entries, [name] => .file name ∈ entries
  | entries, name :: names => ∃ below, .directory name true below ∈ entries ∧ HasFile below names

/-- The path the names make. -/
def joinAll (path : Bytes) (names : List Bytes) : Bytes := names.foldl joinPath path

def DirEntry.name : DirEntry → Bytes
  | .file name | .link name | .unknown name | .directory name _ _ => name

mutual

/-- Names are not empty and have no slash in them, and no two in a directory are the same. -/
def DirEntry.Proper : DirEntry → Prop
  | .file name | .link name | .unknown name => name ≠ [] ∧ slash ∉ name
  | .directory name _ entries => (name ≠ [] ∧ slash ∉ name) ∧ ProperAll entries

def ProperAll : List DirEntry → Prop
  | [] => True
  | entry :: entries =>
    entry.Proper ∧ ProperAll entries ∧ ∀ other ∈ entries, other.name ≠ entry.name

end

mutual

/-- Nothing in the way of the iterator. -/
def DirEntry.Opens : DirEntry → Prop
  | .file _ | .link _ => True
  | .unknown _ => False
  | .directory _ opens entries => opens ∧ OpenAll entries

def OpenAll : List DirEntry → Prop
  | [] => True
  | entry :: entries => entry.Opens ∧ OpenAll entries

end

mutual

/-- What the iterator meets, with the names on the way; `none` is an exception. -/
def DirEntry.visits : DirEntry → List (Option (List Bytes))
  | .file name => [some [name]]
  | .link _ => []
  | .unknown _ => [none]
  | .directory name opens entries =>
    if opens then (visitsAll entries).map (Option.map (name :: ·)) else [none]

def visitsAll : List DirEntry → List (Option (List Bytes))
  | [] => []
  | entry :: entries => entry.visits ++ visitsAll entries

end

/-- The files met before the first exception. -/
def metFiles : List (Option (List Bytes)) → List (List Bytes)
  | some names :: visits => names :: metFiles visits
  | none :: _ => []
  | [] => []

/-! ## What the walk finds -/

section Met

variable {visits visits' : List (Option (List Bytes))} {names : List Bytes}

theorem metFiles_append (visits visits' : List (Option (List Bytes))) :
    metFiles (visits ++ visits')
      = metFiles visits ++ if visits.all Option.isSome then metFiles visits' else [] := by
  induction visits with
  | nil => rfl
  | cons v visits ih =>
    cases v with
    | none => rfl
    | some names => exact congrArg (names :: ·) ih

theorem metFiles_map_cons (name : Bytes) (visits : List (Option (List Bytes))) :
    metFiles (visits.map (Option.map (name :: ·))) = (metFiles visits).map (name :: ·) := by
  induction visits with
  | nil => rfl
  | cons v visits ih =>
    cases v with
    | none => rfl
    | some names => exact congrArg ((name :: names) :: ·) ih

theorem map_some_metFiles_isPrefix (visits : List (Option (List Bytes))) :
    (metFiles visits).map some <+: visits := by
  induction visits with
  | nil => exact List.prefix_rfl
  | cons v visits ih =>
    cases v with
    | none => exact List.nil_prefix
    | some names => exact (List.prefix_cons_inj _).mpr ih

/-- Without an exception they are all that is met. -/
theorem mem_metFiles_of_all (h : visits.all Option.isSome) (hmem : some names ∈ visits) :
    names ∈ metFiles visits := by
  induction visits with
  | nil => cases hmem
  | cons v visits ih =>
    rw [List.all_cons, Bool.and_eq_true] at h
    cases v with
    | none => cases h.1
    | some names' =>
      rcases List.mem_cons.mp hmem with heq | hmem
      · exact List.mem_cons.mpr (Or.inl (Option.some.inj heq))
      · exact List.mem_cons_of_mem _ (ih h.2 hmem)

end Met

/-- The name of a file is the last one on the way to it. -/
def lastName (names : List Bytes) : Bytes := names.getLast?.getD []

/-- The paths that match, of the files met. -/
def matching (subfix path : Bytes) (visits : List (Option (List Bytes))) : List Bytes :=
  ((metFiles visits).filter fun names => Matches subfix (lastName names)).map (joinAll path)

theorem ne_nil_of_mem_visits {names : List Bytes} : ∀ entry : DirEntry,
    some names ∈ entry.visits → names ≠ []
  | .file name, h => by
    obtain rfl := Option.some.inj (List.mem_singleton.mp h)
    exact List.cons_ne_nil _ _
  | .link _, h => absurd h List.not_mem_nil
  | .unknown _, h => by cases List.mem_singleton.mp h
  | .directory name opens entries, h => by
    rw [DirEntry.visits] at h
    split_ifs at h
    · obtain ⟨v, -, hv⟩ := List.mem_map.mp h
      obtain ⟨below, -, rfl⟩ := Option.map_eq_some_iff.mp hv
      exact List.cons_ne_nil _ _
    · cases List.mem_singleton.mp h

theorem ne_nil_of_mem_visitsAll {names : List Bytes} (entries : List DirEntry)
    (h : some names ∈ visitsAll entries) : names ≠ [] := by
  induction entries with
  | nil => cases h
  | cons entry entries ih =>
    rcases List.mem_append.mp h with h | h
    · exact ne_nil_of_mem_visits entry h
    · exact ih h

theorem some_mem_of_mem_metFiles {visits : List (Option (List Bytes))} {names : List Bytes}
    (h : names ∈ metFiles visits) : some names ∈ visits :=
  (map_some_metFiles_isPrefix visits).subset (List.mem_map_of_mem h)

theorem matching_append (subfix path : Bytes) (visits visits' : List (Option (List Bytes))) :
    matching subfix path (visits ++ visits') = matching subfix path visits
      ++ if visits.all Option.isSome then matching subfix path visits' else [] := by
  rw [matching, metFiles_append, List.filter_append, List.map_append, matching]
  split_ifs <;> rfl

/-- One more name in front of all others is one more directory on the way. -/
theorem matching_map_cons (subfix path name : Bytes) (entries : List DirEntry) :
    matching subfix path ((visitsAll entries).map (Option.map (name :: ·)))
      = matching subfix (joinPath path name) (visitsAll entries) := by
  have hlast : ∀ names ∈ metFiles (visitsAll entries),
      lastName (name :: names) = lastName names := fun names h => by
    have hne := ne_nil_of_mem_visitsAll entries (some_mem_of_mem_metFiles h)
    rw [lastName, List.getLast?_cons_of_ne_nil hne, lastName]
  rw [matching, metFiles_map_cons, List.filter_map, List.map_map, matching]
  refine congrArg (List.map _) (List.filter_congr fun names h => ?_)
  rw [Function.comp_apply, hlast names h]

mutual

/-- **The walk finds the files that match, up to the first exception** — by induction on the
directory. -/
theorem walkEntry_eq (subfix path : Bytes) : ∀ entry : DirEntry,
    walkEntry subfix path entry
      = (matching subfix path entry.visits, entry.visits.all Option.isSome)
  | .file name => by
    by_cases hmatches : Matches subfix name <;>
      simp [walkEntry, matching, metFiles, DirEntry.visits, lastName, joinAll, hmatches]
  | .link _ => rfl
  | .unknown _ => rfl
  | .directory name opens entries => by
    rw [walkEntry, DirEntry.visits]
    split_ifs
    · rw [walkEntries_eq subfix (joinPath path name) entries, matching_map_cons, List.all_map]
      simp only [Function.comp_def, Option.isSome_map]
    · rfl

theorem walkEntries_eq (subfix path : Bytes) : ∀ entries : List DirEntry,
    walkEntries subfix path entries
      = (matching subfix path (visitsAll entries), (visitsAll entries).all Option.isSome)
  | [] => rfl
  | entry :: entries => by
    rw [walkEntries, walkEntry_eq subfix path entry, visitsAll, matching_append, List.all_append]
    cases entry.visits.all Option.isSome with
    | false => simp
    | true => simp [walkEntries_eq subfix path entries]

end

/-! ## Which files these are -/

theorem mem_visitsAll_iff {v : Option (List Bytes)} {entries : List DirEntry} :
    v ∈ visitsAll entries ↔ ∃ entry ∈ entries, v ∈ entry.visits := by
  induction entries with
  | nil => simp [visitsAll]
  | cons entry entries ih => simp [visitsAll, ih]

/-- The names that lead to a file below an entry begin with the entry's. -/
theorem mem_visits_iff {names : List Bytes} {entry : DirEntry} : some names ∈ entry.visits ↔
    (∃ name, entry = .file name ∧ names = [name]) ∨
      ∃ name below names', entry = .directory name true below ∧ some names' ∈ visitsAll below ∧
        names = name :: names' := by
  cases entry with
  | file name => simp [DirEntry.visits]
  | link name => simp [DirEntry.visits]
  | unknown name => simp [DirEntry.visits]
  | directory name opens entries =>
    cases opens with
    | false => simp [DirEntry.visits]
    | true =>
      simp only [DirEntry.visits, if_true, List.mem_map, Option.map_eq_some_iff]
      constructor
      · rintro ⟨-, hv, names', rfl, rfl⟩
        exact Or.inr ⟨name, entries, names', rfl, hv, rfl⟩
      · rintro (⟨_, heq, -⟩ | ⟨_, _, names', heq, hv, rfl⟩)
        · cases heq
        · cases heq
          exact ⟨some names', hv, names', rfl, rfl⟩

/-- **The walk meets the files there are names for** — by induction on the names. -/
theorem some_mem_visitsAll_iff {names : List Bytes} {entries : List DirEntry} :
    some names ∈ visitsAll entries ↔ HasFile entries names := by
  induction names generalizing entries with
  | nil => exact iff_of_false (fun h => ne_nil_of_mem_visitsAll entries h rfl) id
  | cons name names ih =>
    rw [mem_visitsAll_iff]
    simp only [mem_visits_iff]
    cases names with
    | nil =>
      constructor
      · rintro ⟨entry, hentry, ⟨_, rfl, heq⟩ | ⟨_, below, names', -, hbelow, heq⟩⟩
        · cases heq
          exact hentry
        · cases heq
          exact absurd rfl (ne_nil_of_mem_visitsAll below hbelow)
      · exact fun h => ⟨_, h, Or.inl ⟨name, rfl, rfl⟩⟩
    | cons name' names =>
      constructor
      · rintro ⟨entry, hentry, ⟨_, rfl, heq⟩ | ⟨_, below, names', rfl, hbelow, heq⟩⟩
        · cases heq
        · cases heq
          exact ⟨below, hentry, ih.mp hbelow⟩
      · rintro ⟨below, hentry, hbelow⟩
        exact ⟨_, hentry, Or.inr ⟨name, below, _, rfl, ih.mpr hbelow, rfl⟩⟩

mutual

/-- Nothing stops the walk where everything opens. -/
theorem all_isSome_visits : ∀ {entry : DirEntry}, entry.Opens →
    entry.visits.all Option.isSome
  | .file _, _ => rfl
  | .link _, _ => rfl
  | .unknown _, h => h.elim
  | .directory name opens entries, h => by
    rw [DirEntry.visits, if_pos h.1, List.all_map]
    simpa only [Function.comp_def, Option.isSome_map] using all_isSome_visitsAll h.2

theorem all_isSome_visitsAll : ∀ {entries : List DirEntry}, OpenAll entries →
    (visitsAll entries).all Option.isSome
  | [], _ => rfl
  | entry :: entries, h => by
    rw [visitsAll, List.all_append, Bool.and_eq_true]
    exact ⟨all_isSome_visits h.1, all_isSome_visitsAll h.2⟩

end

/-! ## Each file once -/

/-- Two visits are of different files. -/
def Once (visits : List (Option (List Bytes))) : Prop :=
  visits.Pairwise fun v w => v = w → v = none

theorem Once.nodup_metFiles {visits : List (Option (List Bytes))} (h : Once visits) :
    (metFiles visits).Nodup := by
  have hsome := List.Pairwise.sublist (map_some_metFiles_isPrefix visits).sublist h
  refine (List.pairwise_map.mp hsome).imp fun hne heq => ?_
  cases hne (congrArg some heq)

theorem head?_of_mem_visits {names : List Bytes} {entry : DirEntry}
    (h : some names ∈ entry.visits) : names.head? = some entry.name := by
  rcases mem_visits_iff.mp h with ⟨name, rfl, rfl⟩ | ⟨name, below, names', rfl, -, rfl⟩ <;> rfl

mutual

theorem once_visits : ∀ {entry : DirEntry}, entry.Proper → Once entry.visits
  | .file _, _ => List.pairwise_singleton _ _
  | .link _, _ => List.Pairwise.nil
  | .unknown _, _ => List.pairwise_singleton _ _
  | .directory name opens entries, h => by
    rw [DirEntry.visits]
    split_ifs
    · refine List.pairwise_map.mpr ((once_visitsAll h.2).imp fun {v w} hvw heq => ?_)
      have hinj : Function.Injective (Option.map (name :: ·)) :=
        Option.map_injective List.cons_injective
      rw [hvw (hinj heq), Option.map_none]
    · exact List.pairwise_singleton _ _

/-- Files below different entries differ in the first name. -/
theorem once_visitsAll : ∀ {entries : List DirEntry}, ProperAll entries →
    Once (visitsAll entries)
  | [], _ => List.Pairwise.nil
  | entry :: entries, h => by
    refine List.pairwise_append.mpr ⟨once_visits h.1, once_visitsAll h.2.1, ?_⟩
    rintro v hv w hw rfl
    cases v with
    | none => rfl
    | some names =>
      obtain ⟨other, hother, hw⟩ := mem_visitsAll_iff.mp hw
      have hname := (head?_of_mem_visits hw).symm.trans (head?_of_mem_visits hv)
      exact absurd (Option.some.inj hname) (h.2.2 other hother)

end

/-! ## Different names make different paths -/

/-- A name of a file system. -/
def ProperName (name : Bytes) : Prop := name ≠ [] ∧ slash ∉ name

/-- A path without the slash it may end in. -/
def base (path : Bytes) : Bytes := if [slash] <:+ path then path.dropLast else path

theorem joinPath_eq (path name : Bytes) : joinPath path name = base path ++ slash :: name := by
  rw [joinPath, base]
  split_ifs with h
  · obtain ⟨start, rfl⟩ := h
    rw [List.dropLast_concat, List.append_assoc]
    rfl
  · rw [List.append_assoc]
    rfl

theorem base_joinPath (path : Bytes) {name : Bytes} (hname : ProperName name) :
    base (joinPath path name) = joinPath path name := by
  refine if_neg fun h => ?_
  rw [joinPath_eq] at h
  obtain ⟨start, hstart⟩ := h
  have hlast := congrArg List.getLast? hstart
  rw [List.getLast?_concat, List.getLast?_append, List.getLast?_cons_of_ne_nil hname.1] at hlast
  obtain ⟨c, hc⟩ := Option.ne_none_iff_exists'.mp (mt List.getLast?_eq_none_iff.mp hname.1)
  rw [hc, Option.some_or] at hlast
  exact hname.2 (Option.some.inj hlast ▸ List.mem_of_getLast? hc)

/-- **The path of a file**: a slash in front of each name. -/
theorem joinAll_eq {names : List Bytes} (hnames : ∀ n ∈ names, ProperName n) (hne : names ≠ []) :
    ∀ path, joinAll path names = base path ++ names.flatMap (slash :: ·) := by
  induction names with
  | nil => exact absurd rfl hne
  | cons name names ih =>
    intro path
    obtain ⟨hname, hnames⟩ := List.forall_mem_cons.mp hnames
    cases names with
    | nil =>
      change joinPath path name = _
      rw [joinPath_eq, List.flatMap_singleton]
    | cons name' names =>
      change joinAll (joinPath path name) (name' :: names) = _
      rw [ih hnames (List.cons_ne_nil _ _), base_joinPath path hname, joinPath_eq,
        List.append_assoc]
      rfl

/-- The names are the pieces between the slashes. -/
theorem pieces_append_flatMap {name : Bytes} {names : List Bytes} (hname : slash ∉ name)
    (hnames : ∀ n ∈ names, ProperName n) :
    pieces [slash] (name ++ names.flatMap (slash :: ·)) = name :: names := by
  induction names generalizing name with
  | nil =>
    rw [List.flatMap_nil, List.append_nil]
    exact pieces_of_notMem hname
  | cons name' names ih =>
    obtain ⟨hname', hnames⟩ := List.forall_mem_cons.mp hnames
    have hcut := pieces_append_of_notMem (d := []) hname
      (name' ++ names.flatMap (slash :: ·))
    rw [ih hname'.2 hnames, List.append_assoc] at hcut
    exact hcut

theorem joinAll_inj {path : Bytes} {names names' : List Bytes}
    (hnames : ∀ n ∈ names, ProperName n) (hnames' : ∀ n ∈ names', ProperName n)
    (hne : names ≠ []) (hne' : names' ≠ []) (h : joinAll path names = joinAll path names') :
    names = names' := by
  rw [joinAll_eq hnames hne, joinAll_eq hnames' hne'] at h
  have hpieces := congrArg (pieces [slash]) (List.append_cancel_left h)
  rw [← List.nil_append (names.flatMap _), ← List.nil_append (names'.flatMap _),
    pieces_append_flatMap List.not_mem_nil hnames,
    pieces_append_flatMap List.not_mem_nil hnames'] at hpieces
  exact (List.cons.inj hpieces).2

theorem ProperAll.proper {entries : List DirEntry} (h : ProperAll entries) {entry : DirEntry}
    (hentry : entry ∈ entries) : entry.Proper := by
  induction entries with
  | nil => cases hentry
  | cons other entries ih =>
    rcases List.mem_cons.mp hentry with rfl | hentry
    · exact h.1
    · exact ih h.2.1 hentry

/-- The names on the way to a file are names. -/
theorem HasFile.proper {names : List Bytes} {entries : List DirEntry} (h : HasFile entries names)
    (hproper : ProperAll entries) : names ≠ [] ∧ ∀ n ∈ names, ProperName n := by
  induction names generalizing entries with
  | nil => exact h.elim
  | cons name names ih =>
    refine ⟨List.cons_ne_nil _ _, ?_⟩
    cases names with
    | nil => exact List.forall_mem_singleton.mpr (hproper.proper h)
    | cons name' names =>
      obtain ⟨below, hentry, hbelow⟩ := h
      have hdirectory := hproper.proper hentry
      exact List.forall_mem_cons.mpr ⟨hdirectory.1, (ih hbelow hdirectory.2).2⟩

/-! ## The list -/

/-- **`ListAllFiles` adds the files that match, as the iterator meets them, up to its first
exception**: each is a file below the directory, none is there twice, and they are all there are
where nothing is in the way of the iterator. -/
theorem listAllFiles_exact (fs : FileSystem) (files : List Bytes) {path : Bytes} (subfix : Bytes)
    {absolutePath : Bytes} {entries : List DirEntry} (hfs : fs path = some (absolutePath, entries))
    (hproper : ProperAll entries) :
    let found := matching subfix absolutePath (visitsAll entries)
    listAllFiles fs files path subfix = files ++ found ∧ found.Nodup ∧
      (∀ file ∈ found, ∃ names, HasFile entries names ∧ Matches subfix (lastName names) ∧
        joinAll absolutePath names = file) ∧
      (OpenAll entries → ∀ names, HasFile entries names → Matches subfix (lastName names) →
        joinAll absolutePath names ∈ found) := by
  have hfile : ∀ names ∈ (metFiles (visitsAll entries)).filter fun names =>
      Matches subfix (lastName names), HasFile entries names ∧ Matches subfix (lastName names) := by
    intro names h
    obtain ⟨hmet, hmatches⟩ := List.mem_filter.mp h
    exact ⟨some_mem_visitsAll_iff.mp (some_mem_of_mem_metFiles hmet), of_decide_eq_true hmatches⟩
  refine ⟨?_, ?_, ?_, ?_⟩
  · rw [listAllFiles, hfs]
    simp only [walkEntries_eq]
  · refine List.Nodup.map_on (fun names h names' h' heq => ?_)
      ((once_visitsAll hproper).nodup_metFiles.filter _)
    obtain ⟨hne, hnames⟩ := (hfile names h).1.proper hproper
    obtain ⟨hne', hnames'⟩ := (hfile names' h').1.proper hproper
    exact joinAll_inj hnames hnames' hne hne' heq
  · intro file h
    obtain ⟨names, hnames, rfl⟩ := List.mem_map.mp h
    exact ⟨names, (hfile names hnames).1, (hfile names hnames).2, rfl⟩
  · intro hopen names hnames hmatches
    refine List.mem_map_of_mem (List.mem_filter.mpr ⟨?_, decide_eq_true hmatches⟩)
    exact mem_metFiles_of_all (all_isSome_visitsAll hopen) (some_mem_visitsAll_iff.mpr hnames)

/-- `conf/`, with a file in it and two below it. -/
def conf : FileSystem := fun path =>
  if path = ascii "conf" then
    some (ascii "/srv/conf", [.file (ascii "a.yml"),
      .directory (ascii "net") true [.file (ascii "b.yml"), .file (ascii "c.txt")]])
  else none

/-- `conf/` of the picture above, where `locked/` cannot be opened. -/
def lockedEntries : List DirEntry :=
  [.file (ascii "a.yml"), .directory (ascii "net") true [.file (ascii "b.yml")],
    .directory (ascii "locked") false [], .file (ascii "z.yml")]

/-- **What was found before the exception stays in the list.** -/
theorem listAllFiles_lockedConf :
    let fs : FileSystem := fun _ => some (ascii "/srv/conf", lockedEntries)
    listAllFiles fs [] (ascii "conf") (ascii ".yml")
        = [ascii "/srv/conf/a.yml", ascii "/srv/conf/net/b.yml"] ∧
      (listAllFiles fs [] (ascii "conf") (ascii ".yml")).Nodup := by
  intro fs
  have hproper : ProperAll lockedEntries := by
    simp only [lockedEntries, ProperAll, DirEntry.Proper, DirEntry.name]
    decide
  have hread : fs (ascii "conf") = some (ascii "/srv/conf", lockedEntries) := rfl
  obtain ⟨heq, hnodup, -⟩ := listAllFiles_exact fs [] (ascii ".yml") hread hproper
  rw [heq]
  exact ⟨by decide, hnodup⟩

end YServer
