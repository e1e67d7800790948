import Mathlib.Data.List.Infix
import ProjectFile.Proofs.Disk.Below
import ProjectFile.Proofs.Disk.Walk

/-!
The files that are listed below a directory of a disk with any links, be they to files, to
directories, to nothing or round in a circle. A link is reported if its path leads to a file and is
never entered, so the listing ends whatever the links are. It has each file once and in path order.
What it leaves out besides is what is in directories that cannot be listed: those whose path the
system refuses, those that the program may not read, and those below one that it may not enter.
-/

namespace ProjectFile

namespace Disk

/-- Whether a file, or a link that leads to one, is at a name below the directory at `place`, which
`p` leads to. The directories above it are no links and have no excluded name. -/
structure HoldsFile (d : Disk) (excluded : List Bytes) (p : Path) (place above : List Bytes)
    (name : Bytes) : Prop where
  directories : ∀ front, front <+: above →
    ∃ rights entries, d.root.at? (place ++ front) = some (.directory rights entries)
  included : ∀ n ∈ above, n ∉ excluded
  file : (∃ rights bytes, d.root.at? (place ++ (above ++ [name])) = some (.file rights bytes)) ∨
    (∃ target, d.root.at? (place ++ (above ++ [name])) = some (.link target)) ∧
      ∃ goal rights bytes, d.resolve (p.below (above ++ [name])) = .ok (goal, .file rights bytes)

/-- Whether the directory at names below the one at `place`, which `p` leads to, can be listed and
all those on the way to it: the system takes their paths, and the program may read all of them and
enter those on the way. -/
structure Listable (d : Disk) (p : Path) (place above : List Bytes) : Prop where
  taken : ∀ front, front <+: above → check (p.below front) = .ok ()
  readable : ∀ front, front <+: above → ∀ rights entries,
    d.root.at? (place ++ front) = some (.directory rights entries) → rights.read = true
  entered : ∀ front, front <+: above → front ≠ above → ∀ rights entries,
    d.root.at? (place ++ front) = some (.directory rights entries) → rights.enter = true

/-- Whether a walk of the directory at `place`, which `p` leads to, passes over the directory at
names below it: it gets there, and the system does not open it for the reason. -/
structure PassesOver (d : Disk) (excluded : List Bytes) (p : Path) (place above : List Bytes)
    (reason : SystemError) : Prop where
  directory : ∃ rights entries, d.root.at? (place ++ above) = some (.directory rights entries)
  included : ∀ n ∈ above, n ∉ excluded
  reached : ∀ front, front <+: above → front ≠ above → d.Listable p place front
  refused : d.opened (p.below above) = .error reason

theorem isFile_iff {d : Disk} {p : Path} : d.isFile p = true ↔
    ∃ place rights bytes, d.resolve p = .ok (place, .file rights bytes) := by
  unfold isFile
  split
  · next place rights bytes h => simp [h]
  · next h => simpa using fun place rights bytes hresolve => h place rights bytes hresolve

variable {d : Disk} {excluded : List Bytes} {p : Path} {place : List Bytes} {rights : Rights}
  {entries : List (Bytes × DiskEntry)}

/-- Above an entry there are directories. -/
theorem directories_of_at? {root x : DiskEntry} {above front : List Bytes} {name : Bytes}
    (hx : root.at? (place ++ (above ++ [name])) = some x) (h : front <+: above) :
    ∃ rights entries, root.at? (place ++ front) = some (.directory rights entries) := by
  obtain ⟨rest, rfl⟩ := h
  rw [List.append_assoc, ← List.append_assoc] at hx
  exact DiskEntry.exists_directory_of_at? (by simp) hx

/-- A directory further down has directories on the way to it. -/
theorem directories_of_at?_directory {root : DiskEntry} {names front : List Bytes}
    (hat : root.at? (place ++ names) = some (.directory rights entries)) (h : front <+: names) :
    ∃ rights entries, root.at? (place ++ front) = some (.directory rights entries) := by
  obtain ⟨rest, rfl⟩ := h
  by_cases hrest : rest = []
  · subst hrest
    exact ⟨rights, entries, by simpa using hat⟩
  · rw [← List.append_assoc] at hat
    exact DiskEntry.exists_directory_of_at? hrest hat

theorem at?_directory (hat : d.root.at? place = some (.directory rights entries))
    (names : List Bytes) :
    (DiskEntry.directory rights entries).at? names = d.root.at? (place ++ names) := by
  rw [DiskEntry.at?_append, hat, Option.bind_some]

section

variable (htidy : d.root.Tidy) (hroot : d.resolve p = .ok (place, .directory rights entries))

include htidy hroot

/-- The system opens a directory below if it takes the path, and the program may read the directory
and enter those on the way. -/
theorem exists_opened_iff {front : List Bytes} {rights' : Rights}
    {entries' : List (Bytes × DiskEntry)}
    (hfront : d.root.at? (place ++ front) = some (.directory rights' entries')) :
    (∃ e, d.opened (p.below front) = .ok e) ↔ check (p.below front) = .ok () ∧
      rights'.read = true ∧ ∀ before, before <+: front → before ≠ front → ∀ rights entries,
        d.root.at? (place ++ before) = some (.directory rights entries) →
          rights.enter = true := by
  have hat := at?_of_resolve hroot
  have hbelow := (at?_directory hat front).trans hfront
  have hentered : (DiskEntry.directory rights entries).Enterable front ↔
      ∀ before, before <+: front → before ≠ front → ∀ rights entries,
        d.root.at? (place ++ before) = some (.directory rights entries) →
          rights.enter = true := by
    constructor
    · rintro h before ⟨rest, rfl⟩ hne rights'' entries'' hbefore
      exact h before rest rights'' entries'' rfl (by simpa using hne)
        ((at?_directory hat before).trans hbefore)
    · rintro h before rest rights'' entries'' rfl hrest hbefore
      exact h before (List.prefix_append _ _) (by simpa using hrest) rights'' entries''
        ((at?_directory hat before).symm.trans hbefore)
  simp only [opened_below_iff hroot (htidy.at? hat).1 hbelow, hentered]
  constructor
  · rintro ⟨e, hcheck, henter, hread, rfl⟩
    exact ⟨hcheck, hread, henter⟩
  · rintro ⟨hcheck, hread, henter⟩
    exact ⟨_, hcheck, henter, hread, rfl⟩

/-- Directories one below the other can be listed if the system opens each of them. -/
theorem listable_iff {above : List Bytes} (habove : ∀ front, front <+: above →
    ∃ rights entries, d.root.at? (place ++ front) = some (.directory rights entries)) :
    d.Listable p place above ↔ ∀ front, front <+: above →
      ∃ e, d.opened (p.below front) = .ok e := by
  constructor
  · rintro ⟨htaken, hreadable, hentered⟩ front hfront
    obtain ⟨rights', entries', hdirectory⟩ := habove front hfront
    refine (exists_opened_iff htidy hroot hdirectory).mpr
      ⟨htaken front hfront, hreadable front hfront _ _ hdirectory, fun before hbefore hne => ?_⟩
    refine hentered before (hbefore.trans hfront) ?_
    rintro rfl
    exact hne (hbefore.eq_of_length_le hfront.length_le)
  · intro hopen
    have hall {front : List Bytes} (hfront : front <+: above) {rights' : Rights}
        {entries' : List (Bytes × DiskEntry)}
        (hdirectory : d.root.at? (place ++ front) = some (.directory rights' entries')) :=
      (exists_opened_iff htidy hroot hdirectory).mp (hopen front hfront)
    refine ⟨fun front hfront => ?_, fun front hfront rights' entries' hdirectory => ?_,
      fun front hfront hne rights' entries' hdirectory => ?_⟩
    · obtain ⟨rights', entries', hdirectory⟩ := habove front hfront
      exact (hall hfront hdirectory).1
    · exact (hall hfront hdirectory).2.1
    · obtain ⟨_, _, hlast⟩ := habove above List.prefix_rfl
      exact (hall List.prefix_rfl hlast).2.2 front hfront hne rights' entries' hdirectory

/-- Below a directory on the disk a walk lists the files that the disk holds there. -/
theorem finds_file_iff {names : List Bytes} : (DiskEntry.directory rights entries).Finds d.isFile
      d.opened excluded p names (.file (p.below names)) ↔
    ∃ above name, names = above ++ [name] ∧ d.HoldsFile excluded p place above name ∧
      d.Listable p place above := by
  have hbelow := at?_directory (at?_of_resolve hroot)
  constructor
  · rintro ⟨⟨x, hx, hfinding⟩, hincluded, hreached⟩
    obtain ⟨-, hfile⟩ := DiskEntry.finding?_eq_file_iff.mp hfinding
    have hne : names ≠ [] := by
      rintro rfl
      obtain rfl := Option.some.inj hx
      rcases hfile with ⟨_, _, hfile⟩ | ⟨⟨_, hlink⟩, -⟩
      · cases hfile
      · cases hlink
    obtain ⟨above, name, rfl⟩ := List.eq_nil_or_concat names |>.resolve_left hne
    rw [List.concat_eq_append] at hx hfile hincluded hreached ⊢
    rw [hbelow] at hx
    have hdirectories (front : List Bytes) (hfront : front <+: above) :=
      directories_of_at? hx hfront
    refine ⟨above, name, rfl, ⟨hdirectories, by simpa [Finding.directories] using hincluded, ?_⟩,
      (listable_iff htidy hroot hdirectories).mpr fun front hfront => ?_⟩
    · rcases hfile with ⟨rights', bytes, rfl⟩ | ⟨⟨target, rfl⟩, hgoal⟩
      · exact .inl ⟨rights', bytes, hx⟩
      · exact .inr ⟨⟨target, hx⟩, isFile_iff.mp hgoal⟩
    · refine hreached front (hfront.trans (List.prefix_append _ _)) ?_
      rintro rfl
      have hlength := hfront.length_le
      simp only [List.length_append, List.length_singleton] at hlength
      omega
  · rintro ⟨above, name, rfl, ⟨hdirectories, hincluded, hfile⟩, hlistable⟩
    refine ⟨?_, by simpa [Finding.directories] using hincluded, fun front hpre hne => ?_⟩
    · simp only [hbelow, DiskEntry.finding?_eq_file_iff, true_and]
      rcases hfile with ⟨rights', bytes, hx⟩ | ⟨⟨target, hx⟩, hgoal⟩
      · exact ⟨_, hx, .inl ⟨rights', bytes, rfl⟩⟩
      · exact ⟨_, hx, .inr ⟨⟨target, rfl⟩, isFile_iff.mpr hgoal⟩⟩
    · exact (listable_iff htidy hroot hdirectories).mp hlistable front
        ((List.prefix_concat_iff.mp hpre).resolve_left hne)

/-- A walk notes a directory if it gets there and the system does not open it. -/
theorem finds_unlistable_iff {names : List Bytes} {reason : SystemError} :
    (DiskEntry.directory rights entries).Finds d.isFile d.opened excluded p names
        (.unlistable (p.below names) reason) ↔ d.PassesOver excluded p place names reason := by
  have hbelow := at?_directory (at?_of_resolve hroot)
  constructor
  · rintro ⟨⟨x, hx, hfinding⟩, hincluded, hreached⟩
    obtain ⟨-, ⟨rights', entries', rfl⟩, hrefused⟩ :=
      DiskEntry.finding?_eq_unlistable_iff.mp hfinding
    rw [hbelow] at hx
    refine ⟨⟨rights', entries', hx⟩, hincluded, fun front hfront hne => ?_, hrefused⟩
    refine (listable_iff htidy hroot fun before hbefore =>
      directories_of_at?_directory hx (hbefore.trans hfront)).mpr fun before hbefore => ?_
    refine hreached before (hbefore.trans hfront) ?_
    rintro rfl
    exact hne (hfront.eq_of_length_le hbefore.length_le)
  · rintro ⟨⟨rights', entries', hx⟩, hincluded, hreached, hrefused⟩
    refine ⟨⟨_, (hbelow names).trans hx, ?_⟩, hincluded, fun front hfront hne => ?_⟩
    · exact DiskEntry.finding?_eq_unlistable_iff.mpr ⟨rfl, ⟨rights', entries', rfl⟩, hrefused⟩
    · exact (listable_iff htidy hroot fun before hbefore =>
        directories_of_at?_directory hx (hbefore.trans hfront)).mp (hreached front hfront hne) front
          List.prefix_rfl

end

theorem bytes_ne_nil_of_resolve {names : List Bytes} {e : DiskEntry}
    (h : d.resolve p = .ok (names, e)) : p.bytes ≠ [] := by
  obtain ⟨way, hsome, -⟩ := exists_start_of_resolve h
  exact hsome

theorem opened_of_resolve (hroot : d.resolve p = .ok (place, .directory rights entries))
    (hread : rights.read = true) : d.opened p = .ok (.directory rights entries) := by
  simp [opened, hroot, hread]

theorem result_files_of_opened {e : DiskEntry} (h : d.opened p = .ok e) (excluded : List Bytes) :
    (d.files p excluded).result = .ok (e.files d.isFile d.opened excluded p) := by
  rw [result_files, walk, h]
  rfl

theorem events_files_of_opened {e : DiskEntry} (h : d.opened p = .ok e) (excluded : List Bytes) :
    (d.files p excluded).events =
      (e.walk d.isFile d.opened excluded p).filterMap Finding.event? := by
  have hwalk : d.walk p excluded = .ok (e.walk d.isFile d.opened excluded p) := by rw [walk, h]
  unfold files
  rw [hwalk, Attempt.ofExcept_ok_bind, Attempt.events_recordAll_bind, Attempt.events_pure,
    List.append_nil]

/-- Below a directory that can be listed just the files are listed that the disk holds there in
directories that can be listed: each one once, in path order, and under the name that it has there,
excluded or not. What is recorded is which directories are passed over for not being opened. -/
theorem files_exact (htidy : d.root.Tidy)
    (hroot : d.resolve p = .ok (place, .directory rights entries)) (hread : rights.read = true)
    (excluded : List Bytes) : ∃ files,
      (d.storage.files p excluded).result = .ok files ∧ files.Pairwise (· < ·) ∧
      (∀ q, q ∈ files ↔ ∃ above name, q = p.below (above ++ [name]) ∧
        d.HoldsFile excluded p place above name ∧ d.Listable p place above) ∧
      ∀ event, event ∈ (d.storage.files p excluded).events ↔ ∃ above reason,
        d.PassesOver excluded p place above reason ∧
          (Finding.unlistable (p.below above) reason).event? = some event := by
  have hinside := (htidy.at? (at?_of_resolve hroot)).1
  have hopen := opened_of_resolve hroot hread
  refine ⟨_, result_files_of_opened hopen excluded,
    DiskEntry.pairwise_files hinside (bytes_ne_nil_of_resolve hroot), fun q => ?_, fun event => ?_⟩
  · rw [DiskEntry.mem_files hinside]
    constructor
    · rintro ⟨names, rfl, hfinds⟩
      obtain ⟨above, name, rfl, hfile⟩ := (finds_file_iff htidy hroot).mp hfinds
      exact ⟨above, name, rfl, hfile⟩
    · rintro ⟨above, name, rfl, hfile⟩
      exact ⟨_, rfl, (finds_file_iff htidy hroot).mpr ⟨above, name, rfl, hfile⟩⟩
  · change event ∈ (d.files p excluded).events ↔ _
    rw [events_files_of_opened hopen, DiskEntry.mem_events hinside]
    simp only [finds_unlistable_iff htidy hroot]

/-- A disk with links to nothing, to themselves and upwards, and with links to a file and to a
directory outside of `/r`; with a directory that is closed to the program, and a socket. -/
def linkedDisk : Disk where
  root := .directory .all [
    ("out", .directory .all [("s", .file .all [])]),
    ("r", .directory .all [("d", .link ⟨"../out"⟩), ("f", .link ⟨"../out/s"⟩),
      ("locked", .directory ⟨false, false, false⟩ [("secret", .file .all [])]),
      ("none", .link ⟨"/no"⟩), ("obj", .file .all []), ("self", .link ⟨"self"⟩),
      ("sock", .special), ("sub", .directory .all [("back", .link ⟨"/r/f"⟩),
        ("obj", .directory .all [("g", .file .all [])]), ("up", .link ⟨".."⟩)])])]
  base := ⟨"/r"⟩

theorem tidy_linkedDisk : linkedDisk.root.Tidy := by
  simp only [linkedDisk, DiskEntry.tidy_directory_iff, List.forall_mem_cons, List.not_mem_nil,
    false_imp_iff, implies_true, and_true, DiskEntry.Tidy.file, DiskEntry.Tidy.link,
    DiskEntry.Tidy.special]
  decide

/-- What the system says about a directory closed to the program. -/
def lockedEvent : Event :=
  ⟨.warn, "Failed to read directory entry, skipping",
    [("error",
      .text "./locked: IO error for operation on ./locked: Permission denied (os error 13)")]⟩

/-- A file with an excluded name is listed, and a link to a linked file, but not what is in a closed
directory, which is recorded. -/
theorem files_exact_linkedDisk : linkedDisk.root.Tidy ∧
    (∃ entries, linkedDisk.resolve ⟨"."⟩ = .ok (["r"], .directory .all entries)) ∧
    linkedDisk.HoldsFile ["obj"] ⟨"."⟩ ["r"] [] "obj" ∧
    linkedDisk.HoldsFile ["obj"] ⟨"."⟩ ["r"] ["sub"] "back" ∧
    linkedDisk.Listable ⟨"."⟩ ["r"] ["sub"] ∧
    linkedDisk.HoldsFile ["obj"] ⟨"."⟩ ["r"] ["locked"] "secret" ∧
    ¬ linkedDisk.Listable ⟨"."⟩ ["r"] ["locked"] ∧
    linkedDisk.PassesOver ["obj"] ⟨"."⟩ ["r"] ["locked"] .denied ∧
    ∃ files, (linkedDisk.storage.files ⟨"."⟩ ["obj"]).result = .ok files ∧
      files.Pairwise (· < ·) ∧ ⟨"./obj"⟩ ∈ files ∧ ⟨"./sub/back"⟩ ∈ files ∧
      lockedEvent ∈ (linkedDisk.storage.files ⟨"."⟩ ["obj"]).events := by
  have hroot : ∃ entries, linkedDisk.resolve ⟨"."⟩ = .ok (["r"], .directory .all entries) :=
    ⟨_, rfl⟩
  have hlink : linkedDisk.root.at? ([("r" : Bytes)] ++ ([("sub" : Bytes)] ++ [("back" : Bytes)])) =
      some (.link ⟨"/r/f"⟩) := rfl
  have hsecret : linkedDisk.root.at?
      ([("r" : Bytes)] ++ ([("locked" : Bytes)] ++ [("secret" : Bytes)])) =
        some (.file .all []) := rfl
  have hobj : linkedDisk.HoldsFile ["obj"] ⟨"."⟩ ["r"] [] "obj" :=
    ⟨fun front hfront => directories_of_at? hlink (hfront.trans List.nil_prefix), by decide,
      .inl ⟨.all, [], rfl⟩⟩
  have hback : linkedDisk.HoldsFile ["obj"] ⟨"."⟩ ["r"] ["sub"] "back" :=
    ⟨fun _ => directories_of_at? hlink, by decide, .inr ⟨⟨_, hlink⟩, _, _, _, rfl⟩⟩
  have hlocked : linkedDisk.HoldsFile ["obj"] ⟨"."⟩ ["r"] ["locked"] "secret" :=
    ⟨fun _ => directories_of_at? hsecret, by decide, .inl ⟨.all, [], hsecret⟩⟩
  obtain ⟨entries, hroot⟩ := hroot
  have hopen (above : List Bytes) (h : above = [] ∨ above = [("sub" : Bytes)]) :
      ∃ e, linkedDisk.opened (Path.below ⟨"."⟩ above) = .ok e := by
    rcases h with rfl | rfl
    · exact ⟨_, rfl⟩
    · exact ⟨_, rfl⟩
  have hsub : linkedDisk.Listable ⟨"."⟩ ["r"] ["sub"] :=
    (listable_iff tidy_linkedDisk hroot hback.directories).mpr fun front hfront =>
      hopen front (List.prefix_concat_iff.mp hfront |>.symm.imp List.prefix_nil.mp id)
  have hhere : linkedDisk.Listable ⟨"."⟩ ["r"] [] :=
    (listable_iff tidy_linkedDisk hroot hobj.directories).mpr fun front hfront =>
      hopen front (.inl (List.prefix_nil.mp hfront))
  have hclosed : ¬ linkedDisk.Listable ⟨"."⟩ ["r"] ["locked"] := fun h =>
    Bool.false_ne_true (h.readable _ List.prefix_rfl _ _ rfl)
  have hover : linkedDisk.PassesOver ["obj"] ⟨"."⟩ ["r"] ["locked"] .denied :=
    ⟨⟨_, _, rfl⟩, by decide, fun front hfront hne => by
      obtain rfl := List.prefix_nil.mp ((List.prefix_concat_iff.mp hfront).resolve_left hne)
      exact hhere, rfl⟩
  obtain ⟨files, hfiles, hsorted, hmem, hevents⟩ :=
    files_exact tidy_linkedDisk hroot rfl ["obj"]
  exact ⟨tidy_linkedDisk, ⟨entries, hroot⟩, hobj, hback, hsub, hlocked, hclosed, hover, files,
    hfiles, hsorted, (hmem _).mpr ⟨[], "obj", rfl, hobj, hhere⟩,
    (hmem _).mpr ⟨["sub"], "back", rfl, hback, hsub⟩,
    (hevents _).mpr ⟨["locked"], .denied, hover, rfl⟩⟩

/-- Names of the greatest length, so many that no path can hold them all. -/
def deepNames : List Bytes := List.replicate 16 (List.replicate maxName 'd'.toUInt8)

/-- A disk with a file in directories with these names, one in the other. -/
def deepDisk : Disk where
  root := .nested (deepNames ++ [("g" : Bytes)]) (.file .all [])
  base := ⟨"/"⟩

/-- A directory whose path is too long is not listed, though the disk holds a file in it. -/
theorem files_deepDisk : deepDisk.resolve ⟨"/"⟩ = .ok ([], deepDisk.root) ∧
    deepDisk.HoldsFile [] ⟨"/"⟩ [] deepNames "g" ∧
    (deepDisk.storage.files ⟨"/"⟩ []).result = .ok [] := by
  have hfile : deepDisk.root.at? ([] ++ (deepNames ++ [("g" : Bytes)])) = some (.file .all []) :=
    DiskEntry.at?_nested _ _
  refine ⟨rfl, ⟨fun front => directories_of_at? hfile, by simp, .inl ⟨.all, [], hfile⟩⟩, ?_⟩
  decide +kernel

end Disk

end ProjectFile
