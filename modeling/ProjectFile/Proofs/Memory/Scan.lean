import ProjectFile.Project.Scan
import ProjectFile.Proofs.Memory.Walk

/-!
What a scan of a tree in memory finds. It fails only where there is no directory; otherwise it finds
each source below the directory once, in path order, however the tree came about.
-/

namespace ProjectFile

/-- Files that rise in path order need no sorting. -/
theorem Storage.sourcesAmong_eq_filter {settings : Settings} {files : List Path}
    (h : files.Pairwise (· < ·)) :
    sourcesAmong settings files = files.filter (namesSource settings) := by
  refine List.mergeSort_of_pairwise ((h.filter _).imp fun hlt => decide_eq_true ?_)
  exact fun hgt => Path.lt_irrefl _ (Path.lt_trans hlt hgt)

theorem Storage.namesSource_iff {settings : Settings} {p : Path} : namesSource settings p = true ↔
    ∃ name, p.fileName? = some name ∧ settings.sourceExtension <:+ Text.decodeLossy name := by
  simp [namesSource, Settings.isSourceName, Text.endsWith, Option.any_eq_true]

namespace Memory

namespace Tree

/-- A scan succeeds where a walk does, and finds those of the files that are named as sources. -/
theorem scan_eq_ok_iff {t : Tree} {settings : Settings} {dir : Path} {found : List Path} :
    (t.storage.scan settings dir).result = .ok found ↔
      ∃ files, t.files dir settings.excludedNames = .ok files ∧
        found = files.filter (Storage.namesSource settings) := by
  rw [Storage.result_scan]
  unfold Storage.filesBelow
  by_cases hdir : t.entry? dir = some .directory
  · have hfiles : t.files dir settings.excludedNames = .ok _ :=
      files_eq_ok_iff.mpr ⟨hdir, rfl⟩
    simp only [storage, isDirectory, hdir, beq_self_eq_true, if_true, Attempt.result_mapError,
      Attempt.result_ofExcept, hfiles, Except.ok.injEq, exists_eq_left']
    change Except.ok (Storage.sourcesAmong settings _) = .ok found ↔ _
    rw [Storage.sourcesAmong_eq_filter (pairwise_files hfiles), Except.ok.injEq]
    exact eq_comm
  · have hnone (files : List Path) : t.files dir settings.excludedNames ≠ .ok files :=
      fun h => hdir (files_eq_ok_iff.mp h).1
    simp [storage, isDirectory, hdir, Except.map, hnone]

/-- A scan of anything but a directory fails. A scan of a directory finds, in strictly rising path
order, the files stored below it that are named as sources and are reached without a link or a
directory that is left out. -/
theorem scan_exact (t : Tree) (settings : Settings) (dir : Path) :
    (t.entry? dir ≠ some .directory →
      (t.storage.scan settings dir).result = .error (.unscannable dir (.notDirectory dir))) ∧
    (t.entry? dir = some .directory →
      ∃ found, (t.storage.scan settings dir).result = .ok found ∧ found.Pairwise (· < ·) ∧
        ∀ p, p ∈ found ↔ t.Lists settings.excludedNames (t.locate dir) p ∧ ∃ name,
          p.fileName? = some name ∧ settings.sourceExtension <:+ Text.decodeLossy name) := by
  rw [Storage.result_scan]
  unfold Storage.filesBelow
  constructor
  · intro hdir
    simp [storage, isDirectory, hdir, Except.map]
  · intro hdir
    have hfiles : t.files dir settings.excludedNames = .ok _ :=
      files_eq_ok_iff.mpr ⟨hdir, rfl⟩
    have hsorted := pairwise_files hfiles
    simp only [storage, isDirectory, hdir, beq_self_eq_true, if_true, Attempt.result_mapError,
      Attempt.result_ofExcept, hfiles]
    refine ⟨_, rfl, ?_, fun p => ?_⟩
    · rw [Storage.sourcesAmong_eq_filter hsorted]
      exact hsorted.filter _
    · rw [Storage.sourcesAmong_eq_filter hsorted, List.mem_filter, mem_files hfiles]
      simp [Storage.namesSource, Settings.isSourceName, Text.endsWith, Option.any_eq_true]

end Tree

end Memory

end ProjectFile
