import ProjectFile.Log.Basic
import ProjectFile.Project.Basic
import ProjectFile.Settings

/-!
The implicit sources of an SDK project: all the files below its directory whose names end as those
of sources do, in path order.
-/

namespace ProjectFile.Storage

/-- Whether the path has a name that ends as those of sources do. -/
def namesSource (settings : Settings) (p : Path) : Bool :=
  (p.fileName?).any settings.isSourceName

def filesBelow (s : Storage) (settings : Settings) (directory : Path) :
    Attempt ProjectError (List Path) :=
  if s.isDirectory directory then
    (s.files directory settings.excludedNames).mapError (.unscannable directory)
  else throw (.unscannable directory (.notDirectory directory))

/-- Those of the files that are named as sources, in path order. -/
def sourcesAmong (settings : Settings) (files : List Path) : List Path :=
  (files.filter (namesSource settings)).mergeSort fun p q => decide (p ≤ q)

/-- The sources below a directory, in path order; a success is logged with their number. -/
def scan (s : Storage) (settings : Settings) (directory : Path) :
    Attempt ProjectError (List Path) := do
  let files ← s.filesBelow settings directory
  let sources := sourcesAmong settings files
  Attempt.record ⟨.trace, "Scanned for sources",
    [("dir", .text directory.display), ("count", .number sources.length)]⟩
  pure sources

@[simp] theorem result_scan (s : Storage) (settings : Settings) (directory : Path) :
    (s.scan settings directory).result =
      (s.filesBelow settings directory).result.map (sourcesAmong settings) := by
  unfold scan
  rw [Attempt.result_bind]
  cases (s.filesBelow settings directory).result <;> simp [Except.bind, Except.map]

/-- A scan that fails tells which directory it was of. -/
theorem scan_eq_error {s : Storage} {settings : Settings} {directory : Path} {e : ProjectError}
    (h : (s.scan settings directory).result = .error e) :
    ∃ reason, e = .unscannable directory reason := by
  rw [result_scan] at h
  unfold filesBelow at h
  split at h
  · rw [Attempt.result_mapError] at h
    cases hfiles : (s.files directory settings.excludedNames).result with
    | error reason =>
      rw [hfiles] at h
      exact ⟨reason, (Except.error.inj h).symm⟩
    | ok files =>
      rw [hfiles] at h
      cases h
  · simp only [Attempt.result_throw, Except.map, Except.error.injEq] at h
    exact ⟨.notDirectory directory, h.symm⟩

end ProjectFile.Storage
