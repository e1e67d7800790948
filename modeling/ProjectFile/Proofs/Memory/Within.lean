import ProjectFile.Proofs.Memory.Walk

/-!
What is stored within a directory of a tree in memory. Two trees that agree there give the same
answers to every question about the directory and what is below it; what is stored elsewhere, be it
above the directory or beside it, does not matter.
-/

namespace ProjectFile.Memory

deriving instance DecidableEq for Stored

namespace Tree

variable {t u : Tree} {directory p : Path} {excluded : List Bytes}

/-- Whether two trees have the same stored at a directory and below it, component by component: the
same spellings with the same entries. -/
def AgreeWithin (t u : Tree) (directory : Path) : Prop :=
  ∀ s : Stored, directory.components <+: s.components → (s ∈ t.entries ↔ s ∈ u.entries)

theorem locate_of_isAbsolute (t : Tree) (h : p.isAbsolute = true) : t.locate p = p := by
  simp [locate, Path.join, h]

namespace AgreeWithin

theorem symm (h : AgreeWithin t u directory) : AgreeWithin u t directory :=
  fun s hs => (h s hs).symm

/-- Trees agree within a directory if they have the same entries there one after another. -/
theorem of_filter_eq
    (h : t.entries.filter (fun s => directory.components.isPrefixOf s.components) =
      u.entries.filter fun s => directory.components.isPrefixOf s.components) :
    AgreeWithin t u directory := by
  intro s hs
  have hwithin : directory.components.isPrefixOf s.components = true :=
    List.isPrefixOf_iff_prefix.mpr hs
  have hmem := congrArg (s ∈ ·) h
  simpa [List.mem_filter, hwithin] using hmem

/-- What is found within the directory is the same. -/
theorem find?_eq (h : AgreeWithin t u directory) {cs : List Path.Component}
    (hcs : directory.components <+: cs) : t.entries.find? cs = u.entries.find? cs := by
  refine Option.ext fun e => ?_
  rw [t.sorted.find?_eq_some_iff, u.sorted.find?_eq_some_iff]
  refine exists_congr fun s => ?_
  constructor
  · rintro ⟨hs, rfl, rfl⟩
    exact ⟨(h s hcs).mp hs, rfl, rfl⟩
  · rintro ⟨hs, rfl, rfl⟩
    exact ⟨(h s hcs).mpr hs, rfl, rfl⟩

theorem entry?_eq (h : AgreeWithin t u directory) (habsolute : p.isAbsolute = true)
    (hp : directory.components <+: p.components) : t.entry? p = u.entry? p := by
  unfold entry?
  rw [t.locate_of_isAbsolute habsolute, u.locate_of_isAbsolute habsolute]
  exact h.find?_eq hp

theorem lists (h : AgreeWithin t u directory) (hlists : t.Lists excluded directory p) :
    u.Lists excluded directory p := by
  obtain ⟨⟨s, hs, rfl, hfile⟩, hbelow, hunlinked, hincluded⟩ := hlists
  have hwithin : directory.components <+: s.components := s.components_eq ▸ hbelow.1
  refine ⟨⟨s, (h s hwithin).mp hs, rfl, hfile⟩, hbelow, fun cs hcs => ?_, hincluded⟩
  rw [← h.find?_eq hcs.1]
  exact hunlinked cs hcs

/-- A walk of the directory ends in the same way: with the same files in the same order, or with the
same error. -/
theorem files_eq (h : AgreeWithin t u directory) (habsolute : directory.isAbsolute = true)
    (excluded : List Bytes) : t.files directory excluded = u.files directory excluded := by
  have hentry := h.entry?_eq habsolute (List.prefix_refl _)
  by_cases hdir : t.entry? directory = some .directory
  · have ht : t.files directory excluded = .ok _ := files_eq_ok_iff.mpr ⟨hdir, rfl⟩
    have hu : u.files directory excluded = .ok _ := files_eq_ok_iff.mpr ⟨hentry ▸ hdir, rfl⟩
    rw [ht, hu]
    refine congrArg _ (Path.eq_of_pairwise_lt (pairwise_files ht) (pairwise_files hu) fun p => ?_)
    rw [mem_files ht, mem_files hu, t.locate_of_isAbsolute habsolute,
      u.locate_of_isAbsolute habsolute]
    exact ⟨h.lists, h.symm.lists⟩
  · have hfind := h.find?_eq (List.prefix_refl directory.components)
    unfold entry? at hdir
    rw [t.locate_of_isAbsolute habsolute] at hdir
    simp only [files, t.locate_of_isAbsolute habsolute, u.locate_of_isAbsolute habsolute, ← hfind]
    cases hfound : t.entries.find? directory.components with
    | none => rfl
    | some e =>
      cases e with
      | file content => rfl
      | directory => exact absurd hfound hdir
      | link => rfl

theorem isFile_eq (h : AgreeWithin t u directory) (habsolute : p.isAbsolute = true)
    (hp : directory.components <+: p.components) : t.isFile p = u.isFile p := by
  rw [isFile, isFile, h.entry?_eq habsolute hp]

theorem isDirectory_eq (h : AgreeWithin t u directory) (habsolute : p.isAbsolute = true)
    (hp : directory.components <+: p.components) : t.isDirectory p = u.isDirectory p := by
  rw [isDirectory, isDirectory, h.entry?_eq habsolute hp]

theorem read_eq (h : AgreeWithin t u directory) (habsolute : p.isAbsolute = true)
    (hp : directory.components <+: p.components) : t.read p = u.read p := by
  rw [read, read, h.entry?_eq habsolute hp, t.locate_of_isAbsolute habsolute,
    u.locate_of_isAbsolute habsolute]

end AgreeWithin

end Tree

end ProjectFile.Memory
