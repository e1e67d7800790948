import ProjectFile.Evaluation.Output
import ProjectFile.Proofs.Path.Absolute

/-!
Where the sources of an evaluated project lie. An identity is seen from the project directory and
so names a normalized path there. A full path is only cleaned: it stays relative if the engine
writes it so, and then the source is no absolute path.
-/

namespace ProjectFile

namespace Evaluation

theorem Item.path_eq_ite (directory : Path) (item : Item) :
    item.path directory =
      if item.fullPath?.getD [] ≠ [] then Path.clean (.ofText (item.fullPath?.getD []))
      else directory.resolveInclude item.identity := by
  unfold path
  split
  · next c rest hfull => simp [hfull]
  · next hnone =>
    have hempty : item.fullPath?.getD [] = [] := by
      cases hfull : item.fullPath? with
      | none => rfl
      | some full =>
        cases full with
        | nil => rfl
        | cons c rest => exact (hnone c rest hfull).elim
    rw [hempty, if_neg (by simp)]

/-- The path of an item is normalized unless it is taken from a relative full path. -/
theorem Item.isNormal_path_iff {directory : Path} (hdirectory : directory.isAbsolute = true)
    {item : Item} : (item.path directory).IsNormal ↔
      ∀ full, item.fullPath? = some full → full ≠ [] → (Path.ofText full).isAbsolute = true := by
  rw [item.path_eq_ite]
  by_cases hfull : item.fullPath?.getD [] = []
  · rw [if_neg (by simpa using hfull)]
    constructor
    · intro _ full hsome hne
      rw [hsome] at hfull
      exact absurd hfull hne
    · intro _
      exact Path.isNormal_resolveInclude hdirectory item.identity
  · rw [if_pos hfull, Path.isNormal_clean_iff]
    constructor
    · intro h full hsome _
      rwa [hsome] at h
    · intro h
      cases hsome : item.fullPath? with
      | none => simp [hsome] at hfull
      | some full =>
        rw [hsome] at hfull
        exact h full hsome hfull

/-- In an absolute directory all sources that an engine tells are normalized if and only if none of
them is taken from a full path that is relative. -/
theorem isNormal_sources_iff {printed sourceExtension : Text} {directory : Path} {e : Evaluated}
    (hdirectory : directory.isAbsolute = true)
    (h : decode printed directory sourceExtension = .ok e) :
    ∃ output, (Json.parse (skipBanner printed)).bind Output.ofJson? = some output ∧
      ((∀ source ∈ e.sources, source.IsNormal) ↔
        ∀ item ∈ output.itemsOf "Compile",
          Text.endsWith (item.path directory).display sourceExtension = true →
          ∀ full, item.fullPath? = some full → full ≠ [] →
            (Path.ofText full).isAbsolute = true) := by
  obtain ⟨output, hparsed, rfl⟩ := decode_eq_ok_iff.mp h
  refine ⟨output, hparsed, ?_⟩
  constructor
  · intro h item hmem hends
    have hsource : item.path directory ∈ (output.evaluated directory sourceExtension).sources :=
      List.mem_filter.mpr ⟨List.mem_map_of_mem hmem, hends⟩
    exact (Item.isNormal_path_iff hdirectory).mp (h _ hsource)
  · intro h source hsource
    obtain ⟨hsource, hends⟩ := List.mem_filter.mp hsource
    obtain ⟨item, hmem, rfl⟩ := List.mem_map.mp hsource
    exact (Item.isNormal_path_iff hdirectory).mpr (h item hmem hends)

/-- A full path that is absolute and an identity, both with more in them than names. -/
def printedAbsolute : Text :=
  "\x7b\"Items\": \x7b\"Compile\": [\x7b\"Identity\": \"A\", \"FullPath\": \"/a/../A.cs\"\x7d, " ++
    "\x7b\"Identity\": \"..\\\\B.cs\"\x7d]\x7d\x7d"

theorem isNormal_sources_absolute :
    ∃ e, decode printedAbsolute ⟨"/work/App"⟩ ".cs" = .ok e ∧
      e.sources = [⟨"/A.cs"⟩, ⟨"/work/B.cs"⟩] ∧ ∀ source ∈ e.sources, source.IsNormal := by
  let e : Evaluated := ⟨[], [⟨"/A.cs"⟩, ⟨"/work/B.cs"⟩], []⟩
  have hparse : (Json.parse (skipBanner printedAbsolute)).bind Output.ofJson? =
      some ⟨[], [("Compile", [⟨"A", some "/a/../A.cs"⟩, ⟨"..\\B.cs", none⟩])]⟩ := by decide +kernel
  have hdecode : decode printedAbsolute ⟨"/work/App"⟩ ".cs" = .ok e :=
    decode_eq_ok_iff.mpr ⟨_, hparse, by decide +kernel⟩
  obtain ⟨output, houtput, hnormal⟩ := isNormal_sources_iff rfl hdecode
  obtain rfl := Option.some.inj (houtput.symm.trans hparse)
  refine ⟨e, hdecode, rfl, hnormal.mpr ?_⟩
  decide +kernel

/-- A full path that is relative. -/
def printedRelative : Text :=
  "\x7b\"Items\": \x7b\"Compile\": [" ++
    "\x7b\"Identity\": \"P.cs\", \"FullPath\": \"rel/./P.cs\"\x7d]\x7d\x7d"

/-- The source of a relative full path is not seen from the directory, which is normalized. -/
theorem decode_printedRelative :
    Path.IsNormal ⟨"/work/App"⟩ ∧
      decode printedRelative ⟨"/work/App"⟩ ".cs" = .ok ⟨[], [⟨"rel/P.cs"⟩], []⟩ ∧
      ¬ Path.IsNormal ⟨"rel/P.cs"⟩ := by
  refine ⟨⟨["work", "App"], by decide, by decide⟩, ?_, ?_⟩
  · exact decode_eq_ok_iff.mpr ⟨⟨[], [("Compile", [⟨"P.cs", some "rel/./P.cs"⟩])]⟩,
      by decide +kernel, by decide +kernel⟩
  · intro h
    cases h.isAbsolute

end Evaluation

end ProjectFile
