import ProjectFile.Proofs.Evaluation.Faithful

/-!
Which of an engine's two properties tells the target frameworks. The choice looks at whether the
several ones are blank and not at whether they have pieces, so a value of separators and white space
alone hides a single framework. These are also the only values that do.
-/

namespace ProjectFile.Evaluation

/-- Several frameworks count unless they are blank, also where they have no pieces. -/
theorem Output.targetFrameworks_eq_pieces (o : Output) (directory : Path) (sourceExtension : Text) :
    (o.evaluated directory sourceExtension).targetFrameworks =
      let several := (last? "TargetFrameworks" o.properties).getD []
      Text.pieces ';' (if several.trim ≠ [] then several
        else (last? "TargetFramework" o.properties).getD []) := by
  rw [o.targetFrameworks_eq (fun _ => rfl), Text.pieces, Text.filterMap_nonBlank?]

/-- Whatever output is decoded, no framework is lost unless the several ones are separators and
white space, with at least one separator, and the single one has a piece: in every other output
there are frameworks if one of the properties has a piece, and they are those of the single one if
the several ones have none. -/
theorem targetFrameworks_kept_iff {printed sourceExtension : Text} {directory : Path}
    {e : Evaluated} (h : decode printed directory sourceExtension = .ok e) :
    ∃ output, (Json.parse (skipBanner printed)).bind Output.ofJson? = some output ∧
      let several := (last? "TargetFrameworks" output.properties).getD []
      let single := (last? "TargetFramework" output.properties).getD []
      ((Text.pieces ';' several ≠ [] ∨ Text.pieces ';' single ≠ [] → e.targetFrameworks ≠ []) ∧
        (Text.pieces ';' several = [] → e.targetFrameworks = Text.pieces ';' single)) ↔
      ¬ (';' ∈ several ∧ (∀ c ∈ several, c = ';' ∨ Text.isBlank c = true) ∧
        Text.pieces ';' single ≠ []) := by
  obtain ⟨output, houtput, rfl⟩ := decode_eq_ok_iff.mp h
  refine ⟨output, houtput, ?_⟩
  have hframeworks := output.targetFrameworks_eq_pieces directory sourceExtension
  intro several single
  change _ = Text.pieces ';' (if several.trim ≠ [] then several else single) at hframeworks
  rw [hframeworks, ← Text.pieces_eq_nil_iff]
  by_cases hblank : several.trim = []
  · -- The single framework counts, and a blank value has no separator.
    have hnone : ';' ∉ several := by
      intro hmem
      have := Text.trim_eq_nil_iff.mp hblank ';' hmem
      exact absurd this (by decide)
    rw [if_neg (by simpa using hblank)]
    have hpieces : Text.pieces ';' several = [] :=
      Text.pieces_eq_nil_iff.mpr fun c hc => .inr (Text.trim_eq_nil_iff.mp hblank c hc)
    simp [hnone, hpieces]
  · -- The several ones count, and what is not white space in a value without pieces is a separator.
    have hsome : Text.pieces ';' several = [] → ';' ∈ several := by
      intro hpieces
      obtain ⟨c, hc, hnot⟩ : ∃ c ∈ several, Text.isBlank c ≠ true := by
        simpa [Text.trim_eq_nil_iff] using hblank
      exact (Text.pieces_eq_nil_iff.mp hpieces c hc).resolve_right hnot ▸ hc
    rw [if_pos hblank]
    constructor
    · rintro ⟨-, hsingle⟩ ⟨-, hpieces, hne⟩
      exact hne ((hsingle hpieces).symm.trans hpieces)
    · intro hkept
      have hsingle : Text.pieces ';' several = [] → Text.pieces ';' single = [] := by
        intro hpieces
        exact Decidable.byContradiction fun hne => hkept ⟨hsome hpieces, hpieces, hne⟩
      refine ⟨fun hor hpieces => ?_, fun hpieces => hpieces.trans (hsingle hpieces).symm⟩
      exact hor.elim (fun hne => hne hpieces) fun hne => hne (hsingle hpieces)

/-- An output with several frameworks that are blank and a single one in a list. -/
def printedSingle : Text :=
  "\x7b\"Properties\": \x7b\"TargetFrameworks\": \" \", \"TargetFramework\": \"; net8.0\"\x7d\x7d"

theorem targetFrameworks_kept_single : ∃ e, decode printedSingle ⟨"/p"⟩ ".cs" = .ok e ∧
    e.targetFrameworks = ["net8.0"] := by
  have hparse : (Json.parse (skipBanner printedSingle)).bind Output.ofJson? =
      some ⟨[("TargetFrameworks", " "), ("TargetFramework", "; net8.0")], []⟩ := by decide +kernel
  obtain ⟨e, he⟩ : ∃ e, decode printedSingle ⟨"/p"⟩ ".cs" = .ok e :=
    ⟨_, decode_eq_ok_iff.mpr ⟨_, hparse, rfl⟩⟩
  obtain ⟨output, houtput, hkept⟩ := targetFrameworks_kept_iff he
  obtain rfl := Option.some.inj (houtput.symm.trans hparse)
  exact ⟨e, he, (hkept.mpr (by decide +kernel)).2 (by decide +kernel)⟩

/-- An output with a separator for the several frameworks, and a single one. -/
def printedSeparator : Text :=
  "\x7b\"Properties\": \x7b\"TargetFrameworks\": \";\", \"TargetFramework\": \"net8.0\"\x7d\x7d"

/-- The single framework is lost. -/
theorem targetFrameworks_lost :
    decode printedSeparator ⟨"/p"⟩ ".cs" = .ok ⟨[], [], []⟩ ∧
      (Json.parse (skipBanner printedSeparator)).bind Output.ofJson? =
        some ⟨[("TargetFrameworks", ";"), ("TargetFramework", "net8.0")], []⟩ ∧
      Text.pieces ';' ";" = [] ∧ Text.pieces ';' "net8.0" = ["net8.0"] := by
  have hparse : (Json.parse (skipBanner printedSeparator)).bind Output.ofJson? =
      some ⟨[("TargetFrameworks", ";"), ("TargetFramework", "net8.0")], []⟩ := by decide +kernel
  exact ⟨decode_eq_ok_iff.mpr ⟨_, hparse, by decide +kernel⟩, hparse, by decide, by decide⟩

end ProjectFile.Evaluation
