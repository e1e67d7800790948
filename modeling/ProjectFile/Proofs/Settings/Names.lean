import ProjectFile.Proofs.Text.Trim
import ProjectFile.Settings

/-!
The names of excluded directories in the environment. Whatever the variable says, the names taken
from it are not blank, have no white space around them and no comma in them. The lists of such
names, and no others, read back from the text that shows them. Putting that text into the variable
excludes the same directories and changes nothing else about the settings.
-/

namespace ProjectFile

namespace Environment

variable (env : Environment)

theorem value?_cons_self (name value : Text) : value? ((name, value) :: env) name = some value := by
  rw [value?, List.find?_cons_of_pos (by simp)]
  rfl

theorem value?_cons_of_ne {name other : Text} (h : name ≠ other) (value : Text) :
    value? ((name, value) :: env) other = env.value? other := by
  rw [value?, List.find?_cons_of_neg (by simpa using h), value?]

theorem truth?_cons_of_ne {name other : Text} (h : name ≠ other) (value : Text) :
    truth? ((name, value) :: env) other = env.truth? other := by
  rw [truth?, value?_cons_of_ne env h, truth?]

end Environment

namespace Settings

theorem isPiece_of_mem_ofEnvironment {env : Environment} {name : Text}
    (h : name ∈ (ofEnvironment env).excludedDirectories) : name.IsPiece ',' := by
  change name ∈ ((env.value? "PROJMETA_SCAN_EXCLUDE").map parseNames).getD [] at h
  cases hvalue : env.value? "PROJMETA_SCAN_EXCLUDE" with
  | none =>
    rw [hvalue] at h
    cases h
  | some value =>
    rw [hvalue] at h
    exact Text.isPiece_of_mem_pieces h

/-- A list of names reads back as it is shown just if each of them can be a piece of it. -/
theorem parseNames_printNames_iff {names : List Text} :
    parseNames (printNames names) = names ↔ ∀ name ∈ names, name.IsPiece ',' := by
  have hgap : ∀ c ∈ [' '], Text.isBlank c = true := List.forall_mem_singleton.mpr (by decide)
  exact Text.pieces_join_eq_self_iff (by decide) hgap

/-- The variable decides about the names and about nothing else. -/
theorem ofEnvironment_cons (env : Environment) (value : Text) :
    ofEnvironment (("PROJMETA_SCAN_EXCLUDE", value) :: env) =
      { ofEnvironment env with excludedDirectories := parseNames value } := by
  rw [ofEnvironment, env.truth?_cons_of_ne (by decide), env.value?_cons_of_ne (by decide),
    env.value?_cons_of_ne (by decide), env.value?_cons_self]
  rfl

/-- What is shown of settings with names ends with the list of them, and what stands above it does
not depend on them. -/
theorem exists_text_eq (s : Settings) : ∃ above : Text, ∀ names ≠ [],
    { s with excludedDirectories := names }.text =
      above ++ "  Scan Exclude: " ++ printNames names ++ "\n" := by
  let truth : String := if s.evaluate then "true" else "false"
  let above : Text := "Projmeta Configuration:\n" ++ "  Evaluation: " ++ truth ++ "\n" ++
    "  dotnet: " ++ s.engine.display ++ "\n" ++ "  Source Extension: " ++ s.sourceExtension ++ "\n"
  refine ⟨above, fun names hne => ?_⟩
  unfold text
  simp only [List.isEmpty_iff, hne, if_false]
  rfl

/-- The names of excluded directories survive being shown and read again. In every environment they
can be the pieces of a list, and the lists of such names, and no others, read back from the text
that shows them, which is all that settings with names show of them. With that text in the variable
the same directories are excluded, and nothing else is changed. -/
theorem excludedDirectories_read_back :
    (∀ env : Environment, ∀ name ∈ (ofEnvironment env).excludedDirectories, name.IsPiece ',') ∧
    (∀ names : List Text,
      parseNames (printNames names) = names ↔ ∀ name ∈ names, name.IsPiece ',') ∧
    (∀ s : Settings, ∃ above : Text, ∀ names ≠ [],
      { s with excludedDirectories := names }.text =
        above ++ "  Scan Exclude: " ++ printNames names ++ "\n") ∧
    ∀ (s : Settings) (env : Environment), (∀ name ∈ s.excludedDirectories, name.IsPiece ',') →
      let again :=
        ofEnvironment (("PROJMETA_SCAN_EXCLUDE", printNames s.excludedDirectories) :: env)
      again = { ofEnvironment env with excludedDirectories := s.excludedDirectories } ∧
        ∀ name, again.excludes name = s.excludes name := by
  refine ⟨fun env name => isPiece_of_mem_ofEnvironment, fun names => parseNames_printNames_iff,
    exists_text_eq, fun s env hnames => ?_⟩
  have hread : parseNames (printNames s.excludedDirectories) = s.excludedDirectories :=
    parseNames_printNames_iff.mpr hnames
  intro again
  have hagain : again =
      { ofEnvironment env with excludedDirectories := s.excludedDirectories } := by
    rw [← hread]
    exact ofEnvironment_cons env _
  refine ⟨hagain, fun name => ?_⟩
  rw [hagain]
  rfl

/-- An environment with a blank name, and with white space around the other names and in one. -/
def spaced : Environment :=
  [("PROJMETA_SCAN_EXCLUDE", " bin ,, out dir,\u3000obj\u00a0"), ("PROJMETA_EVALUATE", "false")]

def spacedNames : List Text := ["bin", "out dir", "obj"]

theorem excludedDirectories_read_back_spaced :
    (ofEnvironment spaced).excludedDirectories = spacedNames ∧
      (∀ name ∈ spacedNames, name.IsPiece ',') ∧
      printNames spacedNames = "bin, out dir, obj" ∧
      ofEnvironment (("PROJMETA_SCAN_EXCLUDE", "bin, out dir, obj") :: spaced) =
        ofEnvironment spaced := by
  have hnames : (ofEnvironment spaced).excludedDirectories = spacedNames := by decide +kernel
  have hshown : printNames spacedNames = "bin, out dir, obj" := by decide +kernel
  obtain ⟨hpieces, -, -, hagain⟩ := excludedDirectories_read_back
  have hlist := hpieces spaced
  obtain ⟨hsame, -⟩ := hagain (ofEnvironment spaced) spaced hlist
  rw [hnames, hshown, ← hnames] at hsame
  rw [hnames] at hlist
  exact ⟨hnames, hlist, hshown, hsame⟩

end Settings

end ProjectFile
