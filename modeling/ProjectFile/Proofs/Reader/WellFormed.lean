import ProjectFile.Evaluation.Engine
import ProjectFile.Proofs.Path.Absolute
import ProjectFile.Proofs.Reader.Evaluators
import ProjectFile.Proofs.Text.Trim
import ProjectFile.Storage.Memory

/-!
What holds of every descriptor. Whether the lists come from the text of a project or from what an
engine prints, nothing in them is blank or has white space around it, and a framework is always a
single one. The path is normalized, with the directory right above it, so reading it again is the
same reading.
-/

namespace ProjectFile

/-- Whether references and target frameworks are trimmed texts, a framework without a semicolon. -/
structure Trimmed (references targetFrameworks : List Text) : Prop where
  references : ∀ r ∈ references, r.IsTrimmed
  targetFrameworks : ∀ f ∈ targetFrameworks, f.IsTrimmed ∧ ';' ∉ f

namespace Markup

theorem isTrimmed_of_value? {e : Xml.Element} {name value : Text}
    (h : value? e name = some value) : value.IsTrimmed := by
  obtain ⟨_, -, hvalue⟩ := Option.bind_eq_some_iff.mp h
  exact Text.isTrimmed_of_nonBlank? hvalue

theorem isTrimmed_of_mem_referencesOf {s : Style} {root : Xml.Element} {r : Text}
    (h : r ∈ referencesOf s root) : r.IsTrimmed := by
  obtain ⟨item, -, hvalue⟩ := List.mem_filterMap.mp h
  exact isTrimmed_of_value? hvalue

theorem isTrimmed_of_mem_frameworksOf {root : Xml.Element} {f : Text}
    (h : f ∈ frameworksOf root) : f.IsTrimmed ∧ ';' ∉ f := by
  obtain ⟨e, -, hpiece⟩ := List.mem_flatMap.mp h
  exact Text.isPiece_of_mem_pieces hpiece

/-- In either dialect the lists of a text are trimmed. -/
theorem trimmed_extract {storage : Storage} {settings : Settings} {path directory : Path}
    {document : Xml.Document} {markup : Markup} (hparent : path.parent? = some directory)
    (h : (extract storage settings path document).result = .ok markup) :
    Trimmed markup.references markup.targetFrameworks := by
  rw [result_extract hparent] at h
  split at h
  · obtain ⟨scanned, -, rfl⟩ := Except.map_eq_ok_iff.mp h
    exact ⟨by simp [references], fun f hf => isTrimmed_of_mem_frameworksOf hf⟩
  · cases h
    exact ⟨fun r hr => isTrimmed_of_mem_referencesOf hr, by simp [targetFrameworks]⟩

end Markup

namespace Packages

theorem isTrimmed_of_version? {item : Xml.Element} {version : Text}
    (h : version? item = some version) : version.IsTrimmed := by
  rcases Option.or_eq_some_iff.mp h with h | ⟨-, h⟩
  · exact Markup.isTrimmed_of_value? h
  · obtain ⟨e, -, hversion⟩ := Option.bind_eq_some_iff.mp h
    exact Text.isTrimmed_of_nonBlank? hversion

theorem isTrimmed_of_ofItem {item : Xml.Element} {package : Package}
    (h : ofItem item = .ok package) : package.name.IsTrimmed ∧ package.version.IsTrimmed := by
  unfold ofItem at h
  split at h
  · cases h
  · cases h
  · next name version hname hversion =>
    cases h
    exact ⟨Markup.isTrimmed_of_value? hname, isTrimmed_of_version? hversion⟩

theorem isTrimmed_of_ofItems {path : Path} {items : List Xml.Element} {packages : List Package}
    (h : ofItems path items = .ok packages) :
    ∀ p ∈ packages, p.name.IsTrimmed ∧ p.version.IsTrimmed := by
  induction items generalizing packages with
  | nil =>
    cases h
    simp
  | cons item items ih =>
    rw [ofItems] at h
    split at h
    · split at h
      · next package hitem =>
        obtain ⟨rest, hrest, rfl⟩ := Except.map_eq_ok_iff.mp h
        intro p hp
        rcases List.mem_cons.mp hp with rfl | hp
        · exact isTrimmed_of_ofItem hitem
        · exact ih hrest p hp
      · cases h
    · exact ih h

end Packages

namespace Evaluation

theorem trimmed_decode {printed sourceExtension : Text} {directory : Path} {e : Evaluated}
    (h : decode printed directory sourceExtension = .ok e) :
    Trimmed e.references e.targetFrameworks := by
  obtain ⟨output, -, rfl⟩ := decode_eq_ok_iff.mp h
  refine ⟨fun r hr => ?_, fun f hf => Text.isPiece_of_mem_pieces hf⟩
  obtain ⟨item, -, hreference⟩ := List.mem_filterMap.mp hr
  exact Text.isTrimmed_of_nonBlank? hreference

end Evaluation

/-- Whether an evaluator is one of those that there are: none, or an engine run in some way. -/
inductive Evaluator.IsProvided : Evaluator → Prop
  | disabled : IsProvided .disabled
  | engine (launch : Launcher) (path : Path) (sourceExtension : Text) :
      IsProvided (.engine launch path sourceExtension)

theorem Evaluator.IsProvided.trimmed {evaluator : Evaluator} (h : evaluator.IsProvided)
    {path : Path} {e : Evaluated} (he : (evaluator.evaluate path).result = .ok e) :
    Trimmed e.references e.targetFrameworks := by
  cases h with
  | disabled => cases he
  | engine launch engine sourceExtension =>
    rw [Evaluator.result_engine] at he
    obtain ⟨printed, hdecode⟩ := Evaluation.exists_decode_of_run he
    exact Evaluation.trimmed_decode hdecode

/-- What a descriptor always is: a path of names, the directory with the same names but the last,
and lists of trimmed texts. -/
structure Descriptor.WellFormed (d : Descriptor) : Prop where
  located : ∃ names name, (∀ n ∈ names ++ [name], Path.IsName n) ∧
    d.path.bytes = Path.slash :: Text.join [Path.slash] (names ++ [name]) ∧
    d.directory.bytes = Path.slash :: Text.join [Path.slash] names
  trimmed : Trimmed d.references d.targetFrameworks
  packages : ∀ p ∈ d.packages, p.name.IsTrimmed ∧ p.version.IsTrimmed

theorem Descriptor.WellFormed.isNormal {d : Descriptor} (h : d.WellFormed) : d.path.IsNormal := by
  obtain ⟨names, name, hnames, hpath, -⟩ := h.located
  exact ⟨names ++ [name], hnames, hpath⟩

namespace Reader

/-- A normalized path is its own absolute path, whether there is a base or not. -/
theorem absolute_of_isNormal (r : Reader) {p : Path} (h : p.IsNormal) : r.absolute p = .ok p := by
  rw [absolute, if_pos h.isAbsolute, h.clean_eq]

/-- A reading only asks for the cleaned absolute path. -/
theorem read_eq_of_absolute_eq {r : Reader} {p q : Path} (h : r.absolute p = r.absolute q) :
    r.read p = r.read q := by
  have hlocate : r.locate p = r.locate q := by rw [locate, h, locate]
  rw [read, hlocate, read]

/-- However a known project is described, its lists are trimmed if those of the answer are. -/
theorem Known.trimmed_describe {storage : Storage} {settings : Settings}
    {answer : Except EvaluationError Evaluated} {k : Known} {d : Descriptor}
    (hparent : k.path.parent? = some k.directory)
    (hanswer : ∀ e, answer = .ok e → Trimmed e.references e.targetFrameworks)
    (h : k.describe storage settings answer = .ok d) :
    Trimmed d.references d.targetFrameworks := by
  cases answer with
  | ok evaluated =>
    cases h
    exact hanswer evaluated rfl
  | error reason =>
    obtain ⟨markup, hmarkup, rfl⟩ := Except.map_eq_ok_iff.mp h
    exact Markup.trimmed_extract hparent hmarkup

theorem isTrimmed_of_known {r : Reader} {p : Path} {k : Known} (h : r.known p = .ok k) :
    ∀ package ∈ k.packages, package.name.IsTrimmed ∧ package.version.IsTrimmed := by
  obtain ⟨-, -, hfound⟩ := known_eq_ok_iff.mp h
  obtain ⟨text, -, -, hpackages⟩ := documentOf_eq_ok_iff.mp hfound
  exact Packages.isTrimmed_of_ofItems hpackages

/-- Every reading from an absolute base gives a descriptor that is well formed, and reading its path
again gives it again. -/
theorem read_wellFormed {r : Reader} (hbase : ∀ base, r.base = .ok base → base.isAbsolute = true)
    (hevaluator : r.evaluator.IsProvided) {p : Path} {d : Descriptor}
    (h : (r.read p).result = .ok d) : d.WellFormed ∧ (r.read d.path).result = .ok d := by
  have hread := h
  rw [result_read] at h
  obtain ⟨k, hknown, hdescribe⟩ := Except.bind_eq_ok_iff.mp h
  obtain ⟨hpath, hparent, -⟩ := locate_eq_ok_iff.mp (locate_of_known hknown)
  obtain ⟨hdpath, hddirectory, hdpackages⟩ := Known.describe_shared hdescribe
  obtain ⟨base, habsolute, hseen⟩ := exists_base_of_absolute hbase hpath
  have hparent' : (p.absolute base).parent? = some k.directory := hseen ▸ hparent
  obtain ⟨names, name, hnames, hnamed, hdirectory⟩ :=
    Path.exists_names_of_parent? habsolute hparent'
  rw [hseen] at hnamed
  have hwell : d.WellFormed := by
    refine ⟨⟨names, name, hnames, ?_, ?_⟩, ?_, ?_⟩
    · rw [hdpath, hnamed, Path.bytes_ofNames]
    · rw [hddirectory, hdirectory, Path.bytes_ofNames]
    · exact Known.trimmed_describe hparent (fun e he => hevaluator.trimmed he) hdescribe
    · rw [hdpackages]
      exact isTrimmed_of_known hknown
  refine ⟨hwell, ?_⟩
  have hagain : r.absolute d.path = r.absolute p := by
    rw [absolute_of_isNormal r hwell.isNormal, hdpath, hpath]
  rw [read_eq_of_absolute_eq hagain, hread]

/-- A reader whose engine tells lists with blanks in them, of a project with a package. -/
def blankReader : Reader where
  storage := ((Memory.Tree.empty .root).insert ⟨"/p/a.proj"⟩ (.file
    ("<Project><ItemGroup><PackageReference Include=' N ' Version=' 1.0' />" ++
      "</ItemGroup></Project>").toList)).storage
  evaluator := .engine
    (fun _ => .ok ⟨.code 0, Text.encode
      ("\x7b\"Properties\": \x7b\"TargetFrameworks\": \"net8.0; ; net9.0\"\x7d, " ++
        "\"Items\": \x7b\"Reference\": [\x7b\"Identity\": \" R\"\x7d, " ++
        "\x7b\"Identity\": \" \"\x7d]\x7d\x7d").toList, []⟩)
    ⟨"dotnet"⟩ ".cs"
  settings := .default
  base := .ok ⟨"/p"⟩

theorem read_wellFormed_blank :
    let d : Descriptor :=
      ⟨⟨"/p/a.proj"⟩, ⟨"/p"⟩, .evaluation, ["R"], [⟨"N", "1.0"⟩], [], ["net8.0", "net9.0"]⟩
    (blankReader.read ⟨"q/.././a.proj"⟩).result = .ok d ∧ d.WellFormed ∧
      (blankReader.read ⟨"/p/a.proj"⟩).result = .ok d := by
  intro d
  have hread : (blankReader.read ⟨"q/.././a.proj"⟩).result = .ok d := by decide +kernel
  have hbase : ∀ base, blankReader.base = .ok base → base.isAbsolute = true := by
    rintro base ⟨⟩
    rfl
  exact ⟨hread, read_wellFormed hbase (.engine _ _ _) hread⟩

end Reader

end ProjectFile
