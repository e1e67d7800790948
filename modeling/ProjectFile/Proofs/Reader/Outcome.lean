import ProjectFile.Proofs.Memory.Scan
import ProjectFile.Proofs.Memory.Within
import ProjectFile.Proofs.Path.Normal
import ProjectFile.Proofs.Reader.Known

/-!
How a reading of a tree in memory ends. If all that is above a stored path is a directory, a reading
without an evaluator fails for one of four reasons, asked for one after another: the path is the
root, no file is there, its text is no document, or a package of it lacks a part. If none of them
applies the reading succeeds; in particular its directory can always be scanned.
-/

namespace ProjectFile

namespace Memory.Tree

/-- Whether all that is above a stored path is stored as a directory. -/
def Grounded (t : Tree) : Prop :=
  ∀ s ∈ t.entries, ∀ n < s.components.length, 0 < n →
    t.entries.find? (s.components.take n) = some .directory

instance (t : Tree) : Decidable t.Grounded :=
  inferInstanceAs (Decidable (∀ s ∈ t.entries, ∀ n < s.components.length, 0 < n → _))

theorem Grounded.entry?_above {t : Tree} (h : t.Grounded) {names : List Bytes} {name : Bytes}
    (hnames : ∀ n ∈ names ++ [name], Path.IsName n) {e : Entry}
    (hentry : t.entry? (.ofNames (names ++ [name])) = some e) :
    t.entry? (.ofNames names) = some .directory := by
  have habove : ∀ n ∈ names, Path.IsName n := fun n hn => hnames n (by simp [hn])
  unfold entry? at hentry ⊢
  rw [t.locate_of_isAbsolute (Path.isAbsolute_ofNames _), Path.components_ofNames hnames,
    t.sorted.find?_eq_some_iff] at hentry
  obtain ⟨s, hs, hcs, -⟩ := hentry
  have hfind := h s hs (names.length + 1) (by simp [hcs]) (by omega)
  rw [t.locate_of_isAbsolute (Path.isAbsolute_ofNames _), Path.components_ofNames habove]
  simpa [hcs, List.take_left'] using hfind

end Memory.Tree

namespace Reader

variable {t : Memory.Tree} {path directory : Path}

/-- Below a stored directory every document tells something. -/
theorem exists_extract (hparent : path.parent? = some directory)
    (hdirectory : t.entry? directory = some .directory) (settings : Settings)
    (document : Xml.Document) :
    ∃ markup, (Markup.extract t.storage settings path document).result = .ok markup := by
  have hfiles : t.files directory settings.excludedNames = .ok _ :=
    Memory.Tree.files_eq_ok_iff.mpr ⟨hdirectory, rfl⟩
  have hscan := Memory.Tree.scan_eq_ok_iff.mpr ⟨_, hfiles, rfl⟩
  rw [Markup.result_extract hparent, hscan]
  split
  · exact ⟨_, rfl⟩
  · exact ⟨_, rfl⟩

/-- The ends of a reading at a path, each with what it takes. -/
inductive Outcome (t : Memory.Tree) (path : Path) : Except ProjectError Descriptor → Prop
  | noDirectory (root : path = .root) : Outcome t path (.error (.noDirectory path))
  | missing (root : path ≠ .root) (file : ∀ text, t.entry? path ≠ some (.file text)) :
      Outcome t path (.error (.unreadable path (.projectMissing path)))
  | notXml {text : Text} {reason : Xml.Error} (root : path ≠ .root)
      (file : t.entry? path = some (.file text))
      (parsed : Markup.parse path text = .error (.notXml path reason)) :
      Outcome t path (.error (.notXml path reason))
  | missingAttribute {text : Text} {document : Xml.Document} {element name : Text}
      {place : Xml.Position} (root : path ≠ .root) (file : t.entry? path = some (.file text))
      (parsed : Markup.parse path text = .ok document)
      (named : Packages.extract path document =
        .error (.missingAttribute path element name place)) :
      Outcome t path (.error (.missingAttribute path element name place))
  | done {text : Text} {document : Xml.Document} {packages : List Package} {d : Descriptor}
      (root : path ≠ .root) (file : t.entry? path = some (.file text))
      (parsed : Markup.parse path text = .ok document)
      (named : Packages.extract path document = .ok packages) : Outcome t path (.ok d)

namespace Outcome

variable {r : Except ProjectError Descriptor}

theorem noDirectory_iff (h : Outcome t path r) :
    r = .error (.noDirectory path) ↔ path = .root := by
  cases h with
  | noDirectory root => simp [root]
  | missing root => simp [root]
  | notXml root => simp [root]
  | missingAttribute root => simp [root]
  | done root => simp [root]

theorem missing_iff (h : Outcome t path r) :
    r = .error (.unreadable path (.projectMissing path)) ↔
      path ≠ .root ∧ ∀ text, t.entry? path ≠ some (.file text) := by
  cases h with
  | noDirectory root => simp [root]
  | missing root file => simp [root, file]
  | notXml root file => simp [file]
  | missingAttribute root file => simp [file]
  | done root file => simp [file]

theorem notXml_iff (h : Outcome t path r) :
    (∃ reason, r = .error (.notXml path reason)) ↔
      path ≠ .root ∧ ∃ text e, t.entry? path = some (.file text) ∧
        Markup.parse path text = .error e := by
  cases h with
  | noDirectory root => simp [root]
  | missing root file => simp [file]
  | notXml root file parsed => simp [root, file, parsed]
  | missingAttribute root file parsed => simp [file, parsed]
  | done root file parsed => simp [file, parsed]

theorem missingAttribute_iff (h : Outcome t path r) :
    (∃ element name place, r = .error (.missingAttribute path element name place)) ↔
      path ≠ .root ∧ ∃ text document e, t.entry? path = some (.file text) ∧
        Markup.parse path text = .ok document ∧ Packages.extract path document = .error e := by
  cases h with
  | noDirectory root => simp [root]
  | missing root file => simp [file]
  | notXml root file parsed => simp [file, parsed]
  | missingAttribute root file parsed named => simp [root, file, parsed, named]
  | done root file parsed named => simp [file, parsed, named]

theorem done_iff (h : Outcome t path r) :
    (∃ d, r = .ok d) ↔
      path ≠ .root ∧ ∃ text document packages, t.entry? path = some (.file text) ∧
        Markup.parse path text = .ok document ∧
        Packages.extract path document = .ok packages := by
  cases h with
  | noDirectory root => simp [root]
  | missing root file => simp [file]
  | notXml root file parsed => simp [file, parsed]
  | missingAttribute root file parsed named => simp [file, parsed, named]
  | done root file parsed named => simp [root, file, parsed, named]

/-- The error of a reading has the path of the project. It is not that of a scan, and where a text
is unreadable the project is missing. -/
theorem path_eq (h : Outcome t path r) {e : ProjectError} (he : r = .error e) :
    e.path = path ∧ (∀ q reason, e ≠ .unscannable q reason) ∧
      ∀ q reason, e = .unreadable q reason → reason = .projectMissing path := by
  subst he
  cases h with
  | noDirectory => simp [ProjectError.path]
  | missing => simp [ProjectError.path]
  | notXml => simp [ProjectError.path]
  | missingAttribute => simp [ProjectError.path]

end Outcome

/-- Every reading has one of these ends. -/
theorem outcome (h : t.Grounded) (settings : Settings) (p : Path) :
    Outcome t (p.absolute .root) ((markupOnly t.storage settings (.ok .root)).read p).result := by
  have hbase : Path.root.isAbsolute = true := rfl
  have habsolute :
      (markupOnly t.storage settings (.ok .root)).absolute p = .ok (p.absolute .root) :=
    absolute_of_base rfl p
  rw [result_read_markupOnly]
  cases hparent : (p.absolute .root).parent? with
  | none =>
    rw [known_of_parent?_eq_none habsolute hparent]
    exact .noDirectory ((Path.parent?_absolute_eq_none_iff hbase).mp hparent)
  | some directory =>
    obtain ⟨names, name, hnames, hpath, rfl⟩ := Path.exists_names_of_parent? hbase hparent
    have hroot : p.absolute .root ≠ .root := fun he => by simp [he] at hparent
    have hlocate : (markupOnly t.storage settings (.ok .root)).locate p =
        .ok (p.absolute .root, .ofNames names) :=
      locate_eq_ok_iff.mpr ⟨habsolute, hparent, by simp [Path.bytes_ofNames]⟩
    by_cases hfile : t.isFile (p.absolute .root) = true
    · obtain ⟨text, hentry⟩ := Memory.Tree.isFile_iff.mp hfile
      have hread : t.storage.read (p.absolute .root) = .ok text :=
        Memory.Tree.read_eq_ok_iff.mpr hentry
      rw [known_of_isFile hlocate hfile]
      change Outcome _ _ (((documentOf t.storage _).map _).bind _)
      rw [documentOf_of_read hread]
      cases hparse : Markup.parse (p.absolute .root) text with
      | error e =>
        obtain ⟨reason, rfl⟩ := Markup.parse_eq_error hparse
        exact .notXml hroot hentry hparse
      | ok document =>
        change Outcome _ _ ((((Packages.extract _ document).map _).map _).bind _)
        cases hpackages : Packages.extract (p.absolute .root) document with
        | error e =>
          obtain ⟨element, lacking, place, rfl⟩ := Packages.ofItems_eq_error hpackages
          exact .missingAttribute hroot hentry hparse hpackages
        | ok packages =>
          obtain ⟨markup, hmarkup⟩ := exists_extract hparent
            (h.entry?_above hnames (hpath ▸ hentry)) settings document
          change Outcome _ _ ((Markup.extract t.storage settings _ document).result.map _)
          rw [hmarkup]
          exact .done hroot hentry hparse hpackages
    · rw [known_of_not_isFile hlocate (Bool.eq_false_iff.mpr hfile)]
      exact .missing hroot fun text hentry => hfile (Memory.Tree.isFile_iff.mpr ⟨text, hentry⟩)

/-- How a reading of a tree ends whose files are below directories only. The path is asked for its
directory first, then for a file, the file for a document and the document for its packages, and the
first that is lacking is the error, always with the path of the project; otherwise there is a
descriptor. No scan fails, the text of a file can always be loaded, and a document is only asked for
its items when the path has a directory. -/
theorem read_outcome (h : t.Grounded) (settings : Settings) (p : Path) :
    let path := p.absolute .root
    let read := ((markupOnly t.storage settings (.ok .root)).read p).result
    (read = .error (.noDirectory path) ↔ path = .root) ∧
    (read = .error (.unreadable path (.projectMissing path)) ↔
      path ≠ .root ∧ ∀ text, t.entry? path ≠ some (.file text)) ∧
    ((∃ reason, read = .error (.notXml path reason)) ↔
      path ≠ .root ∧ ∃ text e, t.entry? path = some (.file text) ∧
        Markup.parse path text = .error e) ∧
    ((∃ element name place, read = .error (.missingAttribute path element name place)) ↔
      path ≠ .root ∧ ∃ text document e, t.entry? path = some (.file text) ∧
        Markup.parse path text = .ok document ∧ Packages.extract path document = .error e) ∧
    ((∃ d, read = .ok d) ↔
      path ≠ .root ∧ ∃ text document packages, t.entry? path = some (.file text) ∧
        Markup.parse path text = .ok document ∧ Packages.extract path document = .ok packages) ∧
    (∀ e, read = .error e → e.path = path ∧ (∀ q reason, e ≠ .unscannable q reason) ∧
      ∀ q reason, e = .unreadable q reason → reason = .projectMissing path) ∧
    (t.isFile path = true → ∃ text, Markup.load t.storage path = .ok text) ∧
    (path ≠ .root → ∀ document q,
      (Markup.extract t.storage settings path document).result ≠ .error (.noDirectory q)) := by
  intro path read
  have houtcome : Outcome t path read := outcome h settings p
  have hload : t.isFile path = true → ∃ text, Markup.load t.storage path = .ok text := by
    intro hfile
    obtain ⟨text, hentry⟩ := Memory.Tree.isFile_iff.mp hfile
    have hread : t.storage.read path = .ok text := Memory.Tree.read_eq_ok_iff.mpr hentry
    exact ⟨text, by rw [Markup.load, hread]⟩
  have hextract : path ≠ .root → ∀ document q,
      (Markup.extract t.storage settings path document).result ≠ .error (.noDirectory q) := by
    intro hroot document q he
    have hparent : path.parent? ≠ none := mt (Path.parent?_absolute_eq_none_iff rfl).mp hroot
    obtain ⟨directory, hparent⟩ := Option.ne_none_iff_exists'.mp hparent
    obtain ⟨reason, hscan⟩ := extract_eq_error hparent he
    cases hscan
  exact ⟨houtcome.noDirectory_iff, houtcome.missing_iff, houtcome.notXml_iff,
    houtcome.missingAttribute_iff, houtcome.done_iff, fun e he => houtcome.path_eq he, hload,
    hextract⟩

/-- A project that is no document, and below it in the tree one that can be read. -/
def sampleEnds : Memory.Tree :=
  ((Memory.Tree.empty .root).insert ⟨"/p/torn.proj"⟩ (.file "<Project>")).insert ⟨"/p/q/a.proj"⟩
    (.file "<Project />")

/-- One path for each end that the sample has. -/
theorem read_outcome_sample :
    sampleEnds.Grounded ∧
      ((markupOnly sampleEnds.storage .default (.ok .root)).read ⟨"p/.."⟩).result =
        .error (.noDirectory .root) ∧
      ((markupOnly sampleEnds.storage .default (.ok .root)).read ⟨"p"⟩).result =
        .error (.unreadable ⟨"/p"⟩ (.projectMissing ⟨"/p"⟩)) ∧
      (∃ reason,
        ((markupOnly sampleEnds.storage .default (.ok .root)).read ⟨"p/torn.proj"⟩).result =
          .error (.notXml ⟨"/p/torn.proj"⟩ reason)) ∧
      ∃ d, ((markupOnly sampleEnds.storage .default (.ok .root)).read ⟨"p/q/a.proj"⟩).result =
        .ok d := by
  have hgrounded : sampleEnds.Grounded := by decide +kernel
  obtain ⟨hroot, -⟩ := read_outcome hgrounded .default ⟨"p/.."⟩
  obtain ⟨-, hmissing, -⟩ := read_outcome hgrounded .default ⟨"p"⟩
  obtain ⟨-, -, htorn, -⟩ := read_outcome hgrounded .default ⟨"p/torn.proj"⟩
  obtain ⟨-, -, -, -, hdone, -⟩ := read_outcome hgrounded .default ⟨"p/q/a.proj"⟩
  refine ⟨hgrounded, hroot.mpr (by decide), hmissing.mpr ⟨by decide, ?_⟩, htorn.mpr ⟨by decide, ?_⟩,
    hdone.mpr ⟨by decide, ?_⟩⟩
  · have hentry : sampleEnds.entry? ⟨"/p"⟩ = some .directory := by decide +kernel
    intro text htext
    cases hentry.symm.trans htext
  · have hentry : sampleEnds.entry? ⟨"/p/torn.proj"⟩ = some (.file "<Project>") := by
      decide +kernel
    have hparsed : (Markup.parse ⟨"/p/torn.proj"⟩ "<Project>").toOption.isNone = true := by
      decide +kernel
    cases hparse : Markup.parse ⟨"/p/torn.proj"⟩ "<Project>" with
    | error e => exact ⟨_, e, hentry, hparse⟩
    | ok document => rw [hparse] at hparsed; cases hparsed
  · have hentry : sampleEnds.entry? ⟨"/p/q/a.proj"⟩ = some (.file "<Project />") := by
      decide +kernel
    have hparsed : (Markup.parse ⟨"/p/q/a.proj"⟩ "<Project />").toOption.any (fun document =>
        (Packages.extract ⟨"/p/q/a.proj"⟩ document).toOption.isSome) = true := by decide +kernel
    cases hparse : Markup.parse ⟨"/p/q/a.proj"⟩ "<Project />" with
    | error e => rw [hparse] at hparsed; cases hparsed
    | ok document =>
      rw [hparse] at hparsed
      cases hpackages : Packages.extract ⟨"/p/q/a.proj"⟩ document with
      | error e =>
        rw [Except.toOption, Option.any_some, hpackages] at hparsed
        cases hparsed
      | ok packages => exact ⟨_, document, packages, hentry, hparse, hpackages⟩

end Reader

end ProjectFile
