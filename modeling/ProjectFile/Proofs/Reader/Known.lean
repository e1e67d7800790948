import ProjectFile.Project.Reader

/-!
A reading in two parts. What a project is known to be before its evaluator is heard, namely where it
is, what its text is as a document and which packages it refers to, depends on the storage and the
base alone; the answer of the evaluator then decides where the lists come from. `result_read` says
that a reading is these two parts, and the lemmas after it say how each of them can fail.
-/

namespace ProjectFile

namespace Reader

/-- What is known about a project whatever its evaluator answers. -/
structure Known where
  path : Path
  directory : Path
  document : Xml.Document
  packages : List Package

/-- The document at a path, with the packages that it refers to. -/
def documentOf (storage : Storage) (path : Path) :
    Except ProjectError (Xml.Document × List Package) := do
  let text ← Markup.load storage path
  let document ← Markup.parse path text
  let packages ← Packages.extract path document
  pure (document, packages)

/-- What is known about the project at `p`, or why it cannot be read at all. -/
def known (r : Reader) (p : Path) : Except ProjectError Known := do
  let (path, directory) ← r.locate p
  if !r.storage.isFile path then .error (.unreadable path (.projectMissing path))
  else
    let (document, packages) ← documentOf r.storage path
    pure ⟨path, directory, document, packages⟩

def Known.fromText (storage : Storage) (settings : Settings) (k : Known) :
    Except ProjectError Descriptor :=
  (Markup.extract storage settings k.path k.document).result.map
    (ofMarkup k.path k.directory k.packages)

/-- The descriptor of a known project by an evaluator's answer: the lists of the evaluation, or else
those of the text. -/
def Known.describe (storage : Storage) (settings : Settings)
    (answer : Except EvaluationError Evaluated) (k : Known) : Except ProjectError Descriptor :=
  match answer with
  | .ok evaluated => .ok (ofEvaluated k.path k.directory k.packages evaluated)
  | .error _ => k.fromText storage settings

@[simp] theorem result_evaluated? (r : Reader) (path : Path) :
    (r.evaluated? path).result = .ok (r.evaluator.evaluate path).result.toOption := by
  unfold evaluated?
  rw [Attempt.result_bind, Attempt.result_outcome]
  cases (r.evaluator.evaluate path).result with
  | ok evaluated => rfl
  | error reason => rfl

theorem result_bind_documentOf {α : Type} (storage : Storage) (path : Path)
    (next : Xml.Document → List Package → Attempt ProjectError α) :
    Attempt.result (do
      let text ← Attempt.ofExcept (Markup.load storage path)
      let document ← Attempt.ofExcept (Markup.parse path text)
      let packages ← Attempt.ofExcept (Packages.extract path document)
      next document packages) =
    (documentOf storage path).bind fun found => (next found.1 found.2).result := by
  simp only [Attempt.result_bind, Attempt.result_ofExcept]
  unfold documentOf
  cases Markup.load storage path with
  | error e => rfl
  | ok text =>
    change (Markup.parse path text).bind _ = ((Markup.parse path text).bind _).bind _
    cases Markup.parse path text with
    | error e => rfl
    | ok document =>
      change (Packages.extract path document).bind _ =
        ((Packages.extract path document).bind _).bind _
      cases Packages.extract path document <;> rfl

/-- With a base every path can be seen from it. -/
theorem absolute_of_base {r : Reader} {base : Path} (h : r.base = .ok base) (p : Path) :
    r.absolute p = .ok (p.absolute base) := by
  unfold absolute
  split
  · next hp => simp [Path.absolute, Path.join, hp]
  · rw [h]

/-- Where the base is absolute, if there is one, the path of a project is seen from an absolute
one. -/
theorem exists_base_of_absolute {r : Reader}
    (hbase : ∀ base, r.base = .ok base → base.isAbsolute = true)
    {p path : Path} (h : r.absolute p = .ok path) :
    ∃ base : Path, base.isAbsolute = true ∧ p.absolute base = path := by
  unfold absolute at h
  split at h
  · next hp => exact ⟨.root, rfl, by simpa [Path.absolute, Path.join, hp] using h⟩
  · split at h
    · next base hbase' => exact ⟨base, hbase base hbase', Except.ok.inj h⟩
    · cases h

/-- A project is located when it has a cleaned absolute path with a parent. -/
theorem locate_eq_ok_iff {r : Reader} {p path directory : Path} :
    r.locate p = .ok (path, directory) ↔
      r.absolute p = .ok path ∧ path.parent? = some directory ∧ directory.bytes ≠ [] := by
  unfold locate
  constructor
  · intro h
    obtain ⟨found, habsolute, h⟩ := Except.bind_eq_ok_iff.mp h
    split at h
    · cases h
    · next above hparent =>
      split at h
      · cases h
      · next hempty =>
        cases h
        exact ⟨habsolute, hparent, by simpa using hempty⟩
  · rintro ⟨habsolute, hparent, hempty⟩
    simp [habsolute, hparent, hempty, bind, Except.bind]

/-- A reading is what is known about the project, described by the evaluator's answer. -/
theorem result_read (r : Reader) (p : Path) :
    (r.read p).result = (r.known p).bind fun k =>
      k.describe r.storage r.settings (r.evaluator.evaluate k.path).result := by
  unfold read known
  rw [Attempt.result_bind, Attempt.result_ofExcept]
  cases hlocate : r.locate p with
  | error e => rfl
  | ok located =>
    obtain ⟨path, directory⟩ := located
    change Attempt.result (if _ then _ else _) = Except.bind (if _ then _ else _) _
    split
    · rfl
    · rw [Attempt.result_bind, result_evaluated?, Except.bind, result_bind_documentOf]
      cases documentOf r.storage path with
      | error e => rfl
      | ok found =>
        change Attempt.result _ = Known.describe _ _ _ _
        cases (r.evaluator.evaluate path).result with
        | ok evaluated => rfl
        | error reason =>
          change Attempt.result (Markup.extract r.storage r.settings path found.1 >>= _) =
            (Markup.extract r.storage r.settings path found.1).result.map _
          rw [Attempt.result_bind]
          cases (Markup.extract r.storage r.settings path found.1).result <;> rfl

theorem known_of_isFile {r : Reader} {p path directory : Path}
    (hlocate : r.locate p = .ok (path, directory)) (hfile : r.storage.isFile path = true) :
    r.known p = (documentOf r.storage path).map fun found =>
      ⟨path, directory, found.1, found.2⟩ := by
  unfold known
  rw [hlocate]
  change (if _ then _ else _) = _
  rw [hfile, if_neg (by simp)]
  cases documentOf r.storage path <;> rfl

theorem known_of_not_isFile {r : Reader} {p path directory : Path}
    (hlocate : r.locate p = .ok (path, directory)) (hfile : r.storage.isFile path = false) :
    r.known p = .error (.unreadable path (.projectMissing path)) := by
  rw [known, hlocate]
  change (if _ then _ else _) = _
  rw [hfile]
  rfl

/-- A project is known if it is a file with a document that names all its packages. -/
theorem known_eq_ok_iff {r : Reader} {p : Path} {k : Known} : r.known p = .ok k ↔
    r.locate p = .ok (k.path, k.directory) ∧ r.storage.isFile k.path = true ∧
      documentOf r.storage k.path = .ok (k.document, k.packages) := by
  constructor
  · intro h
    obtain ⟨⟨path, directory⟩, hlocate, -⟩ := Except.bind_eq_ok_iff.mp h
    cases hfile : r.storage.isFile path with
    | false =>
      rw [known_of_not_isFile hlocate hfile] at h
      cases h
    | true =>
      rw [known_of_isFile hlocate hfile] at h
      obtain ⟨found, hfound, rfl⟩ := Except.map_eq_ok_iff.mp h
      exact ⟨hlocate, hfile, hfound⟩
  · rintro ⟨hlocate, hfile, hfound⟩
    rw [known_of_isFile hlocate hfile, hfound]
    rfl

theorem locate_of_known {r : Reader} {p : Path} {k : Known} (h : r.known p = .ok k) :
    r.locate p = .ok (k.path, k.directory) :=
  (known_eq_ok_iff.mp h).1

theorem known_of_absolute_error {r : Reader} {p : Path} {e : ProjectError}
    (h : r.absolute p = .error e) : r.known p = .error e := by
  have hlocate : r.locate p = .error e := by
    rw [locate, h]
    rfl
  rw [known, hlocate]
  rfl

theorem known_of_parent?_eq_none {r : Reader} {p path : Path} (habsolute : r.absolute p = .ok path)
    (h : path.parent? = none) : r.known p = .error (.noDirectory path) := by
  have hlocate : r.locate p = .error (.noDirectory path) := by
    simp [locate, habsolute, h, bind, Except.bind]
  rw [known, hlocate]
  rfl

/-- The document at a path with a text is that of the text, if its packages can be told. -/
theorem documentOf_of_read {storage : Storage} {path : Path} {text : Text}
    (h : storage.read path = .ok text) :
    documentOf storage path = (Markup.parse path text).bind fun document =>
      (Packages.extract path document).map fun packages => (document, packages) := by
  rw [documentOf, Markup.load, h]
  change (Markup.parse path text).bind _ = _
  cases Markup.parse path text with
  | error e => rfl
  | ok document =>
    change (Packages.extract path document).bind _ = (Packages.extract path document).map _
    cases Packages.extract path document <;> rfl

theorem documentOf_eq_ok_iff {storage : Storage} {path : Path} {document : Xml.Document}
    {packages : List Package} : documentOf storage path = .ok (document, packages) ↔
      ∃ text, storage.read path = .ok text ∧ Markup.parse path text = .ok document ∧
        Packages.extract path document = .ok packages := by
  constructor
  · intro h
    cases hread : storage.read path with
    | error reason => simp [documentOf, Markup.load, hread, bind, Except.bind] at h
    | ok text =>
      rw [documentOf_of_read hread] at h
      obtain ⟨found, hparse, h⟩ := Except.bind_eq_ok_iff.mp h
      obtain ⟨named, hpackages, h⟩ := Except.map_eq_ok_iff.mp h
      obtain ⟨rfl, rfl⟩ := Prod.mk.inj h
      exact ⟨text, rfl, hparse, hpackages⟩
  · rintro ⟨text, hread, hparse, hpackages⟩
    rw [documentOf_of_read hread, hparse, Except.bind, hpackages]
    rfl

/-- Below a directory the text of a project can only fail to be used when the directory cannot be
scanned. -/
theorem extract_eq_error {storage : Storage} {settings : Settings} {path directory : Path}
    {document : Xml.Document} {e : ProjectError} (hparent : path.parent? = some directory)
    (h : (Markup.extract storage settings path document).result = .error e) :
    ∃ reason, e = .unscannable directory reason := by
  rw [Markup.result_extract hparent] at h
  split at h
  · exact Storage.scan_eq_error (Except.map_eq_error_iff.mp h)
  · cases h

/-- A reading without an evaluator is what is known about the project and what its text tells. -/
theorem result_read_markupOnly (storage : Storage) (settings : Settings)
    (base : Except SystemError Path) (p : Path) :
    ((markupOnly storage settings base).read p).result =
      ((markupOnly storage settings base).known p).bind (Known.fromText storage settings) :=
  result_read (markupOnly storage settings base) p

theorem read_markupOnly_eq_ok_iff {storage : Storage} {settings : Settings}
    {base : Except SystemError Path} {p : Path} {d : Descriptor} :
    ((markupOnly storage settings base).read p).result = .ok d ↔
      ∃ path text document packages markup directory,
        (markupOnly storage settings base).absolute p = .ok path ∧
        path.parent? = some directory ∧ directory.bytes ≠ [] ∧
        storage.isFile path = true ∧ storage.read path = .ok text ∧
        Markup.parse path text = .ok document ∧ Packages.extract path document = .ok packages ∧
        (Markup.extract storage settings path document).result = .ok markup ∧
        d = ofMarkup path directory packages markup := by
  rw [result_read_markupOnly]
  constructor
  · intro h
    obtain ⟨⟨path, directory, document, packages⟩, hknown, h⟩ := Except.bind_eq_ok_iff.mp h
    obtain ⟨hlocate, hfile, hfound⟩ := known_eq_ok_iff.mp hknown
    obtain ⟨habsolute, hparent, hdirectory⟩ := locate_eq_ok_iff.mp hlocate
    obtain ⟨text, hread, hparse, hpackages⟩ := documentOf_eq_ok_iff.mp hfound
    obtain ⟨markup, hmarkup, rfl⟩ := Except.map_eq_ok_iff.mp h
    exact ⟨path, text, document, packages, markup, directory, habsolute, hparent, hdirectory, hfile,
      hread, hparse, hpackages, hmarkup, rfl⟩
  · rintro ⟨path, text, document, packages, markup, directory, habsolute, hparent, hdirectory,
      hfile, hread, hparse, hpackages, hmarkup, rfl⟩
    have hknown : (markupOnly storage settings base).known p =
        .ok ⟨path, directory, document, packages⟩ :=
      known_eq_ok_iff.mpr ⟨locate_eq_ok_iff.mpr ⟨habsolute, hparent, hdirectory⟩, hfile,
        documentOf_eq_ok_iff.mpr ⟨text, hread, hparse, hpackages⟩⟩
    rw [hknown, Except.bind, Known.fromText, hmarkup]
    rfl

end Reader

end ProjectFile
