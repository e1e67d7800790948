import ProjectFile.Proofs.Memory.Within
import ProjectFile.Proofs.Path.Normal
import ProjectFile.Proofs.Reader.Known

/-!
Reading is local. A reader asks its storage about the project and its directory and about nothing
else, so two trees in memory that agree within the directory of a project are read alike, with the
same descriptor or the same error and with the same log.
-/

namespace ProjectFile

namespace Reader

/-- A reading depends on what the storage says of the path of the project and of its directory. -/
theorem read_congr {s s' : Storage} {evaluator : Evaluator} {settings : Settings}
    {base : Except SystemError Path} {p path : Path}
    (hpath : (Reader.mk s evaluator settings base).absolute p = .ok path)
    (hfile : s.isFile path = s'.isFile path) (hread : s.read path = s'.read path)
    (hdirectory : ∀ directory, path.parent? = some directory →
      s.isDirectory directory = s'.isDirectory directory ∧
      s.files directory settings.excludedNames = s'.files directory settings.excludedNames) :
    (Reader.mk s evaluator settings base).read p =
      (Reader.mk s' evaluator settings base).read p := by
  have hextract (document : Xml.Document) :
      Markup.extract s settings path document = Markup.extract s' settings path document := by
    unfold Markup.extract
    cases hparent : path.parent? with
    | none => rfl
    | some directory =>
      obtain ⟨hisDirectory, hfiles⟩ := hdirectory directory hparent
      simp only [Storage.scan, Storage.filesBelow, hisDirectory, hfiles]
  have hload : Markup.load s path = Markup.load s' path := by
    rw [Markup.load, Markup.load, hread]
  have hlocate : (Reader.mk s evaluator settings base).locate p =
      (Reader.mk s' evaluator settings base).locate p := rfl
  have hevaluated : (Reader.mk s evaluator settings base).evaluated? =
      (Reader.mk s' evaluator settings base).evaluated? := rfl
  unfold read
  rw [hlocate]
  cases hlocated : (Reader.mk s' evaluator settings base).locate p with
  | error e => rw [Attempt.ofExcept_error_bind, Attempt.ofExcept_error_bind]
  | ok located =>
    obtain ⟨found, directory⟩ := located
    obtain ⟨hfound, -⟩ := locate_eq_ok_iff.mp hlocated
    obtain rfl : path = found := Except.ok.inj (hpath.symm.trans hfound)
    simp only [Attempt.ofExcept_ok_bind, hfile, hload, hextract, hevaluated]

/-- A project is read alike from two trees in memory that have the same stored at its directory and
below it, whatever else is in either of them: the reading has the same end and the same log. -/
theorem read_local {t u : Memory.Tree} {settings : Settings} {base : Except SystemError Path}
    (hbase : ∀ b, base = .ok b → b.isAbsolute = true) {p path directory : Path}
    (hpath : (markupOnly t.storage settings base).absolute p = .ok path)
    (hparent : path.parent? = some directory) (h : t.AgreeWithin u directory) :
    (markupOnly t.storage settings base).read p = (markupOnly u.storage settings base).read p := by
  obtain ⟨b, hb, hseen⟩ := exists_base_of_absolute hbase hpath
  rw [← hseen] at hparent
  obtain ⟨names, name, hnames, hnamed, rfl⟩ := Path.exists_names_of_parent? hb hparent
  rw [hseen] at hnamed hparent
  have habove : (Path.ofNames names).components <+: path.components :=
    hnamed ▸ Path.components_ofNames_prefix hnames
  have habsolute : path.isAbsolute = true := hnamed ▸ Path.isAbsolute_ofNames _
  refine read_congr hpath (h.isFile_eq habsolute habove) (h.read_eq habsolute habove)
    fun above ha => ?_
  obtain rfl : Path.ofNames names = above := Option.some.inj (hparent.symm.trans ha)
  refine ⟨h.isDirectory_eq (Path.isAbsolute_ofNames _) (List.prefix_refl _), ?_⟩
  exact congrArg Attempt.ofExcept
    (h.files_eq (Path.isAbsolute_ofNames _) settings.excludedNames)

/-- An SDK project with a source below its directory. -/
def sampleProject : Memory.Tree :=
  ((Memory.Tree.empty ⟨"/"⟩).insert ⟨"/x/p/a.proj"⟩ (.file "<Project Sdk='S' />")).insert
    ⟨"/x/p/m/b.cs"⟩ (.file "")

/-- The same project behind a link, beside a directory whose name starts like that of its own. -/
def sampleSurroundings : Memory.Tree :=
  (sampleProject.insert ⟨"/x/p2/c.cs"⟩ (.file "")).insert ⟨"/x"⟩ .link

theorem read_local_sample :
    let settings : Settings := { Settings.default with excludedDirectories := ["x"] }
    let descriptor : Descriptor :=
      ⟨⟨"/x/p/a.proj"⟩, ⟨"/x/p"⟩, .markup .sdk, [], [], [⟨"/x/p/m/b.cs"⟩], []⟩
    sampleProject.AgreeWithin sampleSurroundings ⟨"/x/p"⟩ ∧
      ((markupOnly sampleProject.storage settings (.ok .root)).read ⟨"x/p/a.proj"⟩).result =
        .ok descriptor ∧
      ((markupOnly sampleSurroundings.storage settings (.ok .root)).read ⟨"x/p/a.proj"⟩).result =
        .ok descriptor := by
  intro settings descriptor
  have hproject : ((markupOnly sampleProject.storage settings (.ok .root)).read
      ⟨"x/p/a.proj"⟩).result = .ok descriptor := by decide +kernel
  have hagree : sampleProject.AgreeWithin sampleSurroundings ⟨"/x/p"⟩ :=
    .of_filter_eq (by decide +kernel)
  have hbase : ∀ b : Path,
      Except.ok (ε := SystemError) Path.root = .ok b → b.isAbsolute = true := by
    rintro b ⟨⟩
    rfl
  have hpath : (markupOnly sampleProject.storage settings (.ok .root)).absolute ⟨"x/p/a.proj"⟩ =
      .ok ⟨"/x/p/a.proj"⟩ := by decide +kernel
  have hlocal := read_local hbase hpath (by decide) hagree
  exact ⟨hagree, hproject, hlocal ▸ hproject⟩

end Reader

end ProjectFile
