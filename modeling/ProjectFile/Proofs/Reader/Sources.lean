import ProjectFile.Proofs.Memory.Scan
import ProjectFile.Proofs.Project.Dialect
import ProjectFile.Proofs.Reader.Known

/-!
The sources of an SDK project. They are the paths that the pieces of its `Compile` items name, in
the order of the items, and after them the sources that are stored below its directory, in path
order. So a path is a source once for each piece that names it and once more if a scan finds it.
-/

namespace ProjectFile

namespace Reader

/-- Reading an SDK project from a tree in memory without an evaluator gives no references, and for
sources the paths that the pieces of the `Compile` items name, followed by the files below the
directory that are named as sources and are reached without a link or an excluded directory, in
strictly rising path order. Paths with the same components are the same path, and each is a source
as often as pieces name it, and once more if it is found below the directory. -/
theorem read_sdk {t : Memory.Tree} {settings : Settings} {base : Except SystemError Path}
    {p path : Path} {text : Text} {document : Xml.Document} {d : Descriptor}
    (hpath : (markupOnly t.storage settings base).absolute p = .ok path)
    (htext : t.read path = .ok text) (hdocument : Markup.parse path text = .ok document)
    (hsdk : Markup.DeclaresSdk document.root)
    (hread : ((markupOnly t.storage settings base).read p).result = .ok d) :
    let items := Style.sdk.items "Compile" document.root
    let pieces := Markup.includedPieces items
    path.parent? = some d.directory ∧ d.strategy = .markup .sdk ∧
    d.references = [] ∧ ∃ scanned,
      d.sources = pieces.map d.directory.resolveInclude ++ scanned ∧
      scanned.Pairwise (· < ·) ∧
      (∀ f, f ∈ scanned ↔
        t.Lists settings.excludedNames (t.locate d.directory) f ∧
          ∃ name, f.fileName? = some name ∧ settings.sourceExtension <:+ Text.decodeLossy name) ∧
      (∀ q : Path, d.sources.countP (·.components = q.components) =
        pieces.countP (fun piece =>
          (d.directory.resolveInclude piece).components = q.components) +
        if ∃ f ∈ scanned, f.components = q.components then 1 else 0) ∧
      ((∀ item ∈ items, item.tag.attribute? "Include" = none) → d.sources = scanned) := by
  intro items pieces
  obtain ⟨_, _, _, packages, markup, directory, hpath', hparent, -, -, htext', hdocument', -,
    hmarkup, rfl⟩ := read_markupOnly_eq_ok_iff.mp hread
  obtain rfl : path = _ := Except.ok.inj (hpath.symm.trans hpath')
  obtain rfl : text = _ := Except.ok.inj (htext.symm.trans htext')
  obtain rfl : document = _ := Except.ok.inj (hdocument.symm.trans hdocument')
  obtain ⟨declared, hdeclared⟩ := Option.isSome_iff_exists.mp (Markup.isSome_sdk?_iff.mpr hsdk)
  rw [Markup.result_extract hparent, hdeclared, Markup.listedSources_eq_map] at hmarkup
  obtain ⟨scanned, hscan, rfl⟩ := Except.map_eq_ok_iff.mp hmarkup
  obtain ⟨files, hfiles, rfl⟩ := Memory.Tree.scan_eq_ok_iff.mp hscan
  have hsorted : (files.filter (Storage.namesSource settings)).Pairwise (· < ·) :=
    (Memory.Tree.pairwise_files hfiles).filter _
  refine ⟨hparent, rfl, rfl, _, rfl, hsorted, fun f => ?_, fun q => ?_, fun hnone => ?_⟩
  · rw [List.mem_filter, Memory.Tree.mem_files hfiles, Storage.namesSource_iff]
    rfl
  · change (pieces.map directory.resolveInclude ++ _).countP _ = _
    rw [List.countP_append, List.countP_map, Path.countP_eq_ite_of_pairwise_lt hsorted]
    rfl
  · have hvalues : items.filterMap (fun item => item.tag.attribute? "Include") = [] :=
      List.filterMap_eq_nil_iff.mpr hnone
    have hpieces : pieces = [] := by
      change Markup.includedPieces items = []
      rw [Markup.includedPieces, hvalues]
      rfl
    change pieces.map directory.resolveInclude ++ _ = _
    rw [hpieces]
    rfl

/-- An SDK project that lists a file twice, once with backslashes and once by way of `..`. -/
def sampleSdkText : Text :=
  "<Project Sdk='S'><ItemGroup><Compile Include='m\\b.cs; ;../p/m/b.cs' /></ItemGroup></Project>"

def sampleSdkPieces : List Text := ["m\\b.cs", "../p/m/b.cs"]

def sampleSdkTree : Memory.Tree :=
  ((Memory.Tree.empty ⟨"/"⟩).insert ⟨"/p/a.proj"⟩ (.file sampleSdkText)).insert ⟨"/p/m//b.cs"⟩
    (.file "")

/-- The file is a source three times, although the scan finds it under another spelling. -/
theorem read_sdk_sample : ∃ d,
    ((markupOnly sampleSdkTree.storage .default (.ok .root)).read ⟨"p/a.proj"⟩).result = .ok d ∧
      d.sources = [⟨"/p/m/b.cs"⟩, ⟨"/p/m/b.cs"⟩, ⟨"/p/m//b.cs"⟩] ∧
      d.sources.countP (·.components = (Path.mk "/p/m/b.cs").components) = 2 + 1 := by
  have hread : ((markupOnly sampleSdkTree.storage .default (.ok .root)).read ⟨"p/a.proj"⟩).result =
      .ok ⟨⟨"/p/a.proj"⟩, ⟨"/p"⟩, .markup .sdk, [], [],
        [⟨"/p/m/b.cs"⟩, ⟨"/p/m/b.cs"⟩, ⟨"/p/m//b.cs"⟩], []⟩ := by decide +kernel
  have hpath : (markupOnly sampleSdkTree.storage .default (.ok .root)).absolute ⟨"p/a.proj"⟩ =
      .ok ⟨"/p/a.proj"⟩ := by decide +kernel
  have htext : sampleSdkTree.read ⟨"/p/a.proj"⟩ = .ok sampleSdkText := by decide +kernel
  obtain ⟨document, hdocument, hsdk, hpieces⟩ : ∃ document,
      Markup.parse ⟨"/p/a.proj"⟩ sampleSdkText = .ok document ∧
        Markup.DeclaresSdk document.root ∧ Markup.includedPieces
          (Style.sdk.items "Compile" document.root) = sampleSdkPieces := by
    have hparsed : (Markup.parse ⟨"/p/a.proj"⟩ sampleSdkText).toOption.any (fun document =>
        Markup.DeclaresSdk document.root ∧ Markup.includedPieces
          (Style.sdk.items "Compile" document.root) = sampleSdkPieces) = true := by
      decide +kernel
    cases hfound : Markup.parse ⟨"/p/a.proj"⟩ sampleSdkText with
    | error e => rw [hfound] at hparsed; cases hparsed
    | ok document =>
      rw [hfound] at hparsed
      exact ⟨document, rfl, of_decide_eq_true hparsed⟩
  obtain ⟨-, -, -, scanned, hsources, -, -, hcount, -⟩ :=
    read_sdk hpath htext hdocument hsdk hread
  rw [hpieces, show List.map _ _ = [⟨"/p/m/b.cs"⟩, ⟨"/p/m/b.cs"⟩] by decide] at hsources
  obtain rfl : [⟨"/p/m//b.cs"⟩] = scanned := (List.cons.inj (List.cons.inj hsources).2).2
  refine ⟨_, hread, rfl, ?_⟩
  rw [hcount, hpieces]
  decide

end Reader

end ProjectFile
