import ProjectFile.Proofs.Evaluation.Sources
import ProjectFile.Proofs.Memory.Scan
import ProjectFile.Proofs.Text.Marks

/-!
Which paths count as sources. An evaluated item is kept if the text of its path ends as those of
sources do, and a scanned file if its name does. A name is what stands behind the last slash, so the
two agree for every ending without a slash; with a slash in it the ending fits no name, but it can
still fit a path.
-/

namespace ProjectFile

/-- A text that ends in something without a separator ends in it behind the last separator. -/
theorem Text.isSuffix_append_cons_iff {separator : Char} {ending front name : Text}
    (h : separator ∉ ending) : ending <:+ front ++ separator :: name ↔ ending <:+ name := by
  constructor
  · intro hending
    have hname : separator :: name <:+ front ++ separator :: name := List.suffix_append _ _
    rcases List.suffix_or_suffix_of_suffix hending hname with hshort | hlong
    · rcases List.suffix_cons_iff.mp hshort with rfl | hshort
      · exact absurd List.mem_cons_self h
      · exact hshort
    · exact absurd (hlong.mem List.mem_cons_self) h
  · intro hending
    exact hending.trans ((List.suffix_cons separator name).trans (List.suffix_append front _))

namespace Path

theorem fileName?_ofNames_concat {above : List Bytes} {name : Bytes}
    (h : ∀ n ∈ above ++ [name], IsName n) : (ofNames (above ++ [name])).fileName? = some name := by
  simp [fileName?, components_ofNames h, List.getLast?_cons]

/-- A normalized path that is not the root has a name, and it is shown with what is shown of this
name at its end. -/
theorem IsNormal.exists_fileName {p : Path} (h : p.IsNormal) (hroot : p ≠ root) :
    ∃ front name, IsName name ∧ p.display = front ++ '/' :: Text.decodeLossy name ∧
      p.fileName? = some name := by
  obtain ⟨names, hnames, rfl⟩ := isNormal_iff.mp h
  have hne : names ≠ [] := by
    rintro rfl
    exact hroot ofNames_nil
  obtain ⟨above, name, rfl⟩ := List.eq_nil_or_concat names |>.resolve_left hne
  rw [List.concat_eq_append] at hnames ⊢
  obtain ⟨front, hfront⟩ := exists_bytes_ofNames_concat above name
  refine ⟨Text.decodeLossy front, name, hnames name (by simp), ?_, fileName?_ofNames_concat hnames⟩
  rw [display, hfront, Text.decodeLossy_append_cons (by decide)]
  rfl

end Path

namespace Reader

open Evaluation

variable {settings : Settings} {p : Path}

/-- Of a normalized path, the text ends as those of sources do if the name does, and if the ending
has no slash only then. -/
theorem namesSource_iff_of_not_mem (h : p.IsNormal) (hroot : p ≠ .root)
    (hslash : '/' ∉ settings.sourceExtension) :
    Storage.namesSource settings p = true ↔
      Text.endsWith p.display settings.sourceExtension = true := by
  obtain ⟨front, name, -, htext, hname⟩ := h.exists_fileName hroot
  rw [Storage.namesSource_iff, Text.endsWith, List.isSuffixOf_iff_suffix, htext,
    Text.isSuffix_append_cons_iff hslash, hname]
  simp

/-- An ending with a slash in it fits no name. -/
theorem namesSource_eq_false (h : p.IsNormal) (hroot : p ≠ .root)
    (hslash : '/' ∈ settings.sourceExtension) : Storage.namesSource settings p = false := by
  obtain ⟨front, name, hisName, -, hname⟩ := h.exists_fileName hroot
  refine Bool.eq_false_iff.mpr fun hsource => ?_
  obtain ⟨other, hother, hending⟩ := Storage.namesSource_iff.mp hsource
  obtain rfl : other = name := Option.some.inj (hother.symm.trans hname)
  exact hisName.2.2.2 (Text.mem_of_mem_decodeLossy (c := '/') (by decide) (hending.mem hslash))

theorem mem_evaluated_sources_iff {output : Output} {item : Item} {directory : Path}
    {sourceExtension : Text} (hitem : item ∈ output.itemsOf "Compile")
    (hpath : item.path directory = p) :
    p ∈ (output.evaluated directory sourceExtension).sources ↔
      Text.endsWith p.display sourceExtension = true := by
  have hmem : p ∈ (output.itemsOf "Compile").map (Item.path directory) :=
    hpath ▸ List.mem_map_of_mem hitem
  change p ∈ ((output.itemsOf "Compile").map (Item.path directory)).filter _ ↔ _
  rw [List.mem_filter]
  exact and_iff_right hmem

/-- A scan of a directory that can be walked keeps those of the files that are named as sources. -/
theorem exists_scan {s : Storage} {directory : Path} {files : List Path}
    (hdirectory : s.isDirectory directory = true)
    (hfiles : (s.files directory settings.excludedNames).result = .ok files) :
    ∃ found, (s.scan settings directory).result = .ok found ∧
      ∀ q, q ∈ found ↔ q ∈ files ∧ Storage.namesSource settings q = true := by
  refine ⟨Storage.sourcesAmong settings files, ?_, fun q => ?_⟩
  · rw [Storage.result_scan, Storage.filesBelow, if_pos hdirectory, Attempt.result_mapError, hfiles]
    rfl
  · rw [Storage.sourcesAmong, List.mem_mergeSort, List.mem_filter]

/-- Take a normalized path other than the root that a compiled item of an engine's output stands
for, and at which a walk of a directory finds a file. If there is no slash in the ending of sources,
decoding keeps the item just if a scan of the directory keeps the file. If there is one, the scan
keeps no such file, and decoding still keeps an item whose path ends so. -/
theorem evaluated_iff_scanned (h : p.IsNormal) (hroot : p ≠ .root) {printed : Text}
    {output : Output}
    (hprinted : (Json.parse (skipBanner printed)).bind Output.ofJson? = some output)
    {item : Item} (hitem : item ∈ output.itemsOf "Compile") {directory : Path}
    (hpath : item.path directory = p) {s : Storage} {scanned : Path} {files : List Path}
    (hscanned : s.isDirectory scanned = true)
    (hfiles : (s.files scanned settings.excludedNames).result = .ok files)
    (hfile : p ∈ files) :
    ∃ evaluated found, decode printed directory settings.sourceExtension = .ok evaluated ∧
      (s.scan settings scanned).result = .ok found ∧
      ('/' ∉ settings.sourceExtension → (p ∈ evaluated.sources ↔ p ∈ found)) ∧
      ('/' ∈ settings.sourceExtension → p ∉ found ∧
        (p ∈ evaluated.sources ↔ settings.sourceExtension <:+ p.display)) := by
  obtain ⟨found, hfound, hmem⟩ := exists_scan hscanned hfiles
  refine ⟨_, found, decode_eq_ok_iff.mpr ⟨output, hprinted, rfl⟩, hfound, fun hslash => ?_,
    fun hslash => ⟨?_, ?_⟩⟩
  · rw [mem_evaluated_sources_iff hitem hpath, hmem, ← namesSource_iff_of_not_mem h hroot hslash]
    exact (and_iff_right hfile).symm
  · rw [hmem, namesSource_eq_false h hroot hslash]
    simp
  · rw [mem_evaluated_sources_iff hitem hpath, Text.endsWith, List.isSuffixOf_iff_suffix]

/-- An item whose name is the ending alone. -/
def printedBare : Text :=
  "\x7b\"Items\": \x7b\"Compile\": [\x7b\"Identity\": \"m\\\\.cs\"\x7d]\x7d\x7d"

def bareTree : Memory.Tree := (Memory.Tree.empty ⟨"/"⟩).insert ⟨"/w/m/.cs"⟩ (.file "")

/-- The item and the file are kept. -/
theorem evaluated_iff_scanned_bare : ∃ evaluated found,
    decode printedBare ⟨"/w"⟩ ".cs" = .ok evaluated ∧
      (bareTree.storage.scan .default ⟨"/w"⟩).result = .ok found ∧
      ⟨"/w/m/.cs"⟩ ∈ evaluated.sources ∧ ⟨"/w/m/.cs"⟩ ∈ found := by
  have hprinted : (Json.parse (skipBanner printedBare)).bind Output.ofJson? =
      some ⟨[], [("Compile", [⟨"m\\.cs", none⟩])]⟩ := by decide +kernel
  have hitem : ⟨"m\\.cs", none⟩ ∈
      Output.itemsOf ⟨[], [("Compile", [⟨"m\\.cs", none⟩])]⟩ "Compile" := by decide +kernel
  have hfiles : (bareTree.storage.files ⟨"/w"⟩ []).result = .ok [⟨"/w/m/.cs"⟩] := by decide +kernel
  obtain ⟨evaluated, found, hdecode, hscan, hagree, -⟩ :=
    @evaluated_iff_scanned .default ⟨"/w/m/.cs"⟩ ⟨["w", "m", ".cs"], by decide, by decide⟩
      (by decide) _ _ hprinted _ hitem ⟨"/w"⟩ (by decide +kernel) bareTree.storage ⟨"/w"⟩ _
      (by decide +kernel) hfiles (by decide)
  have hkept : (⟨"/w/m/.cs"⟩ : Path) ∈ evaluated.sources := by
    obtain ⟨output, houtput, rfl⟩ := decode_eq_ok_iff.mp hdecode
    obtain rfl := Option.some.inj (hprinted.symm.trans houtput)
    decide +kernel
  exact ⟨evaluated, found, hdecode, hscan, hkept, (hagree (by decide)).mp hkept⟩

/-- Settings that are valid although the ending of sources has a slash in it. -/
def slashSettings : Settings := { Settings.default with sourceExtension := ".d/P.cs" }

def printedNested : Text :=
  "\x7b\"Items\": \x7b\"Compile\": [\x7b\"Identity\": \"x.d/P.cs\"\x7d]\x7d\x7d"

def nestedTree : Memory.Tree := (Memory.Tree.empty ⟨"/"⟩).insert ⟨"/w/x.d/P.cs"⟩ (.file "")

/-- The item at a path is kept, and the file that a walk finds there is not. -/
theorem evaluated_not_scanned :
    slashSettings.validate = .ok () ∧ Path.IsNormal ⟨"/w/x.d/P.cs"⟩ ∧
      decode printedNested ⟨"/w"⟩ slashSettings.sourceExtension =
        .ok ⟨[], [⟨"/w/x.d/P.cs"⟩], []⟩ ∧
      (nestedTree.storage.files ⟨"/w"⟩ slashSettings.excludedNames).result =
        .ok [⟨"/w/x.d/P.cs"⟩] ∧
      (nestedTree.storage.scan slashSettings ⟨"/w"⟩).result = .ok [] := by
  refine ⟨by decide, ⟨["w", "x.d", "P.cs"], by decide, by decide⟩, ?_, by decide +kernel,
    by decide +kernel⟩
  exact decode_eq_ok_iff.mpr ⟨⟨[], [("Compile", [⟨"x.d/P.cs", none⟩])]⟩, by decide +kernel,
    by decide +kernel⟩

end Reader

end ProjectFile
