import ProjectFile.Proofs.Disk.Files
import ProjectFile.Proofs.Memory.History
import ProjectFile.Proofs.Memory.Walk

/-!
A tree in memory and one on a disk that have the same files, directories and links at the same
paths. A walk in memory lists all files below a directory, and a walk of the disk those of them that
are in directories that can be listed. As both lists rise strictly in path order, they are the same
list if all the directories can be.
-/

namespace ProjectFile

/-- What an entry is, whatever is in it. -/
inductive EntryKind where
  | file
  | directory
  | link
  | special
deriving DecidableEq

def Memory.Entry.kind : Memory.Entry → EntryKind
  | .file _ => .file
  | .directory => .directory
  | .link => .link

def DiskEntry.kind : DiskEntry → EntryKind
  | .file _ _ => .file
  | .directory _ _ => .directory
  | .link _ => .link
  | .special => .special

@[simp] theorem Memory.Entry.kind_eq_file_iff {e : Memory.Entry} :
    e.kind = .file ↔ e.isFile = true := by
  cases e <;> simp [kind, isFile]

@[simp] theorem Memory.Entry.kind_eq_directory_iff {e : Memory.Entry} :
    e.kind = .directory ↔ e = .directory := by
  cases e <;> simp [kind]

/-- Where an entry that holds nothing is alone on a disk, there are directories above it. -/
theorem DiskEntry.kind_nested {e : DiskEntry} (h : e.isDirectory = false)
    (names others : List Bytes) : ((nested names e).at? others).map kind =
      if others = names then some e.kind
      else if others <+: names then some .directory else none := by
  induction names generalizing others with
  | nil =>
    cases others with
    | nil => simp [nested]
    | cons other others =>
      have hnone : e.at? (other :: others) = none :=
        Option.eq_none_iff_forall_ne_some.mpr fun x hat =>
          absurd ((at?_eq_some_iff_of_not_isDirectory h).mp hat).1 (by simp)
      simp [nested, hnone]
  | cons name names ih =>
    cases others with
    | nil => simp [nested, kind]
    | cons other others =>
      by_cases hname : other = name
      · subst hname
        have hat : (nested (other :: names) e).at? (other :: others) =
            (nested names e).at? others := by simp [nested, at?]
        rw [hat, ih]
        simp [List.cons_prefix_cons]
      · rw [at?_nested_cons_of_ne hname]
        simp [List.cons_prefix_cons, hname]

theorem DiskEntry.kind_eq_file_iff {x : DiskEntry} :
    x.kind = .file ↔ ∃ rights bytes, x = .file rights bytes := by
  cases x <;> simp [kind]

/-- What is strictly between two lists of names ends in a name after which another follows. -/
theorem Path.between_names_iff {names below : List Bytes} {cs : List Component} :
    Between (.root :: names.map .name) (.root :: (names ++ below).map .name) cs ↔
      ∃ front name back, below = front ++ name :: back ∧ back ≠ [] ∧
        cs = .root :: (names ++ (front ++ [name])).map .name := by
  rw [List.map_append, ← List.cons_append, between_append_iff]
  constructor
  · rintro ⟨front, c, back, hbelow, hback, rfl⟩
    obtain ⟨front, back', rfl, rfl, hcons⟩ := List.map_eq_append_iff.mp hbelow
    obtain ⟨name, back, rfl, rfl, rfl⟩ := List.map_eq_cons_iff.mp hcons
    exact ⟨front, name, back, rfl, by simpa using hback, by simp⟩
  · rintro ⟨front, name, back, rfl, hback, rfl⟩
    exact ⟨front.map .name, .name name, back.map .name, by simp, by simpa using hback, by simp⟩

/-- The names in which something strictly between ends are those after which another follows. -/
theorem Path.forall_between_names_iff {names below : List Bytes} {P : Bytes → Prop} :
    (∀ cs name, Between (.root :: names.map .name) (.root :: (names ++ below).map .name) cs →
      cs.getLast? = some (.name name) → P name) ↔ ∀ name ∈ below.dropLast, P name := by
  have hlast (front : List Bytes) (name : Bytes) :
      (Component.root :: (names ++ (front ++ [name])).map .name).getLast? = some (.name name) := by
    simp [List.getLast?_cons]
  constructor
  · intro h name hname
    obtain ⟨front, back, rfl, hback⟩ := mem_dropLast_iff.mp hname
    exact h _ name (between_names_iff.mpr ⟨front, name, back, rfl, hback, rfl⟩) (hlast front name)
  · intro h cs name hcs hname
    obtain ⟨front, last, back, rfl, hback, rfl⟩ := between_names_iff.mp hcs
    rw [hlast front last, Option.some.injEq, Component.name.injEq] at hname
    exact h name (mem_dropLast_iff.mpr ⟨front, back, by rw [hname], hback⟩)

/-- A tree in memory and one on a disk with the same at the same normalized absolute paths. No link
leads to a file. -/
structure SameTree (t : Memory.Tree) (d : Disk) : Prop where
  tidy : d.root.Tidy
  spelled : ∀ s ∈ t.entries, ∃ names, (∀ n ∈ names, Path.IsName n) ∧ s.path = .ofNames names
  same : ∀ names, (t.entries.find? (.root :: names.map .name)).map Memory.Entry.kind =
    (d.root.at? names).map DiskEntry.kind
  links : ∀ names target, d.root.at? names = some (.link target) →
    d.isFile (.ofNames names) = false

namespace SameTree

variable {t : Memory.Tree} {d : Disk} {names : List Bytes} {excluded : List Bytes}

/-- Two trees are the same if the stored paths in memory are those on the disk, each with an entry
of the same kind. -/
theorem of_places (tidy : d.root.Tidy)
    (stored : (t.entries.map fun s => (s.path, s.entry.kind)).Perm
      ((d.root.places []).map fun x => (.ofNames x.1, x.2.kind)))
    (links : ∀ x ∈ d.root.places [], x.2.kind = .link → d.isFile (.ofNames x.1) = false) :
    SameTree t d := by
  have hplace (names : List Bytes) (x : DiskEntry) :
      (names, x) ∈ d.root.places [] ↔ d.root.at? names = some x := by
    simp [DiskEntry.mem_places tidy]
  have hspelled (s : Memory.Stored) (hs : s ∈ t.entries) : ∃ names x,
      (∀ n ∈ names, Path.IsName n) ∧ d.root.at? names = some x ∧
        s.path = .ofNames names ∧ s.entry.kind = x.kind := by
    have hmem := stored.mem_iff.mp (List.mem_map_of_mem hs)
    obtain ⟨⟨names, x⟩, hx, he⟩ := List.mem_map.mp hmem
    have hat := (hplace names x).mp hx
    rw [Prod.mk.injEq] at he
    exact ⟨names, x, tidy.isName hat, hat, he.1.symm, he.2.symm⟩
  refine ⟨tidy, fun s hs => ?_, fun names => Option.ext fun k => ?_, fun names target hat => ?_⟩
  · obtain ⟨names, -, hnames, -, hpath, -⟩ := hspelled s hs
    exact ⟨names, hnames, hpath⟩
  · rw [Option.map_eq_some_iff, Option.map_eq_some_iff]
    constructor
    · rintro ⟨e, hfind, rfl⟩
      obtain ⟨s, hs, hcs, rfl⟩ := t.sorted.find?_eq_some_iff.mp hfind
      obtain ⟨others, x, hothers, hat, hpath, hkind⟩ := hspelled s hs
      rw [s.components_eq, hpath] at hcs
      rw [(Path.components_ofNames_eq_iff hothers).mp hcs] at hat
      exact ⟨x, hat, hkind.symm⟩
    · rintro ⟨x, hat, rfl⟩
      have hmem := stored.mem_iff.mpr (List.mem_map_of_mem ((hplace names x).mpr hat))
      obtain ⟨s, hs, he⟩ := List.mem_map.mp hmem
      rw [Prod.mk.injEq] at he
      refine ⟨s.entry, t.sorted.find?_eq_some_iff.mpr ⟨s, hs, ?_, rfl⟩, he.2⟩
      rw [s.components_eq, he.1]
      exact Path.components_ofNames (tidy.isName hat)
  · exact links _ ((hplace names _).mpr hat) rfl

theorem exists_find? (h : SameTree t d) {x : DiskEntry} (hat : d.root.at? names = some x) :
    ∃ e, t.entries.find? (.root :: names.map .name) = some e ∧ e.kind = x.kind := by
  have hsame := h.same names
  rw [hat] at hsame
  exact Option.map_eq_some_iff.mp hsame

theorem find?_directory (h : SameTree t d) {rights : Rights} {entries : List (Bytes × DiskEntry)}
    (hat : d.root.at? names = some (.directory rights entries)) :
    t.entries.find? (.root :: names.map .name) = some .directory := by
  obtain ⟨e, hfind, hkind⟩ := h.exists_find? hat
  rw [hfind, Memory.Entry.kind_eq_directory_iff.mp hkind]

/-- Where something is stored in memory, the disk has an entry of the same kind. -/
theorem exists_at? (h : SameTree t d) {s : Memory.Stored} (hs : s ∈ t.entries) :
    ∃ names x, s.path = .ofNames names ∧ d.root.at? names = some x ∧ s.entry.kind = x.kind := by
  obtain ⟨names, hnames, hpath⟩ := h.spelled s hs
  have hfind : t.entries.find? (.root :: names.map .name) = some s.entry := by
    refine t.sorted.find?_eq_some_iff.mpr ⟨s, hs, ?_, rfl⟩
    rw [s.components_eq, hpath, Path.components_ofNames hnames]
  have hsame := h.same names
  rw [hfind] at hsame
  obtain ⟨x, hat, hkind⟩ := Option.map_eq_some_iff.mp hsame.symm
  exact ⟨names, x, hpath, hat, hkind.symm⟩

/-- What the disk has is stored in memory under its normalized path. -/
theorem exists_stored (h : SameTree t d) {x : DiskEntry} (hat : d.root.at? names = some x) :
    ∃ s ∈ t.entries, s.path = .ofNames names ∧ s.entry.kind = x.kind := by
  obtain ⟨e, hfind, hkind⟩ := h.exists_find? hat
  obtain ⟨s, hs, hcs, rfl⟩ := t.sorted.find?_eq_some_iff.mp hfind
  obtain ⟨others, hothers, hpath⟩ := h.spelled s hs
  rw [s.components_eq, hpath] at hcs
  rw [(Path.components_ofNames_eq_iff hothers).mp hcs] at hpath
  exact ⟨s, hs, hpath, hkind⟩

/-- On the way down to something on the disk there are directories only, in memory as well. -/
theorem find?_of_between (h : SameTree t d) {below : List Bytes} {x : DiskEntry}
    (hat : d.root.at? (names ++ below) = some x) {cs : List Path.Component}
    (hcs : Path.Between (.root :: names.map .name) (.root :: (names ++ below).map .name) cs) :
    t.entries.find? cs = some .directory := by
  obtain ⟨front, name, back, rfl, hback, rfl⟩ := Path.between_names_iff.mp hcs
  have hsplit : names ++ (front ++ name :: back) = names ++ (front ++ [name]) ++ back := by simp
  rw [hsplit] at hat
  obtain ⟨rights, entries, hat⟩ := DiskEntry.exists_directory_of_at? hback hat
  exact h.find?_directory hat

/-- Below a directory the walk of the tree in memory lists the files that the disk holds there. -/
theorem lists_iff (h : SameTree t d) {rights : Rights} {entries : List (Bytes × DiskEntry)}
    (hdir : d.root.at? names = some (.directory rights entries)) {p : Path} :
    t.Lists excluded (.ofNames names) p ↔ ∃ above name,
      p = (Path.ofNames names).below (above ++ [name]) ∧
        d.HoldsFile excluded (.ofNames names) names above name := by
  have hnames := h.tidy.isName hdir
  have hbase := Path.components_ofNames hnames
  constructor
  · rintro ⟨⟨s, hs, rfl, hfile⟩, ⟨hunder, -⟩, -, hincluded⟩
    obtain ⟨others, x, hpath, hat, hkind⟩ := h.exists_at? hs
    have hcs := Path.components_ofNames (h.tidy.isName hat)
    rw [hbase, hpath, hcs, List.cons_prefix_cons] at hunder
    obtain ⟨below, rfl⟩ :=
      (List.prefix_map_iff_of_injective fun _ _ => Path.Component.name.inj).mp hunder.2
    rw [Memory.Entry.kind_eq_file_iff.mpr hfile] at hkind
    obtain ⟨rights', bytes, rfl⟩ := DiskEntry.kind_eq_file_iff.mp hkind.symm
    have hne : below ≠ [] := by
      rintro rfl
      rw [List.append_nil, hdir] at hat
      cases hat
    obtain ⟨above, name, rfl⟩ := List.eq_nil_or_concat below |>.resolve_left hne
    rw [List.concat_eq_append] at hat hpath hcs
    have hrest := (List.forall_mem_append.mp (h.tidy.isName hat)).2
    refine ⟨above, name, by rw [Path.below_ofNames hnames hrest, hpath],
      ⟨fun front => Disk.directories_of_at? hat, ?_, .inl ⟨rights', bytes, hat⟩⟩⟩
    rw [hbase, hpath, hcs] at hincluded
    simpa using Path.forall_between_names_iff.mp hincluded
  · rintro ⟨above, name, rfl, ⟨-, hincluded, hheld⟩⟩
    obtain ⟨x, hat, hkind⟩ : ∃ x, d.root.at? (names ++ (above ++ [name])) = some x ∧
        x.kind = .file := by
      rcases hheld with ⟨rights', bytes, hat⟩ | ⟨⟨target, hat⟩, hgoal⟩
      · exact ⟨_, hat, rfl⟩
      · have hlink := h.links _ _ hat
        rw [← Path.below_ofNames hnames (List.forall_mem_append.mp (h.tidy.isName hat)).2,
          Disk.isFile_iff.mpr hgoal] at hlink
        cases hlink
    rw [Path.below_ofNames hnames (List.forall_mem_append.mp (h.tidy.isName hat)).2]
    have hcs := Path.components_ofNames (h.tidy.isName hat)
    obtain ⟨s, hs, hpath, he⟩ := h.exists_stored hat
    refine ⟨⟨s, hs, hpath, Memory.Entry.kind_eq_file_iff.mp (he.trans hkind)⟩, ?_, ?_, ?_⟩
    · rw [hbase, hcs, List.map_append]
      exact ⟨List.cons_prefix_cons.mpr ⟨rfl, List.prefix_append _ _⟩, by simp⟩
    · intro cs hbetween
      rw [hbase, hcs] at hbetween
      simp [h.find?_of_between hat hbetween]
    · rw [hbase, hcs]
      exact Path.forall_between_names_iff.mpr (by simpa using hincluded)

theorem locate_ofNames (t : Memory.Tree) (names : List Bytes) :
    t.locate (.ofNames names) = .ofNames names := by
  simp [Memory.Tree.locate, Path.join, Path.isAbsolute, Path.bytes_ofNames]

theorem memory_files (h : SameTree t d) {rights : Rights} {entries : List (Bytes × DiskEntry)}
    (hdir : d.root.at? names = some (.directory rights entries)) (excluded : List Bytes) :
    ∃ files, (t.storage.files (.ofNames names) excluded).result = .ok files ∧
      files.Pairwise (· < ·) ∧ ∀ q, q ∈ files ↔ ∃ above name,
        q = (Path.ofNames names).below (above ++ [name]) ∧
          d.HoldsFile excluded (.ofNames names) names above name := by
  have hlocate := locate_ofNames t names
  have hentry : t.entry? (.ofNames names) = some .directory := by
    rw [Memory.Tree.entry?, hlocate, Path.components_ofNames (h.tidy.isName hdir),
      h.find?_directory hdir]
  have hmemory : t.files (.ofNames names) excluded = .ok _ :=
    Memory.Tree.files_eq_ok_iff.mpr ⟨hentry, rfl⟩
  refine ⟨_, (Attempt.result_ofExcept _).trans hmemory, Memory.Tree.pairwise_files hmemory,
    fun q => ?_⟩
  rw [Memory.Tree.mem_files hmemory, hlocate, h.lists_iff hdir]

/-- Storing something under a normalized path leaves all stored paths normalized. -/
theorem spelled_insert (h : ∀ s ∈ t.entries, ∃ names, (∀ n ∈ names, Path.IsName n) ∧
      s.path = .ofNames names) (hnames : ∀ n ∈ names, Path.IsName n) (e : Memory.Entry) :
    ∀ s ∈ (t.insert (.ofNames names) e).entries, ∃ names, (∀ n ∈ names, Path.IsName n) ∧
      s.path = .ofNames names := by
  intro s hs
  rcases Memory.Tree.path_of_mem_insert hs with ⟨u, hu, hpath⟩ | hpath | ⟨cs, hcs, hpre, hpath⟩
  · exact hpath ▸ h u hu
  · exact ⟨names, hnames, by rw [hpath, locate_ofNames]⟩
  · rw [locate_ofNames, Path.components_ofNames hnames] at hpre
    obtain ⟨c, cs, rfl⟩ := List.exists_cons_of_ne_nil hcs
    obtain ⟨rfl, hrest⟩ := List.cons_prefix_cons.mp hpre
    obtain ⟨front, ⟨rest, rfl⟩, rfl⟩ := List.prefix_map_iff.mp hrest
    exact ⟨front, (List.forall_mem_append.mp hnames).1, hpath⟩

theorem isAbove_ofNames_iff (hnames : ∀ n ∈ names, Path.IsName n) {others : List Bytes} :
    Path.IsAbove (.root :: others.map .name) (.ofNames names) ↔
      others <+: names ∧ others ≠ names := by
  rw [Path.IsAbove, Path.components_ofNames hnames, List.cons_prefix_cons, ne_eq, ne_eq,
    List.cons.injEq, List.prefix_map_iff_of_injective fun _ _ => Path.Component.name.inj,
    List.map_inj_right fun _ _ => Path.Component.name.inj]
  simp

/-- Where a file is alone in memory, there are directories above it. -/
theorem kind_insert_empty (hnames : ∀ n ∈ names, Path.IsName n) (content : Text)
    (others : List Bytes) :
    (((Memory.Tree.empty .root).insert (.ofNames names) (.file content)).entries.find?
        (.root :: others.map .name)).map Memory.Entry.kind =
      if others = names then some .file
      else if others <+: names then some .directory else none := by
  have hempty : (Memory.Tree.empty .root).entries.find? (.root :: others.map .name) =
      if others = [] then some .directory else none := by
    have hroot : ¬ Path.IsAbove (.root :: others.map .name) .root :=
      Path.not_isAbove_of_parent?_eq_none rfl
    rw [Memory.Tree.empty, Memory.Tree.find?_insert]
    cases others with
    | nil => rfl
    | cons other others =>
      have hne : Path.components .root ≠ .root :: (other :: others).map .name := by
        rw [show Path.components .root = [.root] from rfl]
        simp
      rw [if_neg (List.cons_ne_nil other others)]
      exact (if_neg hne).trans (if_neg (t := some .directory) hroot)
  have hpath : (Path.ofNames names).components = .root :: others.map .name ↔ names = others :=
    Path.components_ofNames_eq_iff hnames
  rw [Memory.Tree.find?_insert, hempty, locate_ofNames]
  by_cases heq : others = names
  · rw [if_pos (hpath.mpr heq.symm), if_pos heq]
    rfl
  · rw [if_neg fun h => heq (hpath.mp h).symm, if_neg heq]
    by_cases hpre : others <+: names
    · rw [if_pos ((isAbove_ofNames_iff hnames).mpr ⟨hpre, heq⟩), if_pos hpre]
      split <;> rfl
    · have hnil : others ≠ [] := fun hnil => hpre (hnil ▸ List.nil_prefix)
      rw [if_neg hnil, if_neg fun h => hpre ((isAbove_ofNames_iff hnames).mp h).1, if_neg hpre]
      rfl

theorem spelled_empty : ∀ s ∈ (Memory.Tree.empty .root).entries, ∃ names,
    (∀ n ∈ names, Path.IsName n) ∧ s.path = .ofNames names := by
  have hnone : ∀ n ∈ ([] : List Bytes), Path.IsName n := by simp
  exact spelled_insert (by simp) hnone .directory

/-- A file alone in memory, and the same one on a disk. -/
theorem nested (hnames : ∀ n ∈ names, DiskEntry.IsName n) (content : Text) (bytes : List UInt8)
    (base : Path) : SameTree ((Memory.Tree.empty .root).insert (.ofNames names) (.file content))
      ⟨.nested names (.file .all bytes), base⟩ := by
  have hparts (n : Bytes) (hn : n ∈ names) : Path.IsName n := (hnames n hn).1
  have hkind (others : List Bytes) := DiskEntry.kind_nested (e := .file .all bytes) rfl names others
  refine ⟨.nested (.file _ _) hnames, ?_, fun others => ?_, fun others target hat => ?_⟩
  · exact spelled_insert spelled_empty hparts _
  · exact (kind_insert_empty hparts content others).trans (hkind others).symm
  · have hlink := hkind others
    rw [hat] at hlink
    split_ifs at hlink <;> cases hlink

end SameTree

/-- Below a directory that the system opens, a walk lists in memory all files that are there, and on
the disk those of them in directories that can be listed, both in path order. If the system opens
all directories there, the lists are the same. -/
theorem files_agree {t : Memory.Tree} {d : Disk} (h : SameTree t d) {names : List Bytes}
    {rights : Rights} {entries : List (Bytes × DiskEntry)}
    (hdir : d.root.at? names = some (.directory rights entries)) {e : DiskEntry}
    (hopen : d.opened (.ofNames names) = .ok e) (excluded : List Bytes) : ∃ files listed,
      (t.storage.files (.ofNames names) excluded).result = .ok files ∧
      (d.storage.files (.ofNames names) excluded).result = .ok listed ∧
      files.Pairwise (· < ·) ∧ listed.Pairwise (· < ·) ∧
      (∀ q, q ∈ files ↔ ∃ above name, q = (Path.ofNames names).below (above ++ [name]) ∧
        d.HoldsFile excluded (.ofNames names) names above name) ∧
      (∀ q, q ∈ listed ↔ ∃ above name, q = (Path.ofNames names).below (above ++ [name]) ∧
        d.HoldsFile excluded (.ofNames names) names above name ∧
          d.Listable (.ofNames names) names above) ∧
      ((∀ above rights entries, d.root.at? (names ++ above) = some (.directory rights entries) →
        ∃ e, d.opened (.ofNames (names ++ above)) = .ok e) → listed = files) := by
  obtain ⟨files, hmemory, hfiles, hmem⟩ := h.memory_files hdir excluded
  obtain ⟨hresolve, hread⟩ := Disk.resolve_ofNames h.tidy hdir hopen
  obtain ⟨listed, hdisk, hlisted, hmem', -⟩ := Disk.files_exact h.tidy hresolve hread excluded
  refine ⟨files, listed, hmemory, hdisk, hfiles, hlisted, hmem, hmem', fun hall => ?_⟩
  refine Path.eq_of_pairwise_lt hlisted hfiles fun q => ?_
  rw [hmem, hmem']
  refine exists_congr fun above => exists_congr fun name => and_congr_right fun _ =>
    and_iff_left_of_imp fun hheld => ?_
  refine (Disk.listable_iff h.tidy hresolve hheld.directories).mpr fun front hfront => ?_
  obtain ⟨rights', entries', hat⟩ := hheld.directories front hfront
  have hrest := (List.forall_mem_append.mp (h.tidy.isName hat)).2
  rw [Path.below_ofNames (h.tidy.isName hdir) hrest]
  exact hall front rights' entries' hat

/-- A disk with files, directories, one of them to be left out, and a link to a directory. -/
def sampleDisk : Disk where
  root := .directory .all [("a.cs", .file .all []), ("bin", .directory .all [("x", .file .all [])]),
    ("a-", .directory .all [("y", .file .all [])]), ("l", .link ⟨"/a"⟩),
    ("a", .directory .all [("z", .file .all [])])]
  base := ⟨"/"⟩

def sampleTree : Memory.Tree :=
  [(⟨"/a.cs"⟩, .file ""), (⟨"/a-/y"⟩, .file ""), (⟨"/a/z"⟩, .file ""), (⟨"/bin/x"⟩, .file ""),
    (⟨"/l"⟩, Memory.Entry.link)].foldl (fun t x => t.insert x.1 x.2) (.empty ⟨"/"⟩)

theorem SameTree.sample : SameTree sampleTree sampleDisk := by
  have hsingle (name : Bytes) (h : DiskEntry.IsName name) :
      (DiskEntry.directory .all [(name, .file .all [])]).Tidy :=
    .nested (.file .all []) (List.forall_mem_singleton.mpr h)
  refine .of_places (.directory _ _ (by decide) (by decide) ?_) (by decide +kernel)
    (by decide +kernel)
  simp only [List.forall_mem_cons, List.not_mem_nil, false_imp_iff, implies_true, and_true]
  exact ⟨.file _ _, hsingle _ (by decide), hsingle _ (by decide), .link _, hsingle _ (by decide)⟩

/-- What is below `a` comes before what is below `a-`, and both before `a.cs`. -/
theorem files_agree_sample : SameTree sampleTree sampleDisk ∧
    sampleDisk.opened (.ofNames []) = .ok sampleDisk.root ∧
    (sampleTree.storage.files (.ofNames []) ["bin"]).result =
      .ok [⟨"/a/z"⟩, ⟨"/a-/y"⟩, ⟨"/a.cs"⟩] ∧
    (sampleDisk.storage.files (.ofNames []) ["bin"]).result =
      .ok [⟨"/a/z"⟩, ⟨"/a-/y"⟩, ⟨"/a.cs"⟩] := by
  have hroot : sampleDisk.root.at? [] = some sampleDisk.root := rfl
  have hopen : ∀ x ∈ sampleDisk.root.places [], x.2.kind = .directory →
      (sampleDisk.opened (.ofNames x.1)).toOption.isSome = true := by decide +kernel
  obtain ⟨files, listed, hmemory, hdisk, -, -, -, -, hsame⟩ :=
    files_agree .sample hroot (e := sampleDisk.root) rfl ["bin"]
  have hlisted : listed = files := hsame fun above rights entries hat => by
    have hplace : (above, .directory rights entries) ∈ sampleDisk.root.places [] :=
      (DiskEntry.mem_places SameTree.sample.tidy).mpr ⟨above, rfl, hat⟩
    have hsome := hopen _ hplace rfl
    cases he : sampleDisk.opened (.ofNames above) with
    | ok e => exact ⟨e, he⟩
    | error reason => simp [he, Except.toOption] at hsome
  have hfiles : (sampleTree.storage.files (.ofNames []) ["bin"]).result =
      .ok [⟨"/a/z"⟩, ⟨"/a-/y"⟩, ⟨"/a.cs"⟩] := by decide +kernel
  exact ⟨.sample, rfl, hfiles, hdisk.trans (hlisted ▸ hmemory.symm.trans hfiles)⟩

/-- The tree in memory with the file that is on a disk in directories with paths that are too
long. -/
def deepTree : Memory.Tree :=
  (Memory.Tree.empty .root).insert (.ofNames (Disk.deepNames ++ [("g" : Bytes)])) (.file "")

/-- The file is listed in memory, and not on the disk. -/
theorem files_disagree_deep : SameTree deepTree Disk.deepDisk ∧
    Disk.deepDisk.opened (.ofNames []) = .ok Disk.deepDisk.root ∧ ∃ files,
    (deepTree.storage.files (.ofNames []) []).result = .ok files ∧
    .ofNames (Disk.deepNames ++ [("g" : Bytes)]) ∈ files ∧
    (Disk.deepDisk.storage.files (.ofNames []) []).result = .ok [] := by
  have hsame : SameTree deepTree Disk.deepDisk := .nested (by decide +kernel) "" [] ⟨"/"⟩
  obtain ⟨files, hfiles, -, hmem⟩ :=
    hsame.memory_files (DiskEntry.at?_nil Disk.deepDisk.root) []
  have hat : Disk.deepDisk.root.at? (Disk.deepNames ++ [("g" : Bytes)]) = some (.file .all []) :=
    DiskEntry.at?_nested _ _
  refine ⟨hsame, rfl, files, hfiles, (hmem _).mpr ⟨Disk.deepNames, "g", ?_, ?_⟩, by decide +kernel⟩
  · rw [Path.below_ofNames (by simp) (hsame.tidy.isName hat), List.nil_append]
  · have hfile : Disk.deepDisk.root.at? ([] ++ (Disk.deepNames ++ [("g" : Bytes)])) =
        some (.file .all []) := hat
    exact ⟨fun front => Disk.directories_of_at? hfile, by simp, .inl ⟨.all, [], hfile⟩⟩

end ProjectFile
