import ProjectFile.Path.Clean
import ProjectFile.Proofs.Path.Names

/-!
Normal forms of absolute paths. While the components of an absolute path are worked off, what is
left is the root with names after it, so cleaning an absolute path gives the path of a list of
names. The parent of such a path is the path of the names but the last, and only the root has none.
-/

namespace ProjectFile

namespace Path

variable {names : List Bytes}

/-- What is left of an absolute path while it is worked off: names, the last one first, and then
the root. -/
def IsRooted (above : List Component) : Prop :=
  ∃ names : List Bytes, (∀ n ∈ names, IsName n) ∧ above = names.map .name ++ [.root]

theorem Component.IsInner.isName {t : Bytes} (h : (Component.name t).IsInner) : IsName t := by
  obtain ⟨hslash, hpart⟩ := h
  refine ⟨?_, ?_, ?_, hslash⟩ <;>
    · rintro rfl
      simp [Component.bytes, Component.ofPart?] at hpart

/-- Working off one more component leaves the root where it is and names after it. -/
theorem IsRooted.collapse {above : List Component} (h : IsRooted above) {c : Component}
    (hc : c.IsInner) : IsRooted (Path.collapse above c) := by
  obtain ⟨names, hnames, rfl⟩ := h
  cases c with
  | root => exact absurd (by simp [Component.bytes]) hc.1
  | current => exact ⟨names, hnames, rfl⟩
  | parent =>
    cases names with
    | nil => exact ⟨[], by simp, rfl⟩
    | cons last names => exact ⟨names, fun n hn => hnames n (by simp [hn]), rfl⟩
  | name t =>
    refine ⟨t :: names, fun n hn => ?_, rfl⟩
    rcases List.mem_cons.mp hn with rfl | hn
    · exact hc.isName
    · exact hnames n hn

theorem IsRooted.foldl_collapse {above cs : List Component} (h : IsRooted above)
    (hcs : ∀ c ∈ cs, c.IsInner) : IsRooted (cs.foldl Path.collapse above) := by
  induction cs generalizing above with
  | nil => exact h
  | cons c cs ih => exact ih (h.collapse (hcs c (by simp))) fun d hd => hcs d (by simp [hd])

theorem components_of_isAbsolute {p : Path} (h : p.isAbsolute = true) :
    ∃ cs, p.components = .root :: cs ∧ ∀ c ∈ cs, c.IsInner := by
  obtain ⟨bytes⟩ := p
  unfold isAbsolute at h
  split at h
  · next rest hbytes =>
    obtain rfl : bytes = slash :: rest := hbytes
    have hplain := isPlain_components ⟨slash :: rest⟩
    obtain ⟨first, parts, hsplit⟩ :=
      List.exists_cons_of_ne_nil (Text.splitOn_ne_nil slash rest)
    have hcomponents : components ⟨slash :: rest⟩ =
        .root :: (first :: parts).filterMap Component.ofPart? := by
      simp only [components, Text.splitOn, if_true, hsplit]
    rw [hcomponents] at hplain ⊢
    exact ⟨_, rfl, hplain⟩
  · cases h

/-- Of an absolute path the root is left and names after it. -/
theorem exists_normalize_of_isAbsolute {p : Path} (h : p.isAbsolute = true) :
    ∃ names : List Bytes, (∀ n ∈ names, IsName n) ∧
      normalize p.components = .root :: names.map .name := by
  obtain ⟨cs, hcs, hinner⟩ := components_of_isAbsolute h
  have hroot : IsRooted [.root] := ⟨[], by simp, rfl⟩
  obtain ⟨names, hnames, hfold⟩ := hroot.foldl_collapse hinner
  refine ⟨names.reverse, fun n hn => hnames n (by simpa using hn), ?_⟩
  rw [normalize, hcs, List.foldl_cons]
  change (cs.foldl Path.collapse [.root]).reverse = _
  rw [hfold]
  simp

/-- Cleaning an absolute path leaves names after the root. -/
theorem exists_clean_eq_ofNames {p : Path} (h : p.isAbsolute = true) :
    ∃ names, (∀ n ∈ names, IsName n) ∧ p.clean = ofNames names := by
  obtain ⟨names, hnames, hnormal⟩ := exists_normalize_of_isAbsolute h
  exact ⟨names, hnames, by rw [clean, hnormal, ofNames]⟩

theorem isAbsolute_join {base : Path} (h : base.isAbsolute = true) (p : Path) :
    (base.join p).isAbsolute = true := by
  obtain ⟨bytes⟩ := base
  unfold isAbsolute at h
  split at h
  · next rest hbytes =>
    obtain rfl : bytes = slash :: rest := hbytes
    unfold join
    split
    · next hp => simpa using hp
    · split <;> rfl
  · cases h

/-- Seen from an absolute base every path is that of a list of names. -/
theorem exists_absolute_eq_ofNames {base : Path} (h : base.isAbsolute = true) (p : Path) :
    ∃ names, (∀ n ∈ names, IsName n) ∧ p.absolute base = ofNames names :=
  exists_clean_eq_ofNames (isAbsolute_join h p)

@[simp] theorem isAbsolute_ofNames (names : List Bytes) : (ofNames names).isAbsolute = true := by
  simp [isAbsolute, bytes_ofNames]

theorem ofNames_nil : ofNames [] = root := rfl

@[simp] theorem parent?_root : root.parent? = none := by decide

theorem IsName.not_isSilent {t : Bytes} (h : IsName t) : isSilent t = false := by
  have hpart : Component.ofPart? t = some (.name t) := h.isInner.2
  simp [isSilent, hpart]

/-- What is above a path of names has the same names but the last. -/
theorem parent?_ofNames_concat {name : Bytes} (h : ∀ n ∈ names ++ [name], IsName n) :
    (ofNames (names ++ [name])).parent? = some (ofNames names) := by
  have hloud (n : Bytes) (hn : n ∈ names ++ [name]) : ¬ isSilent n = true := by
    simp [(h n hn).not_isSilent]
  rw [parent?, splitOn_ofNames (by simp) h]
  simp only [List.reverse_append, List.reverse_singleton, List.singleton_append,
    List.dropWhile_cons_of_neg (hloud name (by simp))]
  obtain rfl | ⟨above, last, rfl⟩ := List.eq_nil_or_concat names
  · rfl
  · rw [List.concat_eq_append, List.reverse_append, List.reverse_singleton,
      List.singleton_append, List.dropWhile_cons_of_neg (hloud last (by simp)),
      List.reverse_cons, List.reverse_reverse]
    obtain ⟨first, rest, hcons⟩ := List.exists_cons_of_ne_nil (l := above ++ [last]) (by simp)
    simp only [hcons, Option.some.injEq]
    exact congrArg Path.mk (bytes_ofNames (first :: rest)).symm

/-- Seen from an absolute base a path is the root or has a last name. -/
theorem absolute_eq_root_or_concat {base : Path} (hbase : base.isAbsolute = true) (p : Path) :
    p.absolute base = root ∨ ∃ names name, (∀ n ∈ names ++ [name], IsName n) ∧
      p.absolute base = ofNames (names ++ [name]) := by
  obtain ⟨names, hnames, hpath⟩ := exists_absolute_eq_ofNames hbase p
  obtain rfl | ⟨above, last, rfl⟩ := List.eq_nil_or_concat names
  · exact .inl (hpath.trans ofNames_nil)
  · rw [List.concat_eq_append] at hnames hpath
    exact .inr ⟨above, last, hnames, hpath⟩

/-- What has a parent when seen from an absolute base has a name below that parent. -/
theorem exists_names_of_parent? {base p directory : Path} (hbase : base.isAbsolute = true)
    (h : (p.absolute base).parent? = some directory) : ∃ names name,
      (∀ n ∈ names ++ [name], IsName n) ∧ p.absolute base = ofNames (names ++ [name]) ∧
        directory = ofNames names := by
  obtain hroot | ⟨names, name, hnames, hpath⟩ := absolute_eq_root_or_concat hbase p
  · rw [hroot, parent?_root] at h
    cases h
  · rw [hpath, parent?_ofNames_concat hnames, Option.some.injEq] at h
    exact ⟨names, name, hnames, hpath, h.symm⟩

/-- Seen from an absolute base only the root has no parent. -/
theorem parent?_absolute_eq_none_iff {base p : Path} (hbase : base.isAbsolute = true) :
    (p.absolute base).parent? = none ↔ p.absolute base = root := by
  constructor
  · intro h
    obtain hroot | ⟨names, name, hnames, hpath⟩ := absolute_eq_root_or_concat hbase p
    · exact hroot
    · rw [hpath, parent?_ofNames_concat hnames] at h
      cases h
  · intro h
    rw [h, parent?_root]

theorem components_ofNames_prefix {below : List Bytes} (h : ∀ n ∈ names ++ below, IsName n) :
    (ofNames names).components <+: (ofNames (names ++ below)).components := by
  rw [components_ofNames h, components_ofNames fun n hn => h n (by simp [hn]), List.map_append]
  exact List.cons_prefix_cons.mpr ⟨rfl, List.prefix_append _ _⟩

end Path

end ProjectFile
