import ProjectFile.Storage.Memory

/-!
What a walk through a tree in memory lists. The walk looks at each stored file by itself and at the
links and names between the directory and the file; `Tree.Lists` says the same by descent from the
directory, and `mem_files` that the two agree. The list rises strictly in path order.
-/

namespace ProjectFile

theorem mem_dropLast_iff {α : Type} {a : α} {l : List α} :
    a ∈ l.dropLast ↔ ∃ front back, l = front ++ a :: back ∧ back ≠ [] := by
  constructor
  · intro h
    have hne : l ≠ [] := fun he => by simp [he] at h
    obtain ⟨front, back, hsplit⟩ := List.append_of_mem h
    refine ⟨front, back ++ [l.getLast hne], ?_, by simp⟩
    rw [← List.cons_append, ← List.append_assoc, ← hsplit, List.dropLast_concat_getLast hne]
  · rintro ⟨front, back, rfl, hback⟩
    rw [List.dropLast_append_of_ne_nil (by simp), List.dropLast_cons_of_ne_nil hback]
    simp

namespace Path

theorem nodup_components_of_pairwise_lt {ps : List Path} (h : ps.Pairwise (· < ·)) :
    (ps.map components).Nodup := by
  refine List.pairwise_map.mpr (h.imp fun {p q} hlt he => ?_)
  exact Path.lt_irrefl q ((lt_congr he rfl).mp hlt)

/-- Lists of paths that rise strictly and have the same members are the same list. -/
theorem eq_of_pairwise_lt {ps qs : List Path} (hps : ps.Pairwise (· < ·))
    (hqs : qs.Pairwise (· < ·)) (h : ∀ p, p ∈ ps ↔ p ∈ qs) : ps = qs := by
  have hnodup {rs : List Path} (hrs : rs.Pairwise (· < ·)) : rs.Nodup :=
    (List.pairwise_map.mp (nodup_components_of_pairwise_lt hrs)).imp (mt (congrArg components))
  have hperm := (List.perm_ext_iff_of_nodup (hnodup hps) (hnodup hqs)).mpr h
  refine hperm.eq_of_pairwise (fun p q _ _ hlt hgt => ?_) hps hqs
  exact absurd (Path.lt_trans hlt hgt) (Path.lt_irrefl p)

/-- In a strictly rising list there is at most one path with given components. -/
theorem countP_eq_ite_of_pairwise_lt {ps : List Path} (h : ps.Pairwise (· < ·)) (q : Path) :
    ps.countP (·.components = q.components) =
      if ∃ p ∈ ps, p.components = q.components then 1 else 0 := by
  have hcount : ps.countP (·.components = q.components) =
      (ps.map components).count q.components := by
    rw [List.count, List.countP_map]
    exact List.countP_congr fun p _ => by simp
  rw [hcount, (nodup_components_of_pairwise_lt h).count]
  simp only [List.mem_map]

/-- Whether `cs` is strictly between `base` and `p`, component by component. -/
def Between (base p cs : List Component) : Prop :=
  base <+: cs ∧ cs <+: p ∧ cs ≠ base ∧ cs ≠ p

/-- What is strictly between ends in a component after which another follows. -/
theorem between_append_iff {base below cs : List Component} :
    Between base (base ++ below) cs ↔
      ∃ front c back, below = front ++ c :: back ∧ back ≠ [] ∧ cs = base ++ (front ++ [c]) := by
  constructor
  · rintro ⟨⟨middle, rfl⟩, hp, hbase, hne⟩
    obtain ⟨back, hback⟩ := List.prefix_append_right_inj base |>.mp hp
    have hmiddle : middle ≠ [] := by simpa using hbase
    refine ⟨middle.dropLast, middle.getLast hmiddle, back, ?_, ?_, ?_⟩
    · rw [← hback, ← List.singleton_append, ← List.append_assoc,
        List.dropLast_concat_getLast hmiddle]
    · rintro rfl
      exact hne (by simp [← hback])
    · rw [List.dropLast_concat_getLast hmiddle]
  · rintro ⟨front, c, back, rfl, hback, rfl⟩
    refine ⟨List.prefix_append _ _, ?_, by simp, by simpa using hback⟩
    exact (List.prefix_append_right_inj base).mpr ⟨back, by simp⟩

end Path

namespace Memory

namespace Tree

/-- Whether a walk of the directory at `base` lists `p`: a file is stored there, below the
directory, and on the way to it there is neither a link nor a component with an excluded name. -/
structure Lists (t : Tree) (excluded : List Bytes) (base p : Path) : Prop where
  stored : ∃ s ∈ t.entries, s.path = p ∧ s.entry.isFile = true
  below : base.components <+: p.components ∧ base.components ≠ p.components
  unlinked : ∀ cs, Path.Between base.components p.components cs →
    t.entries.find? cs ≠ some .link
  included : ∀ cs name, Path.Between base.components p.components cs →
    cs.getLast? = some (.name name) → name ∉ excluded

theorem isBetween_iff {base p cs : List Path.Component} :
    isBetween base p cs = true ↔ Path.Between base p cs := by
  simp only [isBetween, Bool.and_eq_true, decide_eq_true_eq, List.isPrefixOf_iff_prefix,
    Path.Between]
  constructor
  · rintro ⟨⟨⟨hbase, hp⟩, hfrom⟩, hto⟩
    exact ⟨hfrom, hto, fun h => by simp [h] at hbase, fun h => by simp [h] at hp⟩
  · rintro ⟨hfrom, hto, hbase, hp⟩
    refine ⟨⟨⟨?_, ?_⟩, hfrom⟩, hto⟩
    · exact Nat.lt_of_le_of_ne hfrom.length_le fun h => hbase (hfrom.eq_of_length h).symm
    · exact Nat.lt_of_le_of_ne hto.length_le fun h => hp (hto.eq_of_length h)

theorem isExcluded_iff {excluded : List Bytes} {c : Path.Component} :
    isExcluded excluded c = true ↔ ∃ name, c = .name name ∧ name ∈ excluded := by
  cases c <;> simp [isExcluded]

theorem any_isExcluded_iff {excluded : List Bytes} {base below : List Path.Component} :
    below.dropLast.any (isExcluded excluded) = true ↔
      ∃ cs name, Path.Between base (base ++ below) cs ∧ cs.getLast? = some (.name name) ∧
        name ∈ excluded := by
  rw [List.any_eq_true]
  constructor
  · rintro ⟨c, hc, hexcluded⟩
    obtain ⟨name, rfl, hname⟩ := isExcluded_iff.mp hexcluded
    obtain ⟨front, back, hsplit, hback⟩ := mem_dropLast_iff.mp hc
    exact ⟨_, name, Path.between_append_iff.mpr ⟨front, .name name, back, hsplit, hback, rfl⟩,
      by simp, hname⟩
  · rintro ⟨cs, name, hbetween, hlast, hname⟩
    obtain ⟨front, c, back, hsplit, hback, rfl⟩ := Path.between_append_iff.mp hbetween
    obtain rfl : c = .name name := by simpa using hlast
    exact ⟨.name name, mem_dropLast_iff.mpr ⟨front, back, hsplit, hback⟩,
      isExcluded_iff.mpr ⟨name, rfl, hname⟩⟩

theorem reaches_iff {entries : Entries} (h : entries.Sorted) {excluded : List Bytes}
    {base p : List Path.Component} :
    reaches entries.links excluded base p = true ↔ base <+: p ∧
      (∀ cs, Path.Between base p cs → entries.find? cs ≠ some .link) ∧
      ∀ cs name, Path.Between base p cs → cs.getLast? = some (.name name) → name ∉ excluded := by
  have hlinks : entries.links.any (isBetween base p) = true ↔
      ∃ cs, Path.Between base p cs ∧ entries.find? cs = some .link := by
    rw [List.any_eq_true]
    constructor
    · rintro ⟨cs, hlink, hbetween⟩
      exact ⟨cs, isBetween_iff.mp hbetween, h.mem_links_iff.mp hlink⟩
    · rintro ⟨cs, hbetween, hlink⟩
      exact ⟨cs, h.mem_links_iff.mpr hlink, isBetween_iff.mpr hbetween⟩
  simp only [reaches, Bool.and_eq_true, Bool.not_eq_true', ← Bool.not_eq_true,
    List.isPrefixOf_iff_prefix, hlinks]
  constructor
  · rintro ⟨⟨⟨below, rfl⟩, hincluded⟩, hunlinked⟩
    rw [List.drop_left, any_isExcluded_iff] at hincluded
    exact ⟨List.prefix_append _ _, fun cs hcs hlink => hunlinked ⟨cs, hcs, hlink⟩,
      fun cs name hcs hlast hname => hincluded ⟨cs, name, hcs, hlast, hname⟩⟩
  · rintro ⟨⟨below, rfl⟩, hunlinked, hincluded⟩
    rw [List.drop_left, any_isExcluded_iff]
    exact ⟨⟨List.prefix_append _ _, fun ⟨cs, name, hcs, hlast, hname⟩ =>
      hincluded cs name hcs hlast hname⟩, fun ⟨cs, hcs, hlink⟩ => hunlinked cs hcs hlink⟩

variable {t : Tree} {dir : Path} {excluded : List Bytes} {files : List Path}

/-- Only a directory can be walked, and the walk keeps the stored paths of the files that it
reaches. -/
theorem files_eq_ok_iff :
    t.files dir excluded = .ok files ↔ t.entry? dir = some .directory ∧
      files = (t.entries.filter fun s => s.entry.isFile &&
        reaches t.entries.links excluded (t.locate dir).components s.components).map
          Stored.path := by
  unfold Tree.files entry?
  dsimp only
  split
  · next h => simp [h, eq_comm]
  · next other hother h =>
    have hne : other ≠ .directory := hother
    simp [h, hne]
  · next h => simp [h]

/-- A walk lists what is to be listed and nothing else. -/
theorem mem_files (h : t.files dir excluded = .ok files) {p : Path} :
    p ∈ files ↔ t.Lists excluded (t.locate dir) p := by
  obtain ⟨hdir, rfl⟩ := files_eq_ok_iff.mp h
  simp only [List.mem_map, List.mem_filter, Bool.and_eq_true, reaches_iff t.sorted]
  constructor
  · rintro ⟨s, ⟨hs, hfile, hbelow, hunlinked, hincluded⟩, rfl⟩
    rw [s.components_eq] at hbelow hunlinked hincluded
    refine ⟨⟨s, hs, rfl, hfile⟩, ⟨hbelow, fun he => ?_⟩, hunlinked, hincluded⟩
    -- The directory is no file, so what is stored at its components cannot be listed.
    have hfind : t.entry? dir = some s.entry :=
      t.sorted.find?_eq_some_iff.mpr ⟨s, hs, by rw [s.components_eq, he], rfl⟩
    rw [hdir, Option.some.injEq] at hfind
    simp [← hfind, Entry.isFile] at hfile
  · rintro ⟨⟨s, hs, rfl, hfile⟩, ⟨hbelow, -⟩, hunlinked, hincluded⟩
    rw [← s.components_eq] at hbelow hunlinked hincluded
    exact ⟨s, ⟨hs, hfile, hbelow, hunlinked, hincluded⟩, rfl⟩

/-- A walk lists in path order and nothing twice. -/
theorem pairwise_files (h : t.files dir excluded = .ok files) : files.Pairwise (· < ·) := by
  rw [(files_eq_ok_iff.mp h).2]
  refine List.pairwise_map.mpr ((t.sorted.filter _).imp fun hlt => ?_)
  exact Stored.lt_iff.mp hlt

end Tree

end Memory

end ProjectFile
