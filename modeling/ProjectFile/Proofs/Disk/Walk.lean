import ProjectFile.Proofs.Disk.Place
import ProjectFile.Proofs.Path.Below

/-!
What a walk through a tidy tree on a disk comes upon. `DiskEntry.Finds` says it by the names below
the directory: a file or a link to one, or a directory that the system does not open, with opened
directories above it and none of an excluded name. `mem_walk` says that the walk comes upon just
that, and `pairwise_files` that it lists files in path order, which holds because each directory is
taken in the order of its names.
-/

namespace ProjectFile

/-- Of the names that lead to a finding, those of directories. -/
def Finding.directories : Finding → List Bytes → List Bytes
  | .file _, names => names.dropLast
  | .unlistable _ _, names => names

namespace DiskEntry

variable {isFile : Path → Bool} {opened : Path → Except SystemError DiskEntry}
  {excluded : List Bytes}

def files (isFile : Path → Bool) (opened : Path → Except SystemError DiskEntry)
    (excluded : List Bytes) (p : Path) (e : DiskEntry) : List Path :=
  (e.walk isFile opened excluded p).filterMap Finding.file?

/-- What a walk notes of an entry at the path `p` itself. -/
def finding? (isFile : Path → Bool) (opened : Path → Except SystemError DiskEntry) (p : Path) :
    DiskEntry → Option Finding
  | .file _ _ => some (.file p)
  | .link _ => if isFile p then some (.file p) else none
  | .directory _ _ =>
    match opened p with
    | .ok _ => none
    | .error reason => some (.unlistable p reason)
  | .special => none

theorem finding?_eq_file_iff {e : DiskEntry} {p q : Path} :
    e.finding? isFile opened p = some (.file q) ↔ p = q ∧
      ((∃ rights bytes, e = .file rights bytes) ∨
        (∃ target, e = .link target) ∧ isFile p = true) := by
  cases e with
  | file rights bytes => simp [finding?]
  | link target => cases h : isFile p <;> simp [finding?, h]
  | directory rights entries => cases h : opened p <;> simp [finding?, h]
  | special => simp [finding?]

theorem finding?_eq_unlistable_iff {e : DiskEntry} {p q : Path} {reason : SystemError} :
    e.finding? isFile opened p = some (.unlistable q reason) ↔ p = q ∧
      (∃ rights entries, e = .directory rights entries) ∧ opened p = .error reason := by
  cases e with
  | file rights bytes => simp [finding?]
  | link target => cases h : isFile p <;> simp [finding?, h]
  | directory rights entries => cases h : opened p <;> simp [finding?, h]
  | special => simp [finding?]

/-- Whether a walk of what is at the path `p` notes the finding for what is at the names below:
the directories above that are opened, and no directory on the way or there has an excluded
name. -/
structure Finds (isFile : Path → Bool) (opened : Path → Except SystemError DiskEntry)
    (excluded : List Bytes) (p : Path) (e : DiskEntry) (names : List Bytes) (f : Finding) :
    Prop where
  found : ∃ x, e.at? names = some x ∧ x.finding? isFile opened (p.below names) = some f
  included : ∀ name ∈ f.directories names, name ∉ excluded
  reached : ∀ above, above <+: names → above ≠ names → ∃ x, opened (p.below above) = .ok x

def walkChild (isFile : Path → Bool) (opened : Path → Except SystemError DiskEntry)
    (excluded : List Bytes) (p : Path) (x : Bytes × DiskEntry) : Bytes × List Finding :=
  (x.1, if x.2.isDirectory && excluded.contains x.1 then []
    else x.2.walk isFile opened excluded (p.child x.1))

theorem walkEach_eq_map (p : Path) (entries : List (Bytes × DiskEntry)) :
    walkEach isFile opened excluded p entries =
      entries.map (walkChild isFile opened excluded p) := by
  induction entries with
  | nil => rfl
  | cons x rest ih => rw [walkEach, ih]; rfl

/-- The entries of a directory in the order in which a walk takes them. -/
def inOrder (isFile : Path → Bool) (opened : Path → Except SystemError DiskEntry)
    (excluded : List Bytes) (p : Path) (entries : List (Bytes × DiskEntry)) :
    List (Bytes × List Finding) :=
  (entries.map (walkChild isFile opened excluded p)).mergeSort fun a b =>
    decide (a.1 ≤ b.1)

theorem walk_directory (p : Path) (rights : Rights) (entries : List (Bytes × DiskEntry)) :
    walk isFile opened excluded p (.directory rights entries) =
      match opened p with
      | .ok _ => (inOrder isFile opened excluded p entries).flatMap Prod.snd
      | .error reason => [.unlistable p reason] := by
  rw [walk, walkEach_eq_map]
  rfl

theorem walk_of_not_isDirectory {e : DiskEntry} (h : e.isDirectory = false) (p : Path) :
    e.walk isFile opened excluded p = (e.finding? isFile opened p).toList := by
  cases e with
  | file rights bytes => rfl
  | link target =>
    rw [walk, finding?]
    split <;> rfl
  | directory rights entries => cases h
  | special => rfl

theorem mem_inOrder {p : Path} {entries : List (Bytes × DiskEntry)} {y : Bytes × List Finding} :
    y ∈ inOrder isFile opened excluded p entries ↔
      ∃ x ∈ entries, walkChild isFile opened excluded p x = y := by
  rw [inOrder, List.mem_mergeSort, List.mem_map]

/-- In a tidy directory the entries are taken in strictly rising order of their names. -/
theorem pairwise_inOrder (p : Path) {entries : List (Bytes × DiskEntry)}
    (unique : (entries.map Prod.fst).Nodup) :
    (inOrder isFile opened excluded p entries).Pairwise fun a b =>
      Path.Component.name a.1 < .name b.1 := by
  have hperm := List.mergeSort_perm (entries.map (walkChild isFile opened excluded p)) fun a b =>
    decide (a.1 ≤ b.1)
  have hne : (inOrder isFile opened excluded p entries).Pairwise fun a b => a.1 ≠ b.1 := by
    refine List.pairwise_map.mp ((hperm.map Prod.fst).nodup_iff.mpr ?_)
    rw [List.map_map]
    exact unique
  have hle : (inOrder isFile opened excluded p entries).Pairwise fun a b =>
      a.1 ≤ b.1 := by
    refine (List.pairwise_mergeSort ?_ ?_ _).imp of_decide_eq_true
    · intro a b c hab hbc
      exact decide_eq_true
        (List.le_trans (α := UInt8) (of_decide_eq_true hab) (of_decide_eq_true hbc))
    · intro a b
      have htotal := List.le_total (α := UInt8) a.1 b.1
      exact Bool.or_eq_true_iff.mpr (htotal.imp decide_eq_true decide_eq_true)
  refine (hne.and hle).imp fun {a b} h => ?_
  rw [Path.Component.name_lt_name_iff]
  exact Classical.byContradiction fun hlt => h.1 (List.le_antisymm (α := UInt8) h.2 hlt)

theorem mem_walkChild {p : Path} {x : Bytes × DiskEntry} {f : Finding} :
    f ∈ (walkChild isFile opened excluded p x).2 ↔
      ¬ (x.2.isDirectory = true ∧ x.1 ∈ excluded) ∧
        f ∈ x.2.walk isFile opened excluded (p.child x.1) := by
  unfold walkChild
  by_cases h : x.2.isDirectory = true ∧ x.1 ∈ excluded
  · simp [h]
  · rw [if_neg (by simpa using h)]
    simp [h]

/-- In a directory that is opened a walk comes upon what it comes upon at its entries. -/
theorem mem_walk_directory {p : Path} {rights : Rights} {entries : List (Bytes × DiskEntry)}
    {x : DiskEntry} (hopen : opened p = .ok x) {f : Finding} :
    f ∈ walk isFile opened excluded p (.directory rights entries) ↔
      ∃ x ∈ entries, ¬ (x.2.isDirectory = true ∧ x.1 ∈ excluded) ∧
        f ∈ x.2.walk isFile opened excluded (p.child x.1) := by
  rw [walk_directory, hopen]
  simp only [List.mem_flatMap, mem_inOrder]
  constructor
  · rintro ⟨_, ⟨x, hx, rfl⟩, hf⟩
    exact ⟨x, hx, mem_walkChild.mp hf⟩
  · rintro ⟨x, hx, hf⟩
    exact ⟨_, ⟨x, hx, rfl⟩, mem_walkChild.mpr hf⟩

theorem finds_nil_iff {e : DiskEntry} {p : Path} {f : Finding} :
    e.Finds isFile opened excluded p [] f ↔ e.finding? isFile opened p = some f := by
  constructor
  · rintro ⟨⟨x, hat, hfinding⟩, -, -⟩
    obtain rfl : e = x := by simpa using hat
    exact hfinding
  · intro hfinding
    refine ⟨⟨e, by simp, hfinding⟩, ?_, by simp⟩
    cases f <;> simp [Finding.directories]

theorem finds_iff_of_not_isDirectory {e : DiskEntry} (h : e.isDirectory = false) {p : Path}
    {names : List Bytes} {f : Finding} : e.Finds isFile opened excluded p names f ↔
      names = [] ∧ e.finding? isFile opened p = some f := by
  constructor
  · rintro ⟨⟨x, hat, hfinding⟩, -, -⟩
    obtain ⟨rfl, rfl⟩ := (at?_eq_some_iff_of_not_isDirectory h).mp hat
    exact ⟨rfl, hfinding⟩
  · rintro ⟨rfl, hfinding⟩
    exact finds_nil_iff.mpr hfinding

/-- The first of the names that lead to a finding is that of a directory if there is one. -/
theorem directories_cons {e x : DiskEntry} {p : Path} {f : Finding} {names : List Bytes}
    (hat : e.at? names = some x) (hfinding : x.finding? isFile opened p = some f) (name : Bytes) :
    f.directories (name :: names) =
      if e.isDirectory then name :: f.directories names else f.directories names := by
  cases names with
  | nil =>
    obtain rfl : e = x := by simpa using hat
    cases f with
    | file q =>
      obtain ⟨-, ⟨_, _, rfl⟩ | ⟨⟨_, rfl⟩, -⟩⟩ := finding?_eq_file_iff.mp hfinding
      · rfl
      · rfl
    | unlistable q reason =>
      obtain ⟨-, ⟨_, _, rfl⟩, -⟩ := finding?_eq_unlistable_iff.mp hfinding
      rfl
  | cons n names =>
    obtain ⟨_, _, _, rfl, -⟩ := at?_cons_eq_some_iff.mp hat
    cases f <;> rfl

/-- Below a directory a walk comes upon what it comes upon below one of its entries. -/
theorem finds_cons_iff {rights : Rights} {entries : List (Bytes × DiskEntry)}
    (unique : (entries.map Prod.fst).Nodup) {p : Path} {names : List Bytes} {name : Bytes}
    {f : Finding} : Finds isFile opened excluded p (.directory rights entries) (name :: names) f ↔
      (∃ x, opened p = .ok x) ∧ ∃ e, (name, e) ∈ entries ∧
        ¬ (e.isDirectory = true ∧ name ∈ excluded) ∧
        Finds isFile opened excluded (p.child name) e names f := by
  constructor
  · rintro ⟨⟨x, hat, hfinding⟩, hincluded, hreached⟩
    obtain ⟨_, _, e, ⟨rfl⟩, hfind, hat⟩ := at?_cons_eq_some_iff.mp hat
    rw [directories_cons hat hfinding] at hincluded
    refine ⟨hreached [] List.nil_prefix (by simp), e, (find?_eq_some_iff unique).mp hfind, ?_,
      ⟨x, hat, hfinding⟩, fun n hn => ?_, fun above habove hne => ?_⟩
    · rintro ⟨hdirectory, hexcluded⟩
      rw [if_pos hdirectory] at hincluded
      exact hincluded name (by simp) hexcluded
    · refine hincluded n ?_
      split
      · exact List.mem_cons_of_mem _ hn
      · exact hn
    · exact hreached (name :: above) (List.cons_prefix_cons.mpr ⟨rfl, habove⟩) (by simpa using hne)
  · rintro ⟨hopen, e, he, hentered, ⟨x, hat, hfinding⟩, hincluded, hreached⟩
    refine ⟨⟨x, at?_cons_eq_some_iff.mpr
      ⟨rights, entries, e, rfl, (find?_eq_some_iff unique).mpr he, hat⟩, hfinding⟩, ?_, ?_⟩
    · intro n hn hexcluded
      rw [directories_cons hat hfinding] at hn
      split at hn
      · next hdirectory =>
        rcases List.mem_cons.mp hn with rfl | hn
        · exact hentered ⟨hdirectory, hexcluded⟩
        · exact hincluded n hn hexcluded
      · exact hincluded n hn hexcluded
    · intro above habove hne
      cases above with
      | nil => exact hopen
      | cons m above =>
        obtain ⟨rfl, hrest⟩ := List.cons_prefix_cons.mp habove
        exact hreached above hrest (by simpa using hne)

/-- A walk of a tidy tree comes upon what is to be found and nothing else. -/
theorem mem_walk {e : DiskEntry} (h : e.Tidy) {p : Path} {f : Finding} :
    f ∈ e.walk isFile opened excluded p ↔
      ∃ names, e.Finds isFile opened excluded p names f := by
  have hleaf {e : DiskEntry} (he : e.isDirectory = false) {p : Path} :
      f ∈ e.walk isFile opened excluded p ↔
        ∃ names, e.Finds isFile opened excluded p names f := by
    simp [walk_of_not_isDirectory he, finds_iff_of_not_isDirectory he]
  induction h generalizing p with
  | file rights bytes => exact hleaf rfl
  | link target => exact hleaf rfl
  | special => exact hleaf rfl
  | directory rights entries unique hentries hbelow ih =>
    cases hopen : opened p with
    | error reason =>
      rw [walk_directory, hopen, List.mem_singleton]
      constructor
      · rintro rfl
        exact ⟨[], finds_nil_iff.mpr (by rw [finding?, hopen])⟩
      · rintro ⟨_ | ⟨name, names⟩, hfinds⟩
        · have hfinding := finds_nil_iff.mp hfinds
          rw [finding?, hopen] at hfinding
          exact (Option.some.inj hfinding).symm
        · obtain ⟨⟨x, hx⟩, -⟩ := (finds_cons_iff unique).mp hfinds
          rw [hopen] at hx
          cases hx
    | ok x =>
      rw [mem_walk_directory hopen]
      constructor
      · rintro ⟨⟨name, e⟩, hx, hentered, hf⟩
        obtain ⟨names, hfinds⟩ := (ih _ hx).mp hf
        exact ⟨name :: names, (finds_cons_iff unique).mpr ⟨⟨x, hopen⟩, e, hx, hentered, hfinds⟩⟩
      · rintro ⟨_ | ⟨name, names⟩, hfinds⟩
        · have hfinding := finds_nil_iff.mp hfinds
          rw [finding?, hopen] at hfinding
          cases hfinding
        · obtain ⟨-, e, hx, hentered, hfinds⟩ := (finds_cons_iff unique).mp hfinds
          exact ⟨(name, e), hx, hentered, (ih _ hx).mpr ⟨names, hfinds⟩⟩

/-- The files that a walk of a tidy tree lists are those that it comes upon. -/
theorem mem_files {e : DiskEntry} (h : e.Tidy) {p q : Path} :
    q ∈ e.files isFile opened excluded p ↔
      ∃ names, q = p.below names ∧ e.Finds isFile opened excluded p names (.file q) := by
  have hfile (f : Finding) : f.file? = some q ↔ f = .file q := by
    cases f <;> simp [Finding.file?]
  simp only [files, List.mem_filterMap, hfile, exists_eq_right, mem_walk h]
  refine exists_congr fun names => ⟨fun hfinds => ⟨?_, hfinds⟩, fun hfinds => hfinds.2⟩
  obtain ⟨x, -, hfinding⟩ := hfinds.found
  exact (finding?_eq_file_iff.mp hfinding).1.symm

/-- What a walk of a tidy tree records are the directories that it comes upon and that the system
does not open. -/
theorem mem_events {e : DiskEntry} (h : e.Tidy) {p : Path} {event : Event} :
    event ∈ (e.walk isFile opened excluded p).filterMap Finding.event? ↔ ∃ names reason,
      e.Finds isFile opened excluded p names (.unlistable (p.below names) reason) ∧
        (Finding.unlistable (p.below names) reason).event? = some event := by
  simp only [List.mem_filterMap, mem_walk h]
  constructor
  · rintro ⟨f, ⟨names, hfinds⟩, hevent⟩
    cases f with
    | file q => cases hevent
    | unlistable q reason =>
      obtain ⟨x, -, hfinding⟩ := hfinds.found
      obtain ⟨rfl, -⟩ := finding?_eq_unlistable_iff.mp hfinding
      exact ⟨names, reason, hfinds, hevent⟩
  · rintro ⟨names, reason, hfinds, hevent⟩
    exact ⟨_, ⟨names, hfinds⟩, hevent⟩

theorem exists_of_mem_child {e : DiskEntry} (h : e.Tidy) {p q : Path} {name : Bytes}
    (hname : Path.IsName name) (hq : q ∈ e.files isFile opened excluded (p.child name)) :
    ∃ names, q = p.below (name :: names) ∧ ∀ n ∈ name :: names, Path.IsName n := by
  obtain ⟨names, rfl, ⟨x, hat, -⟩, -, -⟩ := (mem_files h).mp hq
  exact ⟨names, rfl, List.forall_mem_cons.mpr ⟨hname, h.isName hat⟩⟩

theorem filterMap_walkChild (p : Path) (x : Bytes × DiskEntry) :
    (walkChild isFile opened excluded p x).2.filterMap Finding.file? =
      if x.2.isDirectory = true ∧ x.1 ∈ excluded then []
      else x.2.files isFile opened excluded (p.child x.1) := by
  unfold walkChild files
  by_cases h : x.2.isDirectory = true ∧ x.1 ∈ excluded
  · rw [if_pos h, if_pos (by simpa using h)]
    rfl
  · rw [if_neg h, if_neg (by simpa using h)]

/-- A walk of a tidy tree lists in path order and nothing twice. -/
theorem pairwise_files {e : DiskEntry} (h : e.Tidy) {p : Path} (hp : p.bytes ≠ []) :
    (e.files isFile opened excluded p).Pairwise (· < ·) := by
  have hleaf {e : DiskEntry} (he : e.isDirectory = false) (p : Path) :
      (e.files isFile opened excluded p).Pairwise (· < ·) := by
    rw [files, walk_of_not_isDirectory he]
    cases e.finding? isFile opened p with
    | none => exact .nil
    | some f => cases f <;> simp [Finding.file?, List.filterMap]
  induction h generalizing p with
  | file rights bytes => exact hleaf rfl p
  | link target => exact hleaf rfl p
  | special => exact hleaf rfl p
  | directory rights entries unique hentries hbelow ih =>
    rw [files, walk_directory]
    cases opened p with
    | error reason => exact .nil
    | ok _ =>
      simp only [List.filterMap_flatMap]
      refine List.pairwise_flatMap.mpr ⟨fun y hy => ?_, ?_⟩
      · obtain ⟨x, hx, rfl⟩ := mem_inOrder.mp hy
        rw [filterMap_walkChild]
        split
        · exact .nil
        · exact ih x hx (Path.bytes_child_ne_nil hp (hentries x hx).1)
      · refine (pairwise_inOrder _ unique).imp_of_mem fun {a b} ha hb hlt q hq r hr => ?_
        obtain ⟨x, hx, rfl⟩ := mem_inOrder.mp ha
        obtain ⟨y, hy, rfl⟩ := mem_inOrder.mp hb
        rw [filterMap_walkChild] at hq hr
        split at hq
        · cases hq
        · split at hr
          · cases hr
          · obtain ⟨rest, rfl, hleft⟩ := exists_of_mem_child (hbelow x hx) (hentries x hx).1 hq
            obtain ⟨rest', rfl, hright⟩ := exists_of_mem_child (hbelow y hy) (hentries y hy).1 hr
            exact Path.below_lt hp [] hleft hright hlt

end DiskEntry

end ProjectFile
