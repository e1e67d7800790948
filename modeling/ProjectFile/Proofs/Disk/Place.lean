import ProjectFile.Proofs.Path.Names
import ProjectFile.Storage.Disk

/-!
Places on a disk by the names that lead there. A tidy disk holds under each name at most one entry,
and every name is one that a path can have. Names that meet no link then lead from where a way leads
to the entry with just these names if the program may enter each directory on the way, and are
refused if not.
-/

namespace ProjectFile

namespace DiskEntry

/-- The entry at the given names below, no link being followed. -/
def at? : DiskEntry → List Bytes → Option DiskEntry
  | e, [] => some e
  | .directory _ entries, name :: names =>
    ((entries.find? fun e => e.1 == name).map Prod.snd).bind fun e => e.at? names
  | _, _ :: _ => none

/-- Whether a directory can hold something under the name. -/
def IsName (t : Bytes) : Prop := Path.IsName t ∧ t.length ≤ Disk.maxName

instance (t : Bytes) : Decidable (IsName t) := inferInstanceAs (Decidable (_ ∧ _))

/-- Directories hold what they can, and nothing twice. -/
inductive Tidy : DiskEntry → Prop
  | file (rights : Rights) (bytes : List UInt8) : Tidy (.file rights bytes)
  | link (target : Path) : Tidy (.link target)
  | directory (rights : Rights) (entries : List (Bytes × DiskEntry))
      (unique : (entries.map Prod.fst).Nodup)
      (names : ∀ x ∈ entries, IsName x.1)
      (below : ∀ x ∈ entries, Tidy x.2) : Tidy (.directory rights entries)
  | special : Tidy .special

theorem tidy_directory_iff {rights : Rights} {entries : List (Bytes × DiskEntry)} :
    (directory rights entries).Tidy ↔ (entries.map Prod.fst).Nodup ∧
      (∀ x ∈ entries, IsName x.1) ∧ ∀ x ∈ entries, x.2.Tidy := by
  constructor
  · rintro (_ | _ | ⟨_, _, unique, names, below⟩)
    exact ⟨unique, names, below⟩
  · rintro ⟨unique, names, below⟩
    exact .directory rights entries unique names below

theorem exists_entries {e : DiskEntry} (h : e.isDirectory = true) :
    ∃ rights entries, e = .directory rights entries := by
  cases e with
  | file rights bytes => cases h
  | link target => cases h
  | directory rights entries => exact ⟨rights, entries, rfl⟩
  | special => cases h

@[simp] theorem at?_nil (e : DiskEntry) : e.at? [] = some e := by
  cases e <;> rfl

theorem at?_cons_eq_some_iff {e x : DiskEntry} {name : Bytes} {names : List Bytes} :
    e.at? (name :: names) = some x ↔ ∃ rights entries below, e = .directory rights entries ∧
      (entries.find? fun e => e.1 == name) = some (name, below) ∧ below.at? names = some x := by
  cases e with
  | file rights bytes => simp [at?]
  | link target => simp [at?]
  | special => simp [at?]
  | directory rights entries =>
    simp only [at?, Option.bind_eq_some_iff, Option.map_eq_some_iff]
    constructor
    · rintro ⟨below, ⟨⟨found, _⟩, hfind, rfl⟩, hat⟩
      obtain rfl : found = name := by simpa using List.find?_some hfind
      exact ⟨rights, entries, _, rfl, hfind, hat⟩
    · rintro ⟨_, _, below, ⟨rfl⟩, hfind, hat⟩
      exact ⟨below, ⟨_, hfind, rfl⟩, hat⟩

theorem at?_eq_some_iff_of_not_isDirectory {e x : DiskEntry} (h : e.isDirectory = false)
    {names : List Bytes} : e.at? names = some x ↔ names = [] ∧ e = x := by
  cases names with
  | nil => simp
  | cons name names =>
    refine ⟨fun hat => ?_, by simp⟩
    obtain ⟨rights, entries, -, rfl, -⟩ := at?_cons_eq_some_iff.mp hat
    cases h

theorem find?_eq_some_iff {entries : List (Bytes × DiskEntry)}
    (h : (entries.map Prod.fst).Nodup) {name : Bytes} {e : DiskEntry} :
    (entries.find? fun e => e.1 == name) = some (name, e) ↔ (name, e) ∈ entries := by
  refine ⟨List.mem_of_find?_eq_some, fun hmem => ?_⟩
  induction entries with
  | nil => cases hmem
  | cons first rest ih =>
    obtain ⟨hfirst, hrest⟩ := List.nodup_cons.mp h
    rcases List.mem_cons.mp hmem with rfl | hmem
    · simp
    · have hne : first.1 ≠ name := fun he => hfirst (List.mem_map.mpr ⟨_, hmem, he.symm⟩)
      simp [hne, ih hrest hmem]

/-- What is in a tidy tree is tidy, and the names that lead there can be held. -/
theorem Tidy.at? {e x : DiskEntry} (h : e.Tidy) {names : List Bytes} (hat : e.at? names = some x) :
    x.Tidy ∧ ∀ n ∈ names, IsName n := by
  induction names generalizing e with
  | nil =>
    obtain rfl : e = x := by simpa using hat
    exact ⟨h, by simp⟩
  | cons name names ih =>
    obtain ⟨rights, entries, below, rfl, hfind, hat⟩ := at?_cons_eq_some_iff.mp hat
    cases h with
    | directory _ _ unique hnames hbelow =>
      have hmem := (find?_eq_some_iff unique).mp hfind
      obtain ⟨hx, hrest⟩ := ih (hbelow _ hmem) hat
      refine ⟨hx, fun n hn => ?_⟩
      rcases List.mem_cons.mp hn with rfl | hn
      · exact hnames _ hmem
      · exact hrest n hn

theorem Tidy.isName {e x : DiskEntry} (h : e.Tidy) {names : List Bytes}
    (hat : e.at? names = some x) (n : Bytes) (hn : n ∈ names) : Path.IsName n :=
  ((h.at? hat).2 n hn).1

theorem at?_append (e : DiskEntry) (names rest : List Bytes) :
    e.at? (names ++ rest) = (e.at? names).bind fun x => x.at? rest := by
  induction names generalizing e with
  | nil => simp
  | cons name names ih =>
    cases e with
    | file rights bytes => rfl
    | link target => rfl
    | special => rfl
    | directory rights entries =>
      rw [List.cons_append, at?, at?]
      cases (entries.find? fun e => e.1 == name).map Prod.snd with
      | none => rfl
      | some below => exact ih below

theorem exists_directory_of_at? {e x : DiskEntry} {above rest : List Bytes} (hrest : rest ≠ [])
    (h : e.at? (above ++ rest) = some x) :
    ∃ rights entries, e.at? above = some (.directory rights entries) := by
  rw [at?_append, Option.bind_eq_some_iff] at h
  obtain ⟨y, habove, hbelow⟩ := h
  obtain ⟨name, rest, rfl⟩ := List.exists_cons_of_ne_nil hrest
  obtain ⟨rights, entries, -, rfl, -⟩ := at?_cons_eq_some_iff.mp hbelow
  exact ⟨rights, entries, habove⟩

/-- Whether the program may enter the directories above what is at the names. -/
def Enterable (e : DiskEntry) (names : List Bytes) : Prop :=
  ∀ above rest rights entries, names = above ++ rest → rest ≠ [] →
    e.at? above = some (.directory rights entries) → rights.enter = true

theorem enterable_nil (e : DiskEntry) : e.Enterable [] := by
  intro above rest rights entries h hrest
  exact absurd (List.append_eq_nil_iff.mp h.symm).2 hrest

theorem enterable_cons_iff {rights : Rights} {entries : List (Bytes × DiskEntry)} {name : Bytes}
    {below : DiskEntry} (hfind : (entries.find? fun e => e.1 == name) = some (name, below))
    {names : List Bytes} : (directory rights entries).Enterable (name :: names) ↔
      rights.enter = true ∧ below.Enterable names := by
  have hat (above : List Bytes) : at? (.directory rights entries) (name :: above) =
      below.at? above := by
    rw [at?, hfind]
    rfl
  constructor
  · intro h
    refine ⟨h [] (name :: names) rights entries rfl (by simp) (by simp), ?_⟩
    rintro above rest rights' entries' rfl hrest habove
    exact h (name :: above) rest rights' entries' rfl hrest ((hat above).trans habove)
  · rintro ⟨henter, hbelow⟩ (_ | ⟨first, above⟩) rest rights' entries' hnames hrest habove
    · rw [at?_nil, Option.some.injEq, directory.injEq] at habove
      exact habove.1 ▸ henter
    · obtain ⟨rfl, rfl⟩ := List.cons.inj hnames
      exact hbelow above rest rights' entries' rfl hrest ((hat above).symm.trans habove)

mutual

/-- Every entry of a tree, with the names that lead there after those `above` it. -/
def places (above : List Bytes) : DiskEntry → List (List Bytes × DiskEntry)
  | .file rights bytes => [(above, .file rights bytes)]
  | .link target => [(above, .link target)]
  | .directory rights entries => (above, .directory rights entries) :: placesEach above entries
  | .special => [(above, .special)]
termination_by structural e => e

def placesEach (above : List Bytes) : List (Bytes × DiskEntry) → List (List Bytes × DiskEntry)
  | [] => []
  | (name, e) :: rest => e.places (above ++ [name]) ++ placesEach above rest
termination_by structural entries => entries

end

theorem mem_placesEach {above : List Bytes} {entries : List (Bytes × DiskEntry)}
    {y : List Bytes × DiskEntry} :
    y ∈ placesEach above entries ↔ ∃ x ∈ entries, y ∈ x.2.places (above ++ [x.1]) := by
  induction entries with
  | nil => simp [placesEach]
  | cons x rest ih => rw [placesEach, List.mem_append, ih]; simp

theorem mem_singleton_place_iff {e x : DiskEntry} (h : e.isDirectory = false)
    {above names : List Bytes} : (names, x) ∈ [(above, e)] ↔
      ∃ below, names = above ++ below ∧ e.at? below = some x := by
  simp only [at?_eq_some_iff_of_not_isDirectory h, List.mem_singleton, Prod.mk.injEq]
  constructor
  · rintro ⟨rfl, rfl⟩
    exact ⟨[], by simp, rfl, rfl⟩
  · rintro ⟨_, rfl, rfl, rfl⟩
    exact ⟨by simp, rfl⟩

/-- The entries of a tidy tree are what is at the names that lead there. -/
theorem mem_places {e x : DiskEntry} (h : e.Tidy) {above names : List Bytes} :
    (names, x) ∈ e.places above ↔ ∃ below, names = above ++ below ∧ e.at? below = some x := by
  induction h generalizing above with
  | file rights bytes => rw [places, mem_singleton_place_iff rfl]
  | link target => rw [places, mem_singleton_place_iff rfl]
  | special => rw [places, mem_singleton_place_iff rfl]
  | directory rights entries unique hentries hbelow ih =>
    rw [places, List.mem_cons, Prod.mk.injEq, mem_placesEach]
    constructor
    · rintro (⟨rfl, rfl⟩ | ⟨⟨name, e⟩, hx, hy⟩)
      · exact ⟨[], by simp, by simp⟩
      · obtain ⟨below, rfl, hat⟩ := (ih _ hx).mp hy
        exact ⟨name :: below, by simp,
          at?_cons_eq_some_iff.mpr
            ⟨rights, entries, e, rfl, (find?_eq_some_iff unique).mpr hx, hat⟩⟩
    · rintro ⟨_ | ⟨name, below⟩, rfl, hat⟩
      · obtain rfl : .directory rights entries = x := by simpa using hat
        exact .inl ⟨by simp, rfl⟩
      · obtain ⟨_, _, e, ⟨rfl⟩, hfind, hat⟩ := at?_cons_eq_some_iff.mp hat
        have hx := (find?_eq_some_iff unique).mp hfind
        exact .inr ⟨_, hx, (ih _ hx).mpr ⟨below, by simp, hat⟩⟩

/-- An entry in directories with the names, one in the other, that hold nothing else. -/
def nested (names : List Bytes) (e : DiskEntry) : DiskEntry :=
  names.foldr (fun name e => .directory .all [(name, e)]) e

theorem at?_nested (names : List Bytes) (e : DiskEntry) : (nested names e).at? names = some e := by
  induction names with
  | nil => exact at?_nil e
  | cons name names ih => simpa [nested, at?] using ih

theorem at?_nested_cons_of_ne {name other : Bytes} (h : other ≠ name) (names others : List Bytes)
    (e : DiskEntry) : (nested (name :: names) e).at? (other :: others) = none := by
  simp [nested, at?, h.symm]

theorem Tidy.nested {e : DiskEntry} (h : e.Tidy) {names : List Bytes}
    (hnames : ∀ n ∈ names, IsName n) : (nested names e).Tidy := by
  induction names with
  | nil => exact h
  | cons name names ih =>
    obtain ⟨hname, hnames⟩ := List.forall_mem_cons.mp hnames
    exact .directory _ _ (by simp) (List.forall_mem_singleton.mpr hname)
      (List.forall_mem_singleton.mpr (ih hnames))

end DiskEntry

namespace Disk

open DiskEntry (IsName)

/-! What following does with one part, in a directory -/

section

variable {root : DiskEntry} {ending : Ending} {way : Trail} {part : Bytes} {rights : Rights}
  {entries : List (Bytes × DiskEntry)} (hgoal : way.goal root = .directory rights entries)

include hgoal

theorem follow_empty (rest : List Bytes) :
    follow root ending way ([] :: rest) = follow root ending way rest := by
  rw [follow, hgoal]
  rfl

theorem follow_closed (hempty : ¬ part.isEmpty = true) (hclosed : (!rights.enter) = true)
    (rest : List Bytes) : follow root ending way (part :: rest) = .done (.error .denied) := by
  rw [follow, hgoal]
  dsimp only
  rw [if_neg hempty, if_pos hclosed]

variable (henter : ¬ (!rights.enter) = true)

include henter

theorem follow_current (rest : List Bytes) :
    follow root ending way ([Path.dot] :: rest) = follow root ending way rest := by
  rw [follow, hgoal]
  dsimp only
  rw [if_neg (by decide), if_neg henter, if_pos rfl]

theorem follow_parent (rest : List Bytes) :
    follow root ending way ([Path.dot, Path.dot] :: rest) = follow root ending way.tail rest := by
  rw [follow, hgoal]
  dsimp only
  rw [if_neg (by decide), if_neg henter, if_neg (by decide), if_pos rfl]

variable (hempty : ¬ part.isEmpty = true) (hcurrent : ¬ part = [Path.dot])
  (hparent : ¬ part = [Path.dot, Path.dot])

include hempty hcurrent hparent

/-- A name in a directory that the program may enter is looked up there. -/
theorem follow_name (rest : List Bytes) : follow root .follow way (part :: rest) =
    if maxName < part.length then .done (.error .nameTooLong)
    else
      match (entries.find? fun e => e.1 == part).map Prod.snd with
      | some (.link target) => .link way target rest
      | some e => follow root .follow ((part, e) :: way) rest
      | none =>
        if !rest.all List.isEmpty then .done (.error .notFound)
        else .done (.ok (.vacant (way.names ++ [part]))) := by
  rw [follow, hgoal]
  dsimp only
  rw [if_neg hempty, if_neg henter, if_neg hcurrent, if_neg hparent]
  rfl

variable (hlength : ¬ maxName < part.length)

include hlength

theorem follow_down {e : DiskEntry} (rest : List Bytes)
    (hfind : (entries.find? fun x => x.1 == part).map Prod.snd = some e)
    (hlink : ∀ target, e ≠ .link target) :
    follow root .follow way (part :: rest) = follow root .follow ((part, e) :: way) rest := by
  rw [follow_name hgoal henter hempty hcurrent hparent, if_neg hlength, hfind]
  cases e with
  | file rights bytes => rfl
  | link target => exact absurd rfl (hlink target)
  | directory rights entries => rfl
  | special => rfl

theorem follow_link {target : Path} (rest : List Bytes)
    (hfind : (entries.find? fun x => x.1 == part).map Prod.snd = some (.link target)) :
    follow root .follow way (part :: rest) = .link way target rest := by
  rw [follow_name hgoal henter hempty hcurrent hparent, if_neg hlength, hfind]

end

/-- From where a way leads, names that meet no link lead to the entry below at these names, unless
there is a directory on the way that the program may not enter. -/
theorem follow_names {root x : DiskEntry} (hx : ∀ target, x ≠ .link target) {names : List Bytes}
    (hnames : ∀ n ∈ names, IsName n) {way : Trail} (hat : (way.goal root).at? names = some x) :
    ((way.goal root).Enterable names → follow root .follow way names =
      .done (.ok (.taken (way.names ++ names) x))) ∧
    (¬ (way.goal root).Enterable names → follow root .follow way names =
      .done (.error .denied)) := by
  induction names generalizing way with
  | nil =>
    obtain rfl : way.goal root = x := by simpa using hat
    exact ⟨fun _ => by simp [follow], fun h => absurd (DiskEntry.enterable_nil _) h⟩
  | cons name names ih =>
    obtain ⟨rights, entries, below, hgoal, hfind, hat⟩ := DiskEntry.at?_cons_eq_some_iff.mp hat
    obtain ⟨⟨hempty, hcurrent, hparent, -⟩, hlength⟩ := hnames name (by simp)
    have hlink (target : Path) : below ≠ .link target := by
      rintro rfl
      cases names with
      | nil => exact hx target (by simpa using hat.symm)
      | cons n names => simp [DiskEntry.at?] at hat
    have hbelow : (Trail.goal root ((name, below) :: way)).at? names = some x := hat
    have hnext := ih (fun n hn => hnames n (by simp [hn])) hbelow
    have hway : Trail.names ((name, below) :: way) ++ names = way.names ++ name :: names := by
      simp [Trail.names]
    rw [hway] at hnext
    have hsome : ¬ List.isEmpty name = true := by simpa using hempty
    rw [hgoal, DiskEntry.enterable_cons_iff hfind]
    cases henter : rights.enter with
    | false =>
      exact ⟨fun h => absurd h.1 (by simp), fun _ => follow_closed hgoal hsome (by simp [henter]) _⟩
    | true =>
      rw [follow_down hgoal (by simp [henter]) hsome hcurrent hparent (Nat.not_lt.mpr hlength) names
        (by rw [hfind, Option.map_some]) hlink]
      exact ⟨fun h => hnext.1 h.2, fun h => hnext.2 fun hbelow => h ⟨rfl, hbelow⟩⟩

end Disk

end ProjectFile
