import ProjectFile.Proofs.Disk.Follow

/-!
Writing a file. The place that the path leads to holds the new content afterwards, and every other
place holds what it held, as long as one does not look at what is below a directory. The same path
then leads to the file: no link and no directory on the way to it has changed.
-/

namespace ProjectFile

namespace DiskEntry

/-- The entry without what is below it. -/
def surface : DiskEntry → DiskEntry
  | .directory rights _ => .directory rights []
  | e => e

theorem surface_of_not_isDirectory {e : DiskEntry} (h : e.isDirectory = false) : e.surface = e := by
  cases e with
  | file rights bytes => rfl
  | link target => rfl
  | directory rights entries => cases h
  | special => rfl

theorem eq_of_surface_eq {e x : DiskEntry} (h : e.surface = x) (hx : x.isDirectory = false) :
    e = x := by
  cases e with
  | file rights bytes => exact h
  | link target => exact h
  | directory rights entries => subst h; cases hx
  | special => exact h

theorem exists_entries_of_surface_eq {e : DiskEntry} {rights : Rights}
    {entries : List (Bytes × DiskEntry)} (h : e.surface = (directory rights entries).surface) :
    ∃ entries', e = .directory rights entries' := by
  cases e with
  | file rights' bytes => cases h
  | link target => cases h
  | directory rights' entries' =>
    obtain ⟨rfl, -⟩ := directory.inj h
    exact ⟨entries', rfl⟩
  | special => cases h

variable {e new : DiskEntry} {above names : List Bytes} {name : Bytes} {rights : Rights}
  {entries : List (Bytes × DiskEntry)}

theorem find?_setName (m : Bytes) (entries : List (Bytes × DiskEntry)) :
    (setName name e entries).find? (fun x => x.1 == m) =
      if m = name then some (name, e) else entries.find? fun x => x.1 == m := by
  induction entries with
  | nil =>
    by_cases hm : m = name
    · simp [setName, hm]
    · simp [setName, hm, Ne.symm hm]
  | cons first rest ih =>
    rw [setName]
    by_cases hfirst : first.1 = name
    · by_cases hm : m = name
      · simp [hfirst, hm]
      · simp [hfirst, hm, Ne.symm hm]
    · rw [if_neg hfirst, List.find?_cons, List.find?_cons, ih]
      by_cases hm : m = name
      · subst hm
        rw [beq_false_of_ne hfirst, if_pos rfl]
      · rw [if_neg hm, if_neg hm]

theorem at?_directory_setName (m : Bytes) :
    at? (.directory rights (setName name e entries)) (m :: names) =
      if m = name then e.at? names else at? (.directory rights entries) (m :: names) := by
  rw [at?, find?_setName]
  split
  · simp
  · rfl

theorem at?_cons_eq_none (h : e.isDirectory = false) : e.at? (name :: names) = none := by
  cases e with
  | file rights bytes => rfl
  | link target => rfl
  | directory rights entries => cases h
  | special => rfl

/-- An entry that is put into a directory in place of nothing or of what is no directory is all that
has changed. -/
theorem at?_put (hnew : new.isDirectory = false)
    (habove : e.at? above = some (.directory rights entries))
    (hold : ∀ x, e.at? (above ++ [name]) = some x → x.isDirectory = false) (names : List Bytes) :
    ((e.put (above ++ [name]) new).at? names).map surface =
      if names = above ++ [name] then some new else (e.at? names).map surface := by
  induction above generalizing e names with
  | nil =>
    obtain rfl : e = .directory rights entries := by simpa using habove
    have hput : DiskEntry.put (.directory rights entries) ([] ++ [name]) new =
        .directory rights (setName name new entries) := by
      rw [List.nil_append, put, put]
    rw [hput, List.nil_append] at *
    cases names with
    | nil => simp [surface]
    | cons m names =>
      rw [at?_directory_setName]
      by_cases hm : m = name
      · subst hm
        cases names with
        | nil => simp [surface_of_not_isDirectory hnew]
        | cons n names =>
          have hnone : at? (.directory rights entries) (m :: n :: names) = none := by
            rw [← List.singleton_append, at?_append, Option.bind_eq_none_iff]
            exact fun x hx => at?_cons_eq_none (hold x hx)
          simp [hnone, at?_cons_eq_none hnew]
      · simp [hm]
  | cons first above ih =>
    obtain ⟨rights', entries', below, rfl, hfind, hat⟩ := at?_cons_eq_some_iff.mp habove
    have hput : DiskEntry.put (.directory rights' entries') (first :: above ++ [name]) new =
        .directory rights' (setName first (below.put (above ++ [name]) new) entries') := by
      rw [List.cons_append, put, hfind]
      rfl
    have hbelow (names : List Bytes) : at? (.directory rights' entries') (first :: names) =
        below.at? names := by
      rw [at?, hfind]
      rfl
    rw [hput]
    cases names with
    | nil => simp [surface]
    | cons m names =>
      rw [at?_directory_setName]
      by_cases hm : m = first
      · subst hm
        rw [if_pos rfl, hbelow, ih hat fun x hx => hold x (by rw [List.cons_append, hbelow, hx])]
        simp
      · simp [hm]

/-- Whether a file with these bytes is at the place and every other place holds what it held. -/
def WrittenAt (before after : DiskEntry) (place : List Bytes) (rights : Rights)
    (bytes : List UInt8) : Prop :=
  ∀ names, (after.at? names).map surface =
    if names = place then some (.file rights bytes) else (before.at? names).map surface

end DiskEntry

def Place.names : Place → List Bytes
  | .taken names _ => names
  | .vacant names => names

/-- Whether following leads on in the same way on another disk, or to the file there if it came to
the place of the file. -/
def Progress.CarriesTo (after : DiskEntry) (place : List Bytes) (rights : Rights)
    (bytes : List UInt8) : Progress → Progress → Prop
  | .done (.ok found), new =>
    found.names = place → new = .done (.ok (.taken place (.file rights bytes)))
  | .done (.error _), _ => True
  | .link way target rest, new => ∃ way', Trail.LeadsFrom after way' ∧ way'.names = way.names ∧
      new = .link way' target rest

namespace Disk

open DiskEntry (WrittenAt)

variable {before after : DiskEntry} {place : List Bytes} {rights : Rights} {bytes : List UInt8}

theorem names_tail (way : Trail) : Trail.names way.tail = way.names.dropLast := by
  cases way with
  | nil => rfl
  | cons x way => simp [Trail.names]

section

variable (h : WrittenAt before after place rights bytes)
  (hold : ∀ x, before.at? place = some x → ∃ rights old, x = .file rights old)
  {way way' : Trail} (hway : way.LeadsFrom before) (hway' : way'.LeadsFrom after)
  (hnames : way'.names = way.names)

include h hway hway' hnames

theorem surface_goal : (way'.goal after).surface =
    if way.names = place then .file rights bytes else (way.goal before).surface := by
  have hat := h way.names
  rw [← hnames, hway'.at?_names, hnames, hway.at?_names] at hat
  split at hat
  · next hplace => rw [if_pos hplace]; exact Option.some.inj hat
  · next hplace => rw [if_neg hplace]; exact Option.some.inj hat

include hold

/-- A way that leads to a directory does so on the other disk, and the directory there holds the
file under the name that leads to its place and what it held under other names. -/
theorem goal_directory {kept : Rights} {entries : List (Bytes × DiskEntry)}
    (hgoal : way.goal before = .directory kept entries) : ∃ entries',
      way'.goal after = .directory kept entries' ∧ ∀ part,
        ((entries'.find? fun x => x.1 == part).map Prod.snd).map DiskEntry.surface =
          if way.names ++ [part] = place then some (.file rights bytes)
          else ((entries.find? fun x => x.1 == part).map Prod.snd).map DiskEntry.surface := by
  have hat := hway.at?_names
  have hat' := hway'.at?_names
  rw [hgoal] at hat
  have hplace : way.names ≠ place := by
    rintro rfl
    obtain ⟨_, old, he⟩ := hold _ hat
    cases he
  have hsurface := surface_goal h hway hway' hnames
  rw [if_neg hplace, hgoal] at hsurface
  obtain ⟨entries', hgoal'⟩ := DiskEntry.exists_entries_of_surface_eq hsurface
  rw [hgoal', hnames] at hat'
  refine ⟨entries', hgoal', fun part => ?_⟩
  rw [← at?_concat hat', ← at?_concat hat]
  exact h (way.names ++ [part])

variable {kept : Rights} {entries : List (Bytes × DiskEntry)}
  (hgoal : way.goal before = .directory kept entries) {part : Bytes}

include hgoal

/-- The file is found under the last name of its place. -/
theorem goal_holds_file (hplace : way.names ++ [part] = place) : ∃ entries',
    way'.goal after = .directory kept entries' ∧
      (entries'.find? fun x => x.1 == part).map Prod.snd = some (.file rights bytes) := by
  obtain ⟨entries', hgoal', hfind'⟩ := goal_directory h hold hway hway' hnames hgoal
  specialize hfind' part
  rw [if_pos hplace] at hfind'
  obtain ⟨e', he', hsurface⟩ := Option.map_eq_some_iff.mp hfind'
  obtain rfl := DiskEntry.eq_of_surface_eq hsurface rfl
  exact ⟨entries', hgoal', he'⟩

/-- A link stays as it is, since no file has come to its place. -/
theorem goal_holds_link {target : Path}
    (hfind : (entries.find? fun x => x.1 == part).map Prod.snd = some (.link target)) : ∃ entries',
    way'.goal after = .directory kept entries' ∧
      (entries'.find? fun x => x.1 == part).map Prod.snd = some (.link target) := by
  obtain ⟨entries', hgoal', hfind'⟩ := goal_directory h hold hway hway' hnames hgoal
  have hplace : way.names ++ [part] ≠ place := by
    rintro rfl
    have hat := hway.at?_names
    rw [hgoal] at hat
    obtain ⟨_, old, he⟩ := hold _ ((at?_concat hat part).trans hfind)
    cases he
  specialize hfind' part
  rw [if_neg hplace, hfind, Option.map_some, Option.map_eq_some_iff] at hfind'
  obtain ⟨e, he, hsurface⟩ := hfind'
  obtain rfl := DiskEntry.eq_of_surface_eq hsurface rfl
  exact ⟨entries', hgoal', he⟩

/-- No link takes the place of what is none. -/
theorem goal_holds_no_link {e : DiskEntry}
    (hfind : (entries.find? fun x => x.1 == part).map Prod.snd = some e)
    (hlink : ∀ target, e ≠ .link target) : ∃ entries' e',
    way'.goal after = .directory kept entries' ∧
      (entries'.find? fun x => x.1 == part).map Prod.snd = some e' ∧
      ∀ target, e' ≠ .link target := by
  by_cases hplace : way.names ++ [part] = place
  · obtain ⟨entries', hgoal', hfile⟩ := goal_holds_file h hold hway hway' hnames hgoal hplace
    exact ⟨entries', _, hgoal', hfile, by simp⟩
  · obtain ⟨entries', hgoal', hfind'⟩ := goal_directory h hold hway hway' hnames hgoal
    specialize hfind' part
    rw [if_neg hplace, hfind, Option.map_some, Option.map_eq_some_iff] at hfind'
    obtain ⟨e', he', hsurface⟩ := hfind'
    refine ⟨entries', e', hgoal', he', ?_⟩
    rintro target rfl
    exact hlink target (DiskEntry.eq_of_surface_eq hsurface.symm rfl)

end

/-- A path to a place where a file has come to be leads to the file. -/
theorem carriesTo_follow (h : WrittenAt before after place rights bytes)
    (hold : ∀ x, before.at? place = some x → ∃ rights old, x = .file rights old) {way way' : Trail}
    (hway : way.LeadsFrom before) (hway' : way'.LeadsFrom after) (hnames : way'.names = way.names)
    (parts : List Bytes) : (follow before .write way parts).CarriesTo after place rights bytes
      (follow after .follow way' parts) := by
  revert way'
  fun_induction follow before .write way parts with
  | case1 way =>
    intro way' hway' hnames hplace
    have hsurface := surface_goal h hway hway' hnames
    obtain rfl : way.names = place := hplace
    rw [if_pos rfl] at hsurface
    rw [follow, DiskEntry.eq_of_surface_eq hsurface rfl, hnames]
  | case2 way part rest kept entries hgoal hempty ih =>
    intro way' hway' hnames
    obtain ⟨entries', hgoal', -⟩ := goal_directory h hold hway hway' hnames hgoal
    obtain rfl := List.isEmpty_iff.mp hempty
    rw [follow_empty hgoal']
    exact ih hway hway' hnames
  | case3 => intros; trivial
  | case4 way rest kept entries hgoal henter hempty ih =>
    intro way' hway' hnames
    obtain ⟨entries', hgoal', -⟩ := goal_directory h hold hway hway' hnames hgoal
    rw [follow_current hgoal' henter]
    exact ih hway hway' hnames
  | case5 way rest kept entries hgoal henter hempty hcurrent ih =>
    intro way' hway' hnames
    obtain ⟨entries', hgoal', -⟩ := goal_directory h hold hway hway' hnames hgoal
    rw [follow_parent hgoal' henter]
    exact ih hway.tail hway'.tail (by rw [names_tail, names_tail, hnames])
  | case6 => intros; trivial
  | case7 => intros; trivial
  | case8 way part rest kept entries hgoal hempty henter hcurrent hparent isLast hwrite hlength
      target hfind hkeep =>
    simp at hkeep
  | case9 way part rest kept entries hgoal hempty henter hcurrent hparent isLast hwrite hlength
      target hfind hkeep =>
    intro way' hway' hnames
    obtain ⟨entries', hgoal', he'⟩ := goal_holds_link h hold hway hway' hnames hgoal hfind
    exact ⟨way', hway', hnames, follow_link hgoal' henter hempty hcurrent hparent hlength rest he'⟩
  | case10 way part rest kept entries hgoal hempty henter hcurrent hparent isLast hwrite hlength
      e hlink hfind ih =>
    intro way' hway' hnames
    obtain ⟨entries', e', hgoal', he', hlink'⟩ :=
      goal_holds_no_link h hold hway hway' hnames hgoal hfind hlink
    rw [follow_down hgoal' henter hempty hcurrent hparent hlength rest he' hlink']
    exact ih (.step hway hgoal (exists_of_map_find? hfind))
      (.step hway' hgoal' (exists_of_map_find? he'))
      (by rw [Trail.names_cons, Trail.names_cons, hnames])
  | case11 => intros; trivial
  | case12 way part rest kept entries hgoal hempty henter hcurrent hparent isLast hwrite hlength
      hfind hlast hfree =>
    intro way' hway' hnames hplace
    obtain rfl : way.names ++ [part] = place := hplace
    obtain ⟨entries', hgoal', he'⟩ := goal_holds_file h hold hway hway' hnames hgoal rfl
    -- A name with separators after it has been refused.
    have hlast : isLast = true := by simpa using hlast
    obtain rfl : rest = [] := by simpa [hlast] using hwrite
    rw [follow_down hgoal' henter hempty hcurrent hparent hlength [] he' (by simp), follow,
      Trail.names_cons, hnames]
    rfl
  | case13 => intros; trivial
  | case14 => intros; trivial

theorem followLinks_eq_taken (h : WrittenAt before after place rights bytes)
    (hold : ∀ x, before.at? place = some x → ∃ rights old, x = .file rights old) {n : Nat}
    {way way' : Trail}
    (hway : way.LeadsFrom before) (hway' : way'.LeadsFrom after) (hnames : way'.names = way.names)
    {parts : List Bytes} {found : Place}
    (hfound : followLinks before .write n way parts = .ok found) (hplace : found.names = place) :
    followLinks after .follow n way' parts = .ok (.taken place (.file rights bytes)) := by
  fun_induction followLinks before .write n way parts generalizing way' with
  | case1 n way parts result hdone =>
    have hcarries := carriesTo_follow h hold hway hway' hnames parts
    rw [hdone, hfound] at hcarries
    rw [followLinks, hcarries hplace]
  | case2 => cases hfound
  | case3 way parts next target rest hlink n ih =>
    have hcarries := carriesTo_follow h hold hway hway' hnames parts
    have hon := isOn_follow hway .write parts
    rw [hlink] at hcarries hon
    obtain ⟨next', hnext', hnextNames, hlink'⟩ := hcarries
    rw [followLinks, hlink']
    refine ih ?_ ?_ ?_ hfound
    · split
      · exact .start
      · exact hon
    · split
      · exact .start
      · exact hnext'
    · split
      · rfl
      · exact hnextNames

/-- A way down over names is there on the other disk as well. -/
theorem exists_down? (h : WrittenAt before after place rights bytes)
    (hold : ∀ x, before.at? place = some x → ∃ rights old, x = .file rights old)
    {way way' : Trail} (hway : way.LeadsFrom before) (hway' : way'.LeadsFrom after)
    (hnames : way'.names = way.names) {names : List Bytes} {next : Trail}
    (hdown : way.down? before names = some next) : ∃ next',
      way'.down? after names = some next' ∧ next'.LeadsFrom after ∧ next'.names = next.names := by
  fun_induction Trail.down? before way names generalizing way' with
  | case1 way =>
    obtain rfl := Option.some.inj hdown
    exact ⟨way', rfl, hway', hnames⟩
  | case2 way name names kept entries hgoal e hfind ih =>
    obtain ⟨entries', hgoal', hfind'⟩ := goal_directory h hold hway hway' hnames hgoal
    specialize hfind' name
    obtain ⟨e', he'⟩ : ∃ e', (entries'.find? fun x => x.1 == name).map Prod.snd = some e' := by
      rw [hfind] at hfind'
      split at hfind'
      · obtain ⟨e', he', -⟩ := Option.map_eq_some_iff.mp hfind'
        exact ⟨e', he'⟩
      · obtain ⟨e', he', -⟩ := Option.map_eq_some_iff.mp hfind'
        exact ⟨e', he'⟩
    have hnext' : Trail.LeadsFrom after ((name, e') :: way') :=
      .step hway' hgoal' (exists_of_map_find? he')
    obtain ⟨next', hdown', hrest⟩ := ih (.step hway hgoal (exists_of_map_find? hfind)) hnext'
      (by rw [Trail.names_cons, Trail.names_cons, hnames]) hdown
    refine ⟨next', ?_, hrest⟩
    rw [Trail.down?, hgoal']
    simp only [he', hdown']
  | case3 => cases hdown
  | case4 => cases hdown

/-- A path starts from the same directory on the other disk. -/
theorem exists_start {d d' : Disk} (h : WrittenAt d.root d'.root place rights bytes)
    (hold : ∀ x, d.root.at? place = some x → ∃ rights old, x = .file rights old)
    (hbase : d'.base = d.base) {p : Path} {way : Trail} (hstart : d.start p = .ok way) :
    ∃ way', d'.start p = .ok way' ∧ way'.LeadsFrom d'.root ∧ way'.names = way.names := by
  unfold start at hstart ⊢
  rw [hbase]
  split at hstart
  · next habsolute =>
    cases hstart
    exact ⟨[], if_pos habsolute, .start, rfl⟩
  · next habsolute =>
    split at hstart
    · next hdown =>
      cases hstart
      obtain ⟨way', hdown', hway'⟩ := exists_down? h hold .start .start rfl hdown
      exact ⟨way', by rw [if_neg habsolute, hdown'], hway'⟩
    · cases hstart

/-- Whether a file with the rights can come to be at the place: one is there already, or nothing is
there in a directory. -/
def IsFree (root : DiskEntry) (place : List Bytes) (rights : Rights) : Prop :=
  (∃ old, root.at? place = some (.file rights old)) ∨
    ∃ above name kept entries, place = above ++ [name] ∧
      root.at? above = some (.directory kept entries) ∧ root.at? place = none

theorem writtenAt_put {root : DiskEntry} (h : IsFree root place rights) (bytes : List UInt8) :
    WrittenAt root (root.put place (.file rights bytes)) place rights bytes := by
  rcases h with ⟨old, hold⟩ | ⟨above, name, kept, entries, rfl, habove, hnone⟩
  · rcases List.eq_nil_or_concat place with rfl | ⟨above, name, rfl⟩
    · obtain rfl : root = .file rights old := by simpa using hold
      intro names
      cases names with
      | nil => rfl
      | cons name names => rfl
    · rw [List.concat_eq_append] at hold ⊢
      obtain ⟨kept, entries, habove⟩ := DiskEntry.exists_directory_of_at? (by simp) hold
      refine DiskEntry.at?_put rfl habove fun x hx => ?_
      obtain rfl : .file rights old = x := Option.some.inj (hold.symm.trans hx)
      rfl
  · exact DiskEntry.at?_put rfl habove fun x hx => by simp [hnone] at hx

theorem IsFree.eq_file {root x : DiskEntry} (h : IsFree root place rights)
    (hx : root.at? place = some x) : ∃ rights old, x = .file rights old := by
  rcases h with ⟨old, hold⟩ | ⟨_, _, _, _, -, -, hnone⟩
  · exact ⟨rights, old, Option.some.inj (hx.symm.trans hold)⟩
  · simp [hnone] at hx

/-- What is written is put at the place that the path leads to. -/
theorem exists_place_of_write {d d' : Disk} {p : Path} (h : d.write p bytes = .ok d') :
    ∃ found rights, d.place .write p = .ok found ∧ IsFree d.root found.names rights ∧
      d'.root = d.root.put found.names (.file rights bytes) ∧ d'.base = d.base := by
  unfold write at h
  split at h
  · next names rights old hfound =>
    split at h
    · cases h
      exact ⟨_, rights, hfound, .inl ⟨old, isOn_place hfound⟩, rfl, rfl⟩
    · cases h
  · cases h
  · cases h
  · next names hfound =>
    cases h
    exact ⟨_, .all, hfound, .inr (isOn_place hfound), rfl, rfl⟩
  · cases h

/-- A written file is all that has changed on the disk, and its path leads to it. -/
theorem resolve_write {d d' : Disk} {p : Path} (h : d.write p bytes = .ok d') :
    ∃ place rights, d'.resolve p = .ok (place, .file rights bytes) ∧
      WrittenAt d.root d'.root place rights bytes ∧ d'.base = d.base := by
  obtain ⟨found, rights, hfound, hfree, hroot, hbase⟩ := exists_place_of_write h
  have hput : WrittenAt d.root d'.root found.names rights bytes :=
    hroot ▸ writtenAt_put hfree bytes
  have hold (x : DiskEntry) := hfree.eq_file (x := x)
  refine ⟨found.names, rights, ?_, hput, hbase⟩
  unfold Disk.place at hfound
  unfold resolve Disk.place
  split at hfound
  · split at hfound
    · next way hstart =>
      obtain ⟨way', hstart', hway', hnames⟩ := exists_start hput hold hbase hstart
      rw [hstart']
      dsimp only
      rw [followLinks_eq_taken hput hold (leadsFrom_of_start hstart) hway' hnames hfound rfl]
    · cases hfound
  · cases hfound

end Disk

end ProjectFile
