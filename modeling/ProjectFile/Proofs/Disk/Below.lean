import ProjectFile.Proofs.Disk.Follow
import ProjectFile.Proofs.Path.Below

/-!
Paths below a directory on a disk. A path with more names after it is followed from where the path
itself leads. So what a directory holds is reached by the path of the directory and its own names,
and the system opens a directory further down if it takes the path, and the program may enter the
directories on the way and read this one.
-/

namespace ProjectFile

namespace Disk

variable {root : DiskEntry}

/-- What the first part of a path does: it leads on to where the rest is followed from, or to a
link, or nowhere. -/
theorem follow_cons_cases {way : Trail} (hway : way.LeadsFrom root) (part : Bytes) :
    (∃ next, next.LeadsFrom root ∧
      ∀ rest, follow root .follow way (part :: rest) = follow root .follow next rest) ∨
    (∃ target, ∀ rest, follow root .follow way (part :: rest) = .link way target rest) ∨
    ∀ rest, ∃ result, follow root .follow way (part :: rest) = .done result ∧
      ∀ names e, result ≠ .ok (.taken names e) := by
  by_cases hdirectory : (way.goal root).isDirectory = true
  · obtain ⟨rights, entries, hgoal⟩ := DiskEntry.exists_entries hdirectory
    by_cases hempty : part.isEmpty = true
    · obtain rfl := List.isEmpty_iff.mp hempty
      exact .inl ⟨way, hway, follow_empty hgoal⟩
    by_cases henter : (!rights.enter) = true
    · exact .inr (.inr fun rest => ⟨_, follow_closed hgoal hempty henter rest, by simp⟩)
    by_cases hcurrent : part = [Path.dot]
    · subst hcurrent
      exact .inl ⟨way, hway, follow_current hgoal henter⟩
    by_cases hparent : part = [Path.dot, Path.dot]
    · subst hparent
      exact .inl ⟨way.tail, hway.tail, follow_parent hgoal henter⟩
    have hname := follow_name hgoal henter hempty hcurrent hparent
    by_cases hlength : maxName < part.length
    · exact .inr (.inr fun rest => ⟨_, (hname rest).trans (if_pos hlength), by simp⟩)
    simp only [if_neg hlength] at hname
    cases hfind : (entries.find? fun e => e.1 == part).map Prod.snd with
    | none =>
      refine .inr (.inr fun rest => ?_)
      rw [hname, hfind]
      dsimp only
      split
      · exact ⟨_, rfl, by simp⟩
      · exact ⟨_, rfl, by simp⟩
    | some e =>
      simp only [hfind] at hname
      have hdown : Trail.LeadsFrom root ((part, e) :: way) :=
        .step hway hgoal (exists_of_map_find? hfind)
      cases e with
      | link target => exact .inr (.inl ⟨target, hname⟩)
      | file rights bytes => exact .inl ⟨_, hdown, hname⟩
      | directory rights entries => exact .inl ⟨_, hdown, hname⟩
      | special => exact .inl ⟨_, hdown, hname⟩
  · refine .inr (.inr fun rest => ⟨.error .notDirectory, ?_, by simp⟩)
    rw [follow]
    split
    · next hgoal => exact absurd (by rw [hgoal]; rfl) hdirectory
    · rfl

/-- More parts are followed from where a path leads, or after the rest behind its first link.
Separators at the end of the path make no difference then. -/
theorem follow_append {silent : List Bytes} (hsilent : ∀ s ∈ silent, s = []) (parts : List Bytes)
    {way : Trail} (hway : way.LeadsFrom root) :
    (∀ names e, follow root .follow way (parts ++ silent) = .done (.ok (.taken names e)) →
      ∃ next, next.LeadsFrom root ∧ next.names = names ∧ next.goal root = e ∧
        ∀ more, follow root .follow way (parts ++ more) = follow root .follow next more) ∧
    ∀ before target rest, follow root .follow way (parts ++ silent) = .link before target rest →
      before.LeadsFrom root ∧ ∃ behind, rest = behind ++ silent ∧
        ∀ more, follow root .follow way (parts ++ more) = .link before target (behind ++ more) := by
  induction parts generalizing way with
  | nil =>
    have hstay : follow root .follow way silent = .done (.ok (.taken way.names (way.goal root))) ∨
        follow root .follow way silent = .done (.error .notDirectory) := by
      induction silent with
      | nil => exact .inl (by rw [follow])
      | cons s silent ih =>
        obtain rfl := hsilent s (by simp)
        have ih := ih fun s hs => hsilent s (by simp [hs])
        rw [follow]
        split
        · simpa using ih
        · exact .inr rfl
    rw [List.nil_append]
    refine ⟨fun names e h => ?_, fun before target rest h => ?_⟩
    · rcases hstay with hstay | hstay
      · rw [hstay] at h
        cases h
        exact ⟨way, hway, rfl, rfl, fun more => rfl⟩
      · rw [hstay] at h
        cases h
    · rcases hstay with hstay | hstay <;>
      · rw [hstay] at h
        cases h
  | cons part parts ih =>
    simp only [List.cons_append]
    rcases follow_cons_cases hway part with ⟨next, hnext, hstep⟩ | ⟨target, hstep⟩ | hstop
    · simp only [hstep]
      exact ih hnext
    · simp only [hstep]
      refine ⟨by simp, fun before target' rest h => ?_⟩
      cases h
      exact ⟨hway, parts, rfl, fun more => rfl⟩
    · obtain ⟨result, hresult, hnone⟩ := hstop (parts ++ silent)
      rw [hresult]
      refine ⟨fun names e h => ?_, by simp⟩
      cases h
      exact absurd rfl (hnone names e)

/-- A path with more parts is followed from where the path leads. -/
theorem followLinks_append {silent : List Bytes} (hsilent : ∀ s ∈ silent, s = []) {n : Nat}
    {way : Trail} (hway : way.LeadsFrom root) {parts names : List Bytes} {e : DiskEntry}
    (h : followLinks root .follow n way (parts ++ silent) = .ok (.taken names e)) :
    ∃ m next, next.LeadsFrom root ∧ next.names = names ∧ next.goal root = e ∧
      ∀ more, followLinks root .follow n way (parts ++ more) =
        followLinks root .follow m next more := by
  induction n using Nat.strongRecOn generalizing way parts with
  | ind n ih =>
    obtain ⟨htaken, hlink⟩ := follow_append hsilent parts hway
    rw [followLinks] at h
    cases hfollow : follow root .follow way (parts ++ silent) with
    | done result =>
      rw [hfollow] at h
      obtain rfl : result = .ok (.taken names e) := h
      obtain ⟨next, hnext, hnames, hgoal, hmore⟩ := htaken names e hfollow
      refine ⟨n, next, hnext, hnames, hgoal, fun more => ?_⟩
      rw [followLinks, hmore, ← followLinks]
    | link before target rest =>
      rw [hfollow] at h
      obtain ⟨hbefore, behind, rfl, hmore⟩ := hlink before target rest hfollow
      cases n with
      | zero => cases h
      | succ n =>
        have hstart : Trail.LeadsFrom root (if target.isAbsolute then [] else before) := by
          split
          · exact .start
          · exact hbefore
        dsimp only at h
        rw [← List.append_assoc] at h
        obtain ⟨m, next, hnext, hnames, hgoal, hrest⟩ := ih n (Nat.lt_succ_self n) hstart h
        refine ⟨m, next, hnext, hnames, hgoal, fun more => ?_⟩
        rw [followLinks, hmore]
        dsimp only
        rw [← List.append_assoc, hrest]

section

variable {d : Disk} {p : Path} {place names : List Bytes} {rights : Rights}
  {entries : List (Bytes × DiskEntry)} {x : DiskEntry}

theorem exists_start_of_resolve (h : d.resolve p = .ok (place, x)) : ∃ way,
    p.bytes ≠ [] ∧ check p = .ok () ∧ d.start p = .ok way ∧
      followLinks d.root .follow maxLinks way (Text.splitOn Path.slash p.bytes) =
        .ok (.taken place x) := by
  unfold resolve Disk.place at h
  cases hcheck : check p with
  | error reason => simp [hcheck] at h
  | ok _ =>
    cases hstart : d.start p with
    | error reason => simp [hcheck, hstart] at h
    | ok way =>
      have hsome : p.bytes ≠ [] := by
        intro hempty
        simp [check, hempty] at hcheck
      rw [hcheck, hstart] at h
      refine ⟨way, hsome, rfl, rfl, ?_⟩
      split at h
      · next hfollow =>
        cases h
        exact hfollow
      · cases h
      · cases h

theorem start_below (hp : p.bytes ≠ []) (h : ∀ n ∈ names, Path.IsName n) :
    d.start (p.below names) = d.start p := by
  rw [start, start, Path.isAbsolute_below hp h]

variable (hp : d.resolve p = .ok (place, .directory rights entries))
  (htidy : (DiskEntry.directory rights entries).Tidy)
  (hat : (DiskEntry.directory rights entries).at? names = some x)
  (hx : ∀ target, x ≠ .link target) (hcheck : check (p.below names) = .ok ())

include hp htidy hat hx hcheck

/-- The path of what is below a directory leads there, if the program may enter the directories on
the way. -/
theorem resolve_below :
    ((DiskEntry.directory rights entries).Enterable names →
      d.resolve (p.below names) = .ok (place ++ names, x)) ∧
    (¬ (DiskEntry.directory rights entries).Enterable names →
      d.resolve (p.below names) = .error .denied) := by
  obtain ⟨way, hsome, -, hstart, hfollow⟩ := exists_start_of_resolve hp
  have hnames := (htidy.at? hat).2
  have hnames' : ∀ n ∈ names, Path.IsName n := fun n hn => (hnames n hn).1
  have hway : way.LeadsFrom d.root := leadsFrom_of_start hstart
  obtain ⟨front, silent, hsilent, hparts, hbelow⟩ := Path.exists_splitOn_below hsome hnames'
  rw [hparts] at hfollow
  obtain ⟨m, next, -, hplace, hgoal, hmore⟩ := followLinks_append hsilent hway hfollow
  have hdown : d.place .follow (p.below names) = followLinks d.root .follow m next names := by
    rw [Disk.place, hcheck, start_below hsome hnames', hstart, hbelow]
    exact hmore names
  rw [← hgoal] at hat ⊢
  obtain ⟨hopen, hclosed⟩ := follow_names hx hnames hat
  rw [hplace] at hopen
  refine ⟨fun henter => ?_, fun henter => ?_⟩
  · rw [resolve, hdown, followLinks, hopen henter]
  · rw [resolve, hdown, followLinks, hclosed henter]

end

/-- The system opens a directory below the one that a path leads to if it takes its path, and the
program may enter the directories on the way and read this one. -/
theorem opened_below_iff {d : Disk} {p : Path} {place names : List Bytes} {rights : Rights}
    {entries : List (Bytes × DiskEntry)} (hp : d.resolve p = .ok (place, .directory rights entries))
    (htidy : (DiskEntry.directory rights entries).Tidy) {rights' : Rights}
    {entries' : List (Bytes × DiskEntry)}
    (hat : (DiskEntry.directory rights entries).at? names = some (.directory rights' entries'))
    {e : DiskEntry} : d.opened (p.below names) = .ok e ↔ check (p.below names) = .ok () ∧
      (DiskEntry.directory rights entries).Enterable names ∧ rights'.read = true ∧
      e = .directory rights' entries' := by
  cases hcheck : check (p.below names) with
  | error reason => simp [opened, resolve, Disk.place, hcheck]
  | ok _ =>
    obtain ⟨hopen, hclosed⟩ := resolve_below hp htidy hat (by simp) hcheck
    by_cases henter : (DiskEntry.directory rights entries).Enterable names
    · rw [opened, hopen henter]
      cases hread : rights'.read with
      | false => simp [hread]
      | true => simp [hread, henter, eq_comm]
    · rw [opened, hclosed henter]
      simp [henter]

theorem isDirectory_root_of_at? {d : Disk} {names : List Bytes} {rights : Rights}
    {entries : List (Bytes × DiskEntry)}
    (hat : d.root.at? names = some (.directory rights entries)) : d.root.isDirectory = true := by
  cases names with
  | nil =>
    rw [DiskEntry.at?_nil, Option.some.injEq] at hat
    rw [hat]
    rfl
  | cons name names =>
    obtain ⟨_, _, -, he, -⟩ := DiskEntry.at?_cons_eq_some_iff.mp hat
    rw [he]
    rfl

theorem resolve_root {d : Disk} (hroot : d.root.isDirectory = true) :
    d.resolve (.ofNames []) = .ok ([], d.root) := by
  obtain ⟨rights, entries, he⟩ := DiskEntry.exists_entries hroot
  have hgoal : Trail.goal d.root [] = .directory rights entries := he
  have hfollow : follow d.root .follow [] [[], []] = .done (.ok (.taken [] d.root)) := by
    rw [follow_empty hgoal, follow_empty hgoal, follow]
    rfl
  have hplace : d.place .follow (.ofNames []) = followLinks d.root .follow maxLinks [] [[], []] :=
    rfl
  rw [resolve, hplace, followLinks, hfollow]

/-- A directory that the system opens by its normalized absolute path is the one with its names. -/
theorem resolve_ofNames {d : Disk} (h : d.root.Tidy) {names : List Bytes} {rights : Rights}
    {entries : List (Bytes × DiskEntry)}
    (hat : d.root.at? names = some (.directory rights entries)) {e : DiskEntry}
    (hopen : d.opened (.ofNames names) = .ok e) :
    d.resolve (.ofNames names) = .ok (names, .directory rights entries) ∧ rights.read = true := by
  have hroot := isDirectory_root_of_at? hat
  obtain ⟨rights', entries', he⟩ := DiskEntry.exists_entries hroot
  have hresolve := resolve_root hroot
  have hpath : (Path.ofNames []).below names = .ofNames names :=
    Path.below_ofNames (by simp) (h.isName hat)
  rw [he] at hresolve h hat
  rw [← hpath] at hopen ⊢
  obtain ⟨hcheck, henter, hread, -⟩ := (opened_below_iff hresolve h hat).mp hopen
  exact ⟨(resolve_below hresolve h hat (by simp) hcheck).1 henter, hread⟩

end Disk

end ProjectFile
