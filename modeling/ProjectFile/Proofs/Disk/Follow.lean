import ProjectFile.Proofs.Disk.Place

/-!
Following paths on a disk. A way leads down from the root directory if each entry on it is held by
the directory before it; a step keeps that, be it down to an entry, back up or on to what a link
names. So what a path is said to lead to is on the disk at the names told with it.
-/

namespace ProjectFile

namespace Trail

/-- Whether a way leads down from the root directory, each directory on it holding the next
entry. -/
inductive LeadsFrom (root : DiskEntry) : Trail → Prop
  | start : LeadsFrom root []
  | step {way : Trail} {rights : Rights} {entries : List (Bytes × DiskEntry)} {name : Bytes}
      {e : DiskEntry} (above : LeadsFrom root way)
      (goal : way.goal root = .directory rights entries)
      (found : entries.find? (fun x => x.1 == name) = some (name, e)) :
      LeadsFrom root ((name, e) :: way)

variable {root : DiskEntry} {way : Trail}

@[simp] theorem names_cons (name : Bytes) (e : DiskEntry) (way : Trail) :
    names ((name, e) :: way) = way.names ++ [name] := by
  simp [names]

theorem LeadsFrom.tail (h : LeadsFrom root way) : LeadsFrom root way.tail := by
  cases h with
  | start => exact .start
  | step above goal found => exact above

/-- The goal of a way is what is on the disk at the names of the way. -/
theorem LeadsFrom.at?_names (h : LeadsFrom root way) :
    root.at? way.names = some (way.goal root) := by
  induction h with
  | start => simp [names, goal]
  | step above goal found ih =>
    rw [names_cons, DiskEntry.at?_append, ih, goal, Option.bind_some]
    exact DiskEntry.at?_cons_eq_some_iff.mpr ⟨_, _, _, rfl, found, by simp [Trail.goal]⟩

end Trail

/-- Whether a place is on the disk: what is said to be there is there, or a directory holds nothing
under the last name. -/
def Place.IsOn (root : DiskEntry) : Place → Prop
  | .taken names e => root.at? names = some e
  | .vacant names => ∃ above name rights entries, names = above ++ [name] ∧
      root.at? above = some (.directory rights entries) ∧ root.at? names = none

/-- Whether what following has come to is on the disk, as its end or as the way it goes on. -/
def Progress.IsOn (root : DiskEntry) : Progress → Prop
  | .done (.ok place) => place.IsOn root
  | .done (.error _) => True
  | .link way _ _ => way.LeadsFrom root

namespace Disk

variable {root : DiskEntry} {ending : Ending} {way : Trail} {parts : List Bytes}

theorem exists_of_map_find? {entries : List (Bytes × DiskEntry)} {name : Bytes} {e : DiskEntry}
    (h : (entries.find? fun x => x.1 == name).map Prod.snd = some e) :
    entries.find? (fun x => x.1 == name) = some (name, e) := by
  obtain ⟨⟨n, e'⟩, hfind, rfl⟩ := Option.map_eq_some_iff.mp h
  obtain rfl : n = name := by simpa using List.find?_some hfind
  exact hfind

theorem at?_concat {above : List Bytes} {rights : Rights} {entries : List (Bytes × DiskEntry)}
    (h : root.at? above = some (.directory rights entries)) (name : Bytes) :
    root.at? (above ++ [name]) = (entries.find? fun x => x.1 == name).map Prod.snd := by
  rw [DiskEntry.at?_append, h, Option.bind_some, DiskEntry.at?]
  cases (entries.find? fun x => x.1 == name).map Prod.snd <;> simp

/-- The way down over names leads from where the way before it leads from. -/
theorem leadsFrom_of_down? {way' : Trail} {names : List Bytes} (h : way.LeadsFrom root)
    (hdown : way.down? root names = some way') : way'.LeadsFrom root := by
  fun_induction Trail.down? root way names with
  | case1 way => exact Option.some.inj hdown ▸ h
  | case2 way name names rights entries hgoal e hfind ih =>
    exact ih (.step h hgoal (exists_of_map_find? hfind)) hdown
  | case3 => cases hdown
  | case4 => cases hdown

/-- Whatever following the parts of a path has come to is on the disk. -/
theorem isOn_follow (h : way.LeadsFrom root) (ending : Ending) (parts : List Bytes) :
    (follow root ending way parts).IsOn root := by
  fun_induction follow root ending way parts with
  | case1 way => exact h.at?_names
  | case2 way part rest rights entries hgoal hempty ih => exact ih h
  | case3 => trivial
  | case4 way rest rights entries hgoal henter hempty ih => exact ih h
  | case5 way rest rights entries hgoal henter hempty hcurrent ih => exact ih h.tail
  | case6 => trivial
  | case7 => trivial
  | case8 way part rest rights entries hgoal hempty henter hcurrent hdown isLast hwrite hlength
      target hfind hkeep =>
    have hat := h.at?_names
    rw [hgoal] at hat
    exact (at?_concat hat part).trans hfind
  | case9 => exact h
  | case10 way part rest rights entries hgoal hempty henter hcurrent hdown isLast hwrite hlength
      e hlink hfind ih =>
    exact ih (.step h hgoal (exists_of_map_find? hfind))
  | case11 => trivial
  | case12 way part rest rights entries hgoal hempty henter hcurrent hdown isLast hwrite hlength
      hfind hlast hfree =>
    have hat := h.at?_names
    rw [hgoal] at hat
    exact ⟨way.names, part, rights, entries, rfl, hat, (at?_concat hat part).trans hfind⟩
  | case13 => trivial
  | case14 => trivial

theorem isOn_followLinks {n : Nat} {place : Place} (h : way.LeadsFrom root)
    (hplace : followLinks root ending n way parts = .ok place) : place.IsOn root := by
  fun_induction followLinks root ending n way parts with
  | case1 n way parts result hdone =>
    have hon := isOn_follow h ending parts
    rw [hdone, hplace] at hon
    exact hon
  | case2 => cases hplace
  | case3 way parts way' target rest hlink n ih =>
    have hon := isOn_follow h ending parts
    rw [hlink] at hon
    refine ih ?_ hplace
    split
    · exact .start
    · exact hon

theorem leadsFrom_of_start {d : Disk} {p : Path} (h : d.start p = .ok way) :
    way.LeadsFrom d.root := by
  unfold Disk.start at h
  split at h
  · cases h
    exact .start
  · split at h
    · next hdown =>
      cases h
      exact leadsFrom_of_down? .start hdown
    · cases h

theorem isOn_place {d : Disk} {p : Path} {place : Place} (h : d.place ending p = .ok place) :
    place.IsOn d.root := by
  unfold Disk.place at h
  split at h
  · split at h
    · next hstart => exact isOn_followLinks (leadsFrom_of_start hstart) h
    · cases h
  · cases h

/-- What a path leads to is on the disk at the names told with it. -/
theorem at?_of_resolve {d : Disk} {p : Path} {names : List Bytes} {e : DiskEntry}
    (h : d.resolve p = .ok (names, e)) : d.root.at? names = some e := by
  unfold resolve at h
  split at h
  · next hplace =>
    cases h
    exact isOn_place hplace
  · cases h
  · cases h

end Disk

end ProjectFile
