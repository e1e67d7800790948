import Mathlib.Data.List.Forall2
import ProjectFile.Evaluation.Output

/-!
What a JSON object says about a project. Properties and lists of items are maps by name, and an
object denotes them if each entry of a map is a member and each member an entry. Members may come
in any order and next to members with other names, but no name may be repeated; a section may be
missing if there is nothing in it, and so may the full path of an item, or it may be null. Every
object that denotes an output is understood, and looking a name up gives what the map has for it.
-/

namespace ProjectFile.Evaluation

/-- An object whose members are the entries of a map, their values in relation to what the map has
for their names. -/
inductive DenotesMap {α : Type} (denotes : α → Json → Prop) (map : Text → Option α) : Json → Prop
  | object {members : List (Text × Json)} (distinct : (members.map Prod.fst).Nodup)
      (entries : ∀ name v, (name, v) ∈ members → ∃ a, map name = some a ∧ denotes a v)
      (all : ∀ name, map name ≠ none → name ∈ members.map Prod.fst) :
      DenotesMap denotes map (.ofMembers members)

def DenotesText (t : Text) (v : Json) : Prop := v = .text t

/-- An object with the identity of an item and with its full path, if it has one. -/
inductive DenotesItem (item : Item) : Json → Prop
  | object {members : List (Text × Json)} (distinct : (members.map Prod.fst).Nodup)
      (identity : ("Identity".toList, .text item.identity) ∈ members)
      (fullPath : ∀ t, item.fullPath? = some t → ("FullPath".toList, .text t) ∈ members)
      (noFullPath : item.fullPath? = none → ∀ v, ("FullPath".toList, v) ∈ members → v = .null) :
      DenotesItem item (.ofMembers members)

def DenotesItems (items : List Item) (v : Json) : Prop :=
  ∃ elements, v = .array elements ∧ List.Forall₂ DenotesItem items elements

/-- The member with a name denotes a map, which is empty if there is no such member. -/
structure DenotesSection {α : Type} (denotes : α → Json → Prop) (map : Text → Option α)
    (name : Text) (members : List (Text × Json)) : Prop where
  present : ∀ v, (name, v) ∈ members → DenotesMap denotes map v
  missing : name ∉ members.map Prod.fst → ∀ n, map n = none

/-- An object with the two sections of an output. -/
inductive DenotesOutput (properties : Text → Option Text) (items : Text → Option (List Item)) :
    Json → Prop
  | object {members : List (Text × Json)} (distinct : (members.map Prod.fst).Nodup)
      (propertySection : DenotesSection DenotesText properties "Properties" members)
      (itemSection : DenotesSection DenotesItems items "Items" members) :
      DenotesOutput properties items (.ofMembers members)

section Members

variable {name : Text} {members : List (Text × Json)}

/-- The members of an object, each with a name that is known. -/
def known (members : List (Text × Json)) : List (Option Text × Json) :=
  members.map fun m => (some m.1, m.2)

theorem members_known : Json.members name (known members) =
    members.filterMap fun m => if m.1 = name then some m.2 else none := by
  rw [Json.members, known, List.filterMap_map]
  exact List.filterMap_congr fun m _ => by simp

theorem members_of_not_mem (h : name ∉ members.map Prod.fst) :
    Json.members name (known members) = [] := by
  rw [members_known, List.filterMap_eq_nil_iff]
  intro m hm
  refine if_neg fun hname => h ?_
  rw [← hname]
  exact List.mem_map_of_mem hm

theorem members_of_mem (distinct : (members.map Prod.fst).Nodup) {v : Json}
    (h : (name, v) ∈ members) : Json.members name (known members) = [v] := by
  induction members with
  | nil => cases h
  | cons m members ih =>
    obtain ⟨hfirst, hrest⟩ := List.nodup_cons.mp distinct
    rcases List.mem_cons.mp h with rfl | h
    · have hnone := members_of_not_mem hfirst
      rw [members_known] at hnone ⊢
      rw [List.filterMap_cons, if_pos rfl, hnone]
    · have hne : m.1 ≠ name := fun hname => hfirst (hname ▸ List.mem_map_of_mem h)
      have hone := ih hrest h
      rw [members_known] at hone ⊢
      rw [List.filterMap_cons, if_neg hne, hone]

theorem any_known : ((known members).any fun m => m.1.isNone) = false := by
  simp [known]

theorem single?_of_not_mem (h : name ∉ members.map Prod.fst) :
    single? name (known members) = some none := by
  rw [single?, any_known, members_of_not_mem h]
  rfl

theorem single?_of_mem (distinct : (members.map Prod.fst).Nodup) {v : Json}
    (h : (name, v) ∈ members) : single? name (known members) = some (some v) := by
  rw [single?, any_known, members_of_mem distinct h]
  rfl

theorem mem_or_not_mem (name : Text) (members : List (Text × Json)) :
    (∃ v, (name, v) ∈ members) ∨ name ∉ members.map Prod.fst := by
  by_cases h : name ∈ members.map Prod.fst
  · obtain ⟨⟨_, v⟩, hm, rfl⟩ := List.mem_map.mp h
    exact .inl ⟨v, hm⟩
  · exact .inr h

end Members

section Entries

variable {α : Type} {map : Text → Option α}

/-- Entries that come from a map, with all its names, are looked up as in the map. -/
theorem last?_eq {entries : List (Text × α)}
    (hentries : ∀ name a, (name, a) ∈ entries → map name = some a)
    (hall : ∀ name, map name ≠ none → name ∈ entries.map Prod.fst) (name : Text) :
    last? name entries = map name := by
  unfold last?
  cases hfind : entries.reverse.find? fun entry => entry.1 == name with
  | none =>
    cases hmap : map name with
    | none => rfl
    | some a =>
      obtain ⟨entry, hentry, rfl⟩ := List.mem_map.mp (hall name (by simp [hmap]))
      have hne := List.find?_eq_none.mp hfind entry (List.mem_reverse.mpr hentry)
      simp at hne
  | some entry =>
    have hname := List.find?_some hfind
    have hmem := List.mem_of_find?_eq_some hfind
    obtain rfl : entry.1 = name := by simpa using hname
    exact (hentries _ _ (List.mem_reverse.mp hmem)).symm

theorem exists_entries? {denotes : α → Json → Prop} {decode : Json → Option α}
    (hdecode : ∀ a v, denotes a v → decode v = some a) {members : List (Text × Json)}
    (hmembers : ∀ name v, (name, v) ∈ members → ∃ a, map name = some a ∧ denotes a v) :
    ∃ entries, entries? decode (.object (known members)) = some entries ∧
      entries.map Prod.fst = members.map Prod.fst ∧
      ∀ name a, (name, a) ∈ entries → map name = some a := by
  unfold known entries?
  induction members with
  | nil => exact ⟨[], rfl, rfl, by simp⟩
  | cons m members ih =>
    obtain ⟨a, hmap, hdenotes⟩ := hmembers m.1 m.2 (by simp)
    obtain ⟨entries, hentries, hnames, hknown⟩ := ih fun name v h => hmembers name v (by simp [h])
    refine ⟨(m.1, a) :: entries, ?_, ?_, ?_⟩
    · dsimp only at hentries ⊢
      rw [List.map_cons, List.mapM_cons, hentries, hdecode a m.2 hdenotes]
      rfl
    · rw [List.map_cons, List.map_cons, hnames]
    · intro name a' h
      rcases List.mem_cons.mp h with h | h
      · obtain ⟨rfl, rfl⟩ := Prod.mk.inj h
        exact hmap
      · exact hknown name a' h

/-- An object that denotes a map is read as entries in which every name is looked up as in the
map. -/
theorem DenotesMap.exists_entries? {denotes : α → Json → Prop} {decode : Json → Option α}
    (hdecode : ∀ a v, denotes a v → decode v = some a) {v : Json} (h : DenotesMap denotes map v) :
    ∃ entries, entries? decode v = some entries ∧ ∀ name, last? name entries = map name := by
  cases h with
  | @object members distinct hentries hall =>
    obtain ⟨entries, hread, hnames, hknown⟩ := Evaluation.exists_entries? hdecode hentries
    refine ⟨entries, hread, last?_eq hknown fun name hname => ?_⟩
    rw [hnames]
    exact hall name hname

/-- The same of a section, which may be missing. -/
theorem DenotesSection.exists_entries? {denotes : α → Json → Prop} {decode : Json → Option α}
    (hdecode : ∀ a v, denotes a v → decode v = some a) {name : Text}
    {members : List (Text × Json)} (h : DenotesSection denotes map name members)
    (distinct : (members.map Prod.fst).Nodup)
    (read : Option Json → Option (List (Text × α))) (hnone : read none = some [])
    (hsome : ∀ v, read (some v) = entries? decode v) :
    ∃ entries, (single? name (known members)).bind read = some entries ∧
      ∀ n, last? n entries = map n := by
  rcases mem_or_not_mem name members with ⟨v, hv⟩ | hmissing
  · rw [single?_of_mem distinct hv, Option.bind_some, hsome]
    exact (h.present v hv).exists_entries? hdecode
  · rw [single?_of_not_mem hmissing, Option.bind_some, hnone]
    exact ⟨[], rfl, fun n => (h.missing hmissing n).symm⟩

end Entries

theorem string?_of_denotes {t : Text} {v : Json} (h : DenotesText t v) : string? v = some t := by
  cases h
  rfl

theorem item?_of_denotes {item : Item} {v : Json} (h : DenotesItem item v) :
    item? v = some item := by
  cases h with
  | @object members distinct identity fullPath noFullPath =>
    obtain ⟨name, full?⟩ := item
    change item? (.object (known members)) = _
    simp only [item?, single?_of_mem distinct identity, Option.bind_eq_bind, Option.bind_some]
    cases full? with
    | some t =>
      rw [single?_of_mem distinct (fullPath t rfl)]
      rfl
    | none =>
      rcases mem_or_not_mem "FullPath" members with ⟨v, hv⟩ | hmissing
      · obtain rfl := noFullPath rfl v hv
        rw [single?_of_mem distinct hv]
        rfl
      · rw [single?_of_not_mem hmissing]
        rfl

theorem items?_of_denotes {items : List Item} {v : Json} (h : DenotesItems items v) :
    items? v = some items := by
  obtain ⟨elements, rfl, hitems⟩ := h
  change elements.mapM item? = some items
  induction hitems with
  | nil => rfl
  | cons hitem _ ih =>
    rw [List.mapM_cons, item?_of_denotes hitem, ih]
    rfl

/-- An object that denotes an output is understood as one. -/
theorem DenotesOutput.exists_ofJson? {properties : Text → Option Text}
    {items : Text → Option (List Item)} {v : Json} (h : DenotesOutput properties items v) :
    ∃ output, Output.ofJson? v = some output ∧
      (∀ name, last? name output.properties = properties name) ∧
      ∀ kind, last? kind output.items = items kind := by
  cases h with
  | @object members distinct propertySection itemSection =>
    have htexts : ∀ t v, DenotesText t v → string? v = some t := fun _ _ => string?_of_denotes
    have hlists : ∀ is v, DenotesItems is v → items? v = some is := fun _ _ => items?_of_denotes
    obtain ⟨ps, hps, hproperties⟩ :=
      propertySection.exists_entries? htexts distinct properties? rfl fun _ => rfl
    obtain ⟨is, his, hitems⟩ :=
      itemSection.exists_entries? hlists distinct itemLists? rfl fun _ => rfl
    obtain ⟨v, hv, hps⟩ := Option.bind_eq_some_iff.mp hps
    obtain ⟨w, hw, his⟩ := Option.bind_eq_some_iff.mp his
    refine ⟨⟨ps, is⟩, ?_, hproperties, hitems⟩
    change Output.ofJson? (.object (known members)) = _
    simp only [Output.ofJson?, hv, hps, hw, his, Option.bind_eq_bind, Option.bind_some]

end ProjectFile.Evaluation
