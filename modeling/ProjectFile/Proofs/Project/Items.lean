import ProjectFile.Project.Query
import ProjectFile.Proofs.Xml.Places

/-!
The items of a project by their places. An item is an element of its kind that is a child of an item
group, and the legacy dialect asks for its namespace on both. The list of items has one entry for
each place of an item: group after group in document order, and in each group child after child.
-/

namespace ProjectFile

/-- The place of an item group and the index of an item among its children. -/
abbrev ItemPlace := Xml.Place × Nat

/-- Items with their places. -/
abbrev PlacedItems := List (ItemPlace × Xml.Element)

namespace Style

variable {s : Style} {name kind : Text} {root : Xml.Element}

/-- Whether a child of an item group is an item of a kind. In the legacy dialect both are in its
namespace. -/
def HasItem (s : Style) (kind : Text) (root : Xml.Element) (place : ItemPlace)
    (item : Xml.Element) : Prop :=
  ∃ group, root.at? place.1 = some group ∧ group.child? place.2 = some item ∧
    group.tag.name = "ItemGroup" ∧ item.tag.name = kind ∧
    (s = .legacy →
      group.tag.space? = some legacyNamespace ∧ item.tag.space? = some legacyNamespace)

/-- Whether a list has the items of a kind, each place once: by the places of their groups and in
each group by their indices. -/
structure Enumerates (s : Style) (kind : Text) (root : Xml.Element) (items : PlacedItems) :
    Prop where
  mem_iff : ∀ place item, (place, item) ∈ items ↔ s.HasItem kind root place item
  ordered : items.Pairwise fun x y => x.1.1 < y.1.1 ∨ x.1.1 = y.1.1 ∧ x.1.2 < y.1.2

theorem matchesName_iff {e : Xml.Element} : s.matchesName name e = true ↔
    e.tag.name = name ∧ (s = .legacy → e.tag.space? = some legacyNamespace) := by
  cases s <;> simp [matchesName]

def placedItems (s : Style) (kind : Text) (root : Xml.Element) : PlacedItems :=
  (root.places.filter fun x => s.matchesName "ItemGroup" x.2).flatMap fun group =>
    (group.2.placedChildren.filter fun y => s.matchesName kind y.2).map fun item =>
      ((group.1, item.1), item.2)

theorem mem_placedItems {place : ItemPlace} {item : Xml.Element} :
    (place, item) ∈ s.placedItems kind root ↔ s.HasItem kind root place item := by
  simp only [placedItems, List.mem_flatMap, List.mem_map, List.mem_filter, matchesName_iff]
  constructor
  · rintro ⟨⟨above, group⟩, ⟨hgroup, hname, hspace⟩, ⟨n, item⟩, ⟨hitem, hkind, hspace'⟩, ⟨rfl, rfl⟩⟩
    exact ⟨group, Xml.Element.mem_places.mp hgroup, Xml.Element.mem_placedChildren.mp hitem, hname,
      hkind, fun h => ⟨hspace h, hspace' h⟩⟩
  · rintro ⟨group, hgroup, hitem, hname, hkind, hspace⟩
    exact ⟨(place.1, group), ⟨Xml.Element.mem_places.mpr hgroup, hname, fun h => (hspace h).1⟩,
      (place.2, item), ⟨Xml.Element.mem_placedChildren.mpr hitem, hkind, fun h => (hspace h).2⟩,
      rfl⟩

theorem pairwise_placedItems : (s.placedItems kind root).Pairwise fun x y =>
    x.1.1 < y.1.1 ∨ x.1.1 = y.1.1 ∧ x.1.2 < y.1.2 := by
  refine List.pairwise_flatMap.mpr ⟨fun group _ => ?_, ?_⟩
  · refine List.pairwise_map.mpr ((group.2.pairwise_placedChildren.filter _).imp fun h => ?_)
    exact .inr ⟨rfl, h⟩
  · refine (root.pairwise_places.filter _).imp fun h x hx y hy => ?_
    obtain ⟨_, -, rfl⟩ := List.mem_map.mp hx
    obtain ⟨_, -, rfl⟩ := List.mem_map.mp hy
    exact .inl h

/-- Without their places the items are those that the project is asked for. -/
theorem map_snd_placedItems (s : Style) (kind : Text) (root : Xml.Element) :
    (s.placedItems kind root).map Prod.snd = s.items kind root := by
  have hchildren (group : Xml.Element) :
      ((group.placedChildren.filter fun y => s.matchesName kind y.2).map Prod.snd) =
        group.childElements.filter (s.matchesName kind) := by
    rw [← group.map_snd_placedChildren, List.filter_map]
    rfl
  rw [placedItems, items, ← root.map_snd_places, List.filter_map, List.map_flatMap,
    List.flatMap_map]
  congr 1
  funext group
  rw [List.map_map]
  exact hchildren group.2

theorem enumerates_placedItems (s : Style) (kind : Text) (root : Xml.Element) :
    s.Enumerates kind root (s.placedItems kind root) :=
  ⟨fun _ _ => mem_placedItems, pairwise_placedItems⟩

end Style

end ProjectFile
