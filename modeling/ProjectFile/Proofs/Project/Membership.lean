import ProjectFile.Proofs.Project.Order

/-!
Which elements are items. In a parsed document no two elements start at one position, so an element
is known by its start as well as by its place, and the items of a kind are listed without loss and
without repetition. What stands in an item is no item by that: it is one only if an item group
stands there too and it is a child of that group.
-/

namespace ProjectFile

namespace Xml

variable {text : Text} {document : Document} (h : Document.parse text = .ok document)
  {x y : Element}

include h

/-- In a parsed document elements with one start are at one place. -/
theorem Document.place_eq_of_start_eq {p q : Place} (hx : document.root.at? p = some x)
    (hy : document.root.at? q = some y) (hstart : x.tag.start = y.tag.start) : p = q := by
  have hpq : ¬ p < q := fun hlt =>
    Position.lt_irrefl _ (hstart ▸ (start_lt_iff h hx hy).mpr hlt)
  have hqp : ¬ q < p := fun hlt =>
    Position.lt_irrefl _ (hstart ▸ (start_lt_iff h hy hx).mpr hlt)
  exact List.le_antisymm (List.not_lt.mp hqp) (List.not_lt.mp hpq)

/-- An element of a parsed document is known by its start. -/
theorem Document.eq_of_start_eq (hx : x ∈ document.root.elements)
    (hy : y ∈ document.root.elements) (hstart : x.tag.start = y.tag.start) : x = y := by
  obtain ⟨p, hx⟩ := Element.mem_elements_iff.mp hx
  obtain ⟨q, hy⟩ := Element.mem_elements_iff.mp hy
  obtain rfl := Document.place_eq_of_start_eq h hx hy hstart
  exact Option.some.inj (hx.symm.trans hy)

/-- Among elements of a parsed document an element is found by its start. -/
theorem Document.mem_of_start_mem {xs : List Element} (hxs : xs ⊆ document.root.elements)
    (hx : x ∈ document.root.elements) (hstart : x.tag.start ∈ xs.map fun e => e.tag.start) :
    x ∈ xs := by
  obtain ⟨y, hy, hstart⟩ := List.mem_map.mp hstart
  exact Document.eq_of_start_eq h (hxs hy) hx hstart ▸ hy

end Xml

namespace Xml.Element

variable {e x y : Element}

theorem mem_elements_of_mem_descendants (hx : x ∈ e.elements) (hy : y ∈ x.descendants) :
    y ∈ e.elements := by
  obtain ⟨p, hx⟩ := mem_elements_iff.mp hx
  obtain ⟨q, -, hy⟩ := mem_descendants_iff.mp hy
  exact mem_elements_iff.mpr ⟨p ++ q, by rw [at?_append, hx]; exact hy⟩

/-- What is below an element has a parent that is the element or below it. -/
theorem exists_parent_of_mem_descendants (h : x ∈ e.descendants) :
    ∃ above n parent, e.at? above = some parent ∧ parent.child? n = some x := by
  obtain ⟨place, hne, hat⟩ := mem_descendants_iff.mp h
  rw [← List.dropLast_concat_getLast hne, at?_concat, Option.bind_eq_some_iff] at hat
  obtain ⟨parent, hparent, hchild⟩ := hat
  exact ⟨_, _, parent, hparent, hchild⟩

end Xml.Element

namespace Style

variable {s : Style} {kind : Text} {root : Xml.Element}

theorem mem_items_iff {item : Xml.Element} :
    item ∈ s.items kind root ↔ ∃ place, s.HasItem kind root place item := by
  rw [← map_snd_placedItems, List.mem_map]
  constructor
  · rintro ⟨⟨place, item⟩, hplaced, rfl⟩
    exact ⟨place, mem_placedItems.mp hplaced⟩
  · rintro ⟨place, hitem⟩
    exact ⟨(place, item), mem_placedItems.mpr hitem, rfl⟩

theorem Enumerates.nodup_places {items : PlacedItems} (h : s.Enumerates kind root items) :
    (items.map Prod.fst).Nodup := by
  refine List.pairwise_map.mpr (h.ordered.imp fun {x y} hxy heq => ?_)
  exact ItemPlace.asymm hxy (heq ▸ hxy)

section

variable {text : Text} {document : Xml.Document} (h : Xml.Document.parse text = .ok document)

include h

/-- No two items of a parsed document have one start. -/
theorem nodup_start_items (s : Style) (kind : Text) :
    ((s.items kind document.root).map fun item => item.tag.start).Nodup := by
  have hplaces := (s.enumerates_placedItems kind document.root).nodup_places
  rw [← map_snd_placedItems, List.map_map]
  refine List.pairwise_map.mpr ((List.pairwise_map.mp hplaces).imp_of_mem ?_)
  intro x y hx hy hne hstart
  have hplace := Xml.Document.place_eq_of_start_eq h (mem_placedItems.mp hx).at?
    (mem_placedItems.mp hy).at? hstart
  obtain ⟨hgroup, hindex⟩ := List.append_inj' hplace rfl
  exact hne (Prod.ext hgroup (List.singleton_inj.mp hindex))

/-- What stands in an item and is an item itself is so by a group that stands there. -/
theorem exists_group_of_mem_descendants {item inner : Xml.Element}
    (hitem : item ∈ s.items kind document.root) (hinner : inner ∈ s.items kind document.root)
    (hin : inner ∈ item.descendants) :
    ∃ group ∈ item.elements, group.tag.name = "ItemGroup" ∧ inner ∈ group.childElements := by
  obtain ⟨p, hitem⟩ := mem_items_iff.mp hitem
  obtain ⟨q, hinner⟩ := mem_items_iff.mp hinner
  obtain ⟨above, n, parent, hparent, hchild⟩ := Xml.Element.exists_parent_of_mem_descendants hin
  have hparent' : document.root.at? ((p.1 ++ [p.2]) ++ above) = some parent := by
    rw [Xml.Element.at?_append, hitem.at?]
    exact hparent
  have hinner' : document.root.at? (((p.1 ++ [p.2]) ++ above) ++ [n]) = some inner := by
    rw [Xml.Element.at?_concat, hparent']
    exact hchild
  -- The inner item has one place only, so its group is the parent that it has below the other one.
  have hplace := Xml.Document.place_eq_of_start_eq h hinner.at? hinner' rfl
  obtain ⟨hplace, -⟩ := List.append_inj' hplace rfl
  obtain ⟨group, hgroup, -, hname, -⟩ := hinner
  obtain rfl : group = parent := Option.some.inj (hgroup.symm.trans (hplace ▸ hparent'))
  exact ⟨group, Xml.Element.mem_elements_iff.mpr ⟨above, hparent⟩, hname,
    Xml.Element.mem_childElements_iff.mpr ⟨n, hchild⟩⟩

end

/-- The items of a parsed document are the elements of their kind that are children of item groups,
at whatever depth these are, each by its place and by its start once. Of what stands in an item only
that is an item which is a child of an item group that is, or stands in, that item. -/
theorem items_exact {text : Text} {document : Xml.Document}
    (h : Xml.Document.parse text = .ok document) (s : Style) (kind : Text) :
    (∃ placed : PlacedItems, placed.map Prod.snd = s.items kind document.root ∧
      s.Enumerates kind document.root placed ∧ (placed.map Prod.fst).Nodup) ∧
    ((s.items kind document.root).map fun item => item.tag.start).Nodup ∧
    ∀ item ∈ s.items kind document.root, ∀ inner ∈ item.descendants,
      inner ∈ s.items kind document.root →
        ∃ group ∈ item.elements, group.tag.name = "ItemGroup" ∧ inner ∈ group.childElements := by
  have hplaced := s.enumerates_placedItems kind document.root
  exact ⟨⟨_, map_snd_placedItems s kind document.root, hplaced, hplaced.nodup_places⟩,
    nodup_start_items h s kind,
    fun _ hitem _ hin hinner => exists_group_of_mem_descendants h hitem hinner hin⟩

/-- An item with a group in it that has an item too. -/
def innerText : Text :=
  ("<Project><ItemGroup><Compile Include=\"a\"><ItemGroup><Compile Include=\"b\"/></ItemGroup>" ++
    "</Compile></ItemGroup></Project>").toList

/-- The inner item is listed, though it stands in the other one. -/
theorem exists_innerDocument : ∃ document, Xml.Document.parse innerText = .ok document ∧
    ∃ item ∈ Style.sdk.items "Compile" document.root, ∃ inner ∈ item.descendants,
      inner ∈ Style.sdk.items "Compile" document.root := by
  obtain ⟨document, hparse, hany⟩ := Xml.Document.exists_of_any
    (show (Xml.Document.parse innerText).toOption.any (fun document =>
      (Style.sdk.items "Compile" document.root).any fun item => item.descendants.any fun e =>
        e.tag.start ∈ (Style.sdk.items "Compile" document.root).map fun x => x.tag.start) = true
      by decide +kernel)
  obtain ⟨item, hitem, hany⟩ := List.any_eq_true.mp hany
  obtain ⟨inner, hin, hstart⟩ := List.any_eq_true.mp hany
  have helements : inner ∈ document.root.elements :=
    Xml.Element.mem_elements_of_mem_descendants (mem_elements_of_mem_items hitem) hin
  exact ⟨document, hparse, item, hitem, inner, hin, Xml.Document.mem_of_start_mem hparse
    (fun _ => mem_elements_of_mem_items) helements (of_decide_eq_true hstart)⟩

theorem items_exact_inner : ∃ document, Xml.Document.parse innerText = .ok document ∧
    ∃ item ∈ Style.sdk.items "Compile" document.root, ∃ inner ∈ item.descendants,
      inner ∈ Style.sdk.items "Compile" document.root ∧
      ∃ group ∈ item.elements, group.tag.name = "ItemGroup" ∧ inner ∈ group.childElements := by
  obtain ⟨document, hparse, item, hitem, inner, hin, hinner⟩ := exists_innerDocument
  obtain ⟨-, -, hgroup⟩ := items_exact hparse .sdk "Compile"
  exact ⟨document, hparse, item, hitem, inner, hin, hinner, hgroup item hitem inner hin hinner⟩

/-- It is not so that nothing in an item is an item. -/
theorem items_in_item : ∃ document, Xml.Document.parse innerText = .ok document ∧
    ¬ ∀ item ∈ Style.sdk.items "Compile" document.root, ∀ inner ∈ item.descendants,
      inner ∉ Style.sdk.items "Compile" document.root := by
  obtain ⟨document, hparse, item, hitem, inner, hin, hinner⟩ := exists_innerDocument
  exact ⟨document, hparse, fun hnone => hnone item hitem inner hin hinner⟩

end Style

end ProjectFile
