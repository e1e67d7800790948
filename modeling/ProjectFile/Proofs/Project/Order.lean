import Mathlib.Data.List.Pairwise
import ProjectFile.Proofs.Project.Items
import ProjectFile.Proofs.Xml.Starts

/-!
When items come in document order. They are listed group after group, so wherever item groups stand
beside each other, in targets and choices too, the order is that of the document. An item group in
another one comes after all items of that one, even those that stand behind it, and this is the only
way in which the order is lost.
-/

namespace ProjectFile

/-- Two orders that hold along a list agree on its elements. -/
theorem rel_of_pairwise {α : Type} {R S : α → α → Prop} {l : List α} (hR : l.Pairwise R)
    (hS : l.Pairwise S) (hasymm : ∀ a b, R a b → ¬ R b a) {a b : α} (ha : a ∈ l) (hb : b ∈ l)
    (h : R a b) : S a b := by
  have : Std.Symm fun x y => (R x y ∧ S x y) ∨ (R y x ∧ S y x) := ⟨fun _ _ => Or.symm⟩
  have hboth : l.Pairwise fun x y => (R x y ∧ S x y) ∨ (R y x ∧ S y x) := (hR.and hS).imp .inl
  have hne : a ≠ b := by
    rintro rfl
    exact hasymm a a h h
  rcases hboth.forall ha hb hne with hab | hba
  · exact hab.2
  · exact absurd hba.1 (hasymm a b h)

namespace Xml

/-- A child of an element that comes before another one comes before the children of that one,
unless it stands behind the child that the other one is in. -/
theorem Place.concat_lt_concat {p q : Place} (h : p < q) {n k : Nat}
    (hbehind : ∀ m below, q = p ++ m :: below → n ≤ m) : p ++ [n] < q ++ [k] := by
  induction p generalizing q with
  | nil =>
    cases q with
    | nil => exact absurd h (List.lt_irrefl _)
    | cons m below =>
      rcases Nat.lt_or_eq_of_le (hbehind m below rfl) with hlt | rfl
      · exact List.cons_lt_cons_iff.mpr (.inl hlt)
      · refine List.cons_lt_cons_iff.mpr (.inr ⟨rfl, ?_⟩)
        cases below <;> exact List.nil_lt_cons _ _
  | cons i p ih =>
    cases q with
    | nil => exact absurd h (List.not_lt_nil _)
    | cons j q =>
      rcases List.cons_lt_cons_iff.mp h with hlt | ⟨rfl, hlt⟩
      · exact List.cons_lt_cons_iff.mpr (.inl hlt)
      · refine List.cons_lt_cons_iff.mpr (.inr ⟨rfl, ih hlt fun m below hq => ?_⟩)
        exact hbehind m below (by rw [hq]; rfl)

namespace Element

theorem at?_concat (e : Element) (place : Place) (n : Nat) :
    e.at? (place ++ [n]) = (e.at? place).bind fun x => x.child? n := by
  rw [at?_append]
  congr 1
  funext x
  simp [at?]

end Element

/-- A text of whose document something is found is a document. -/
theorem Document.exists_of_any {text : Text} {p : Document → Bool}
    (h : (Document.parse text).toOption.any p = true) :
    ∃ document, Document.parse text = .ok document ∧ p document = true := by
  cases hparse : Document.parse text with
  | error e =>
    rw [hparse] at h
    cases h
  | ok document =>
    rw [hparse] at h
    exact ⟨document, rfl, h⟩

/-- Elements of a parsed document start in the order of their places. -/
theorem Document.start_lt_iff {text : Text} {document : Document}
    (h : Document.parse text = .ok document) {p q : Place} {x y : Element}
    (hx : document.root.at? p = some x) (hy : document.root.at? q = some y) :
    x.tag.start < y.tag.start ↔ p < q := by
  have hplaces := document.root.pairwise_places
  have hstarts : document.root.places.Pairwise fun a b => a.2.tag.start < b.2.tag.start := by
    have hordered := pairwise_start h
    rw [← document.root.map_snd_places, List.pairwise_map] at hordered
    exact hordered
  have hp := Element.mem_places.mpr hx
  have hq := Element.mem_places.mpr hy
  constructor
  · intro hlt
    refine rel_of_pairwise hstarts hplaces (fun a b hab hba => ?_) hp hq hlt
    exact Position.lt_irrefl _ (Position.lt_trans hab hba)
  · intro hlt
    exact rel_of_pairwise hplaces hstarts (fun a b hab hba => List.lt_asymm hab hba) hp hq hlt

end Xml

/-- Of two items in a list at most one comes before the other. -/
theorem ItemPlace.asymm {p q : ItemPlace} (h : p.1 < q.1 ∨ p.1 = q.1 ∧ p.2 < q.2) :
    ¬ (q.1 < p.1 ∨ q.1 = p.1 ∧ q.2 < p.2) := by
  rintro (hlt' | ⟨heq', hlt'⟩)
  · rcases h with hlt | ⟨heq, -⟩
    · exact List.lt_asymm hlt hlt'
    · exact List.lt_irrefl _ (heq ▸ hlt')
  · rcases h with hlt | ⟨-, hlt⟩
    · exact List.lt_irrefl _ (heq' ▸ hlt)
    · exact Nat.lt_asymm hlt hlt'

namespace Style

variable {s : Style} {kind : Text} {root : Xml.Element}

/-- An item stands in its group. -/
theorem HasItem.at? {place : ItemPlace} {item : Xml.Element} (h : s.HasItem kind root place item) :
    root.at? (place.1 ++ [place.2]) = some item := by
  obtain ⟨group, hgroup, hitem, -⟩ := h
  rw [Xml.Element.at?_concat, hgroup]
  exact hitem

theorem mem_elements_of_mem_items {item : Xml.Element} (h : item ∈ s.items kind root) :
    item ∈ root.elements := by
  rw [← map_snd_placedItems] at h
  obtain ⟨⟨place, item⟩, hplaced, rfl⟩ := List.mem_map.mp h
  exact Xml.Element.mem_elements_iff.mpr ⟨_, (mem_placedItems.mp hplaced).at?⟩

/-- In a parsed document items start in the order of their places. -/
theorem HasItem.start_lt_iff {text : Text} {document : Xml.Document}
    (h : Xml.Document.parse text = .ok document) {p q : ItemPlace} {x y : Xml.Element}
    (hx : s.HasItem kind document.root p x) (hy : s.HasItem kind document.root q y) :
    x.tag.start < y.tag.start ↔ p.1 ++ [p.2] < q.1 ++ [q.2] :=
  Xml.Document.start_lt_iff h hx.at? hy.at?

theorem exists_document {text : Text} {s : Style} {kind : Text} {starts : List Xml.Position}
    (h : (Xml.Document.parse text).toOption.map (fun document =>
      (s.items kind document.root).map fun item => item.tag.start) = some starts) :
    ∃ document, Xml.Document.parse text = .ok document ∧
      (s.items kind document.root).map (fun item => item.tag.start) = starts := by
  obtain ⟨found, hfound, hstarts⟩ := Option.map_eq_some_iff.mp h
  have hany : (Xml.Document.parse text).toOption.any (fun document =>
      (s.items kind document.root).map (fun item => item.tag.start) = starts) = true :=
    (Option.any_eq_true _ _).mpr ⟨found, hfound, decide_eq_true hstarts⟩
  obtain ⟨document, hparse, hstarts⟩ := Xml.Document.exists_of_any hany
  exact ⟨document, hparse, of_decide_eq_true hstarts⟩

/-- The items of a kind start at places of the text where a `<` stands. They come in the order of
these places just if no item stands behind a group that is nested in its own group and has an item
too. -/
theorem items_inOrder_iff {text : Text} {document : Xml.Document}
    (h : Xml.Document.parse text = .ok document) (s : Style) (kind : Text) :
    (∀ item ∈ s.items kind document.root, ∃ before rest, text = before ++ '<' :: rest ∧
      item.tag.start = Xml.Position.start.after before) ∧
    ((s.items kind document.root).Pairwise (fun x y => x.tag.start < y.tag.start) ↔
      ∀ above n item m below k inner, s.HasItem kind document.root (above, n) item →
        s.HasItem kind document.root (above ++ m :: below, k) inner → n ≤ m) := by
  refine ⟨fun item hitem => Xml.Document.exists_start h (mem_elements_of_mem_items hitem), ?_⟩
  rw [← map_snd_placedItems, List.pairwise_map]
  constructor
  · intro hordered above n item m below k inner hitem hinner
    have habove : above ++ [] < above ++ m :: below :=
      List.append_left_lt (List.nil_lt_cons m below)
    rw [List.append_nil] at habove
    have hstart : item.tag.start < inner.tag.start :=
      rel_of_pairwise pairwise_placedItems hordered (fun _ _ => ItemPlace.asymm)
        (mem_placedItems.mpr hitem) (mem_placedItems.mpr hinner) (.inl habove)
    have hlt := (hitem.start_lt_iff h hinner).mp hstart
    refine Nat.not_lt.mp fun hbehind => ?_
    have hnested : (above ++ m :: below) ++ [k] < above ++ [n] := by
      rw [List.append_assoc]
      exact List.append_left_lt (List.cons_lt_cons_iff.mpr (.inl hbehind))
    exact List.lt_asymm hlt hnested
  · intro hbehind
    refine pairwise_placedItems.imp_of_mem fun {x y} hx hy hxy => ?_
    have hx := mem_placedItems.mp hx
    have hy := mem_placedItems.mp hy
    refine (hx.start_lt_iff h hy).mpr ?_
    rcases hxy with hlt | ⟨heq, hlt⟩
    · refine Xml.Place.concat_lt_concat hlt fun m below hnested => ?_
      rw [show y.1 = (x.1.1 ++ m :: below, y.1.2) by rw [← hnested]] at hy
      exact hbehind x.1.1 x.1.2 x.2 m below y.1.2 y.2 hx hy
    · rw [heq]
      exact List.append_left_lt (List.cons_lt_cons_iff.mpr (.inl hlt))

/-- Two groups side by side, the second one in a choice. -/
def choiceText : Text :=
  ("<Project><ItemGroup><Compile /></ItemGroup>" ++
    "<Choose><When><ItemGroup><Compile /><Compile /></ItemGroup></When></Choose></Project>").toList

theorem items_inOrder_iff_choice : ∃ document, Xml.Document.parse choiceText = .ok document ∧
    (Style.sdk.items "Compile" document.root).map (fun item => item.tag.start) =
      [⟨1, 21⟩, ⟨1, 69⟩, ⟨1, 80⟩] ∧
    ∀ above n item m below k inner, Style.sdk.HasItem "Compile" document.root (above, n) item →
      Style.sdk.HasItem "Compile" document.root (above ++ m :: below, k) inner → n ≤ m := by
  have hchoice : (Xml.Document.parse choiceText).toOption.map (fun document =>
      (Style.sdk.items "Compile" document.root).map fun item => item.tag.start) =
      some [⟨1, 21⟩, ⟨1, 69⟩, ⟨1, 80⟩] := by decide +kernel
  obtain ⟨document, hparse, hstarts⟩ := exists_document hchoice
  obtain ⟨-, hiff⟩ := items_inOrder_iff hparse .sdk "Compile"
  refine ⟨document, hparse, hstarts, hiff.mp (List.pairwise_map.mp ?_)⟩
  rw [hstarts]
  decide

/-- A group in a group, and an item behind it. -/
def nestedText : Text :=
  ("<Project><ItemGroup><ItemGroup><Compile Include=\"a\"/></ItemGroup>" ++
    "<Compile Include=\"b\"/></ItemGroup></Project>").toList

/-- The item behind the group comes first, although the other one starts before it. -/
theorem items_nested : ∃ document, Xml.Document.parse nestedText = .ok document ∧
    (Style.sdk.items "Compile" document.root).map (fun item => item.tag.start) =
      [⟨1, 66⟩, ⟨1, 32⟩] ∧
    ¬ (Style.sdk.items "Compile" document.root).Pairwise
      fun x y => x.tag.start < y.tag.start := by
  have hnested : (Xml.Document.parse nestedText).toOption.map (fun document =>
      (Style.sdk.items "Compile" document.root).map fun item => item.tag.start) =
      some [⟨1, 66⟩, ⟨1, 32⟩] := by decide +kernel
  obtain ⟨document, hparse, hstarts⟩ := exists_document hnested
  refine ⟨document, hparse, hstarts, fun hordered => ?_⟩
  have hpositions := List.pairwise_map.mpr hordered
  rw [hstarts] at hpositions
  exact absurd hpositions (by decide)

end Style

end ProjectFile
