import ProjectFile.Path.Lemmas

/-!
Parents by components. The parent of a path keeps the spelling of what is above, and what it means
is the components of the path but the last. A path without a parent has at most one component, so
what is strictly above a path is its parent or above that.
-/

namespace ProjectFile

namespace Path

/-- What the part before the first separator of a path stands for. -/
def leading : Bytes → Component
  | [] => .root
  | [0x2E] => .current
  | [0x2E, 0x2E] => .parent
  | part => .name part

/-- The components of a path that has a first part and parts after it. -/
theorem components_eq_leading {p : Path} {first : Bytes} {parts : List Bytes}
    (h : Text.splitOn slash p.bytes = first :: parts) (hsome : first ≠ [] ∨ parts ≠ []) :
    p.components = leading first :: parts.filterMap Component.ofPart? := by
  unfold components
  rw [h]
  split
  · next he =>
    obtain ⟨rfl, rfl⟩ := List.cons.inj he
    exact absurd hsome (by simp)
  · next he =>
    obtain ⟨rfl, rfl⟩ := List.cons.inj he
    rfl
  · next he =>
    obtain ⟨rfl, rfl⟩ := List.cons.inj he
    rfl
  · next hempty hroot hcurrent =>
    have hfirst : Component.ofPart? first = some (leading first) := by
      unfold leading
      split
      · exact absurd rfl (hroot parts)
      · exact absurd rfl (hcurrent parts)
      · rfl
      · next hne hone htwo => exact Component.ofPart?.eq_4 first hne hone htwo
    rw [List.filterMap_cons_some hfirst]

theorem filterMap_dropWhile_isSilent (parts : List Bytes) :
    ((parts.dropWhile isSilent).reverse).filterMap Component.ofPart? =
      parts.reverse.filterMap Component.ofPart? := by
  induction parts with
  | nil => rfl
  | cons part parts ih =>
    by_cases hsilent : isSilent part = true
    · have hpart : Component.ofPart? part = none := by simpa [isSilent] using hsilent
      rw [List.dropWhile_cons_of_pos hsilent, ih, List.reverse_cons, List.filterMap_append]
      simp [hpart]
    · rw [List.dropWhile_cons_of_neg hsilent]

theorem filterMap_eq_nil {parts : List Bytes} (h : parts.reverse.dropWhile isSilent = []) :
    parts.filterMap Component.ofPart? = [] := by
  have hparts := filterMap_dropWhile_isSilent parts.reverse
  rw [h, List.reverse_reverse] at hparts
  exact hparts.symm

/-- What follows the first part, if it stands for anything, ends in a component after which nothing
else is. -/
theorem filterMap_eq_concat {parts above : List Bytes} {part : Bytes}
    (h : parts.reverse.dropWhile isSilent = part :: above) :
    ∃ c, parts.filterMap Component.ofPart? = above.reverse.filterMap Component.ofPart? ++ [c] := by
  have hloud : ¬ isSilent part = true := by
    have := List.head?_dropWhile_not isSilent parts.reverse
    simpa [h] using this
  obtain ⟨c, hc⟩ : ∃ c, Component.ofPart? part = some c := by
    simpa [isSilent, Option.ne_none_iff_exists'] using hloud
  have hparts := filterMap_dropWhile_isSilent parts.reverse
  rw [h, List.reverse_cons, List.filterMap_append, List.reverse_reverse] at hparts
  exact ⟨c, by simp [← hparts, hc]⟩

/-- The parent has the components of the path but the last. -/
theorem components_parent? {p q : Path} (h : p.parent? = some q) :
    q.components = p.components.dropLast := by
  obtain ⟨first, parts, hsplit⟩ := List.exists_cons_of_ne_nil (Text.splitOn_ne_nil slash p.bytes)
  have hslash (part : Bytes) (hp : part ∈ first :: parts) : slash ∉ part :=
    Text.not_mem_of_mem_splitOn (hsplit ▸ hp)
  rw [parent?, hsplit] at h
  dsimp only at h
  split at h
  · next hsilent =>
    have hnone := filterMap_eq_nil hsilent
    split at h
    · cases h
    · next hfirst =>
      obtain rfl : empty = q := Option.some.inj h
      have hne : first ≠ [] := by simpa using hfirst
      rw [components_eq_leading hsplit (.inl hne), hnone]
      rfl
  · next part above hdrop =>
    have hparts : parts ≠ [] := by
      rintro rfl
      cases hdrop
    obtain ⟨c, hlast⟩ := filterMap_eq_concat hdrop
    rw [components_eq_leading hsplit (.inr hparts), hlast, ← List.cons_append,
      List.dropLast_concat, ← filterMap_dropWhile_isSilent]
    have habove (other : Bytes) (ho : other ∈ (above.dropWhile isSilent).reverse) :
        other ∈ parts := by
      have hmem : other ∈ part :: above :=
        List.mem_cons_of_mem _ ((List.dropWhile_sublist _).mem (List.mem_reverse.mp ho))
      rw [← hdrop] at hmem
      exact List.mem_reverse.mp ((List.dropWhile_sublist _).mem hmem)
    generalize (above.dropWhile isSilent).reverse = others at h habove ⊢
    by_cases hempty : first = [] ∧ others = []
    · obtain ⟨rfl, rfl⟩ := hempty
      obtain rfl : root = q := Option.some.inj h
      rfl
    · obtain rfl : ⟨Text.join [slash] (first :: others)⟩ = q := by
        split at h
        · exact absurd ⟨rfl, rfl⟩ hempty
        · exact Option.some.inj h
      have hjoin : Text.splitOn slash (Text.join [slash] (first :: others)) = first :: others :=
        Text.splitOn_join (by simp) fun other ho => by
          rcases List.mem_cons.mp ho with rfl | ho
          · exact hslash other (by simp)
          · exact hslash other (by simp [habove other ho])
      exact components_eq_leading hjoin (Decidable.not_and_iff_or_not.mp hempty)

/-- A path without a parent is the root or empty. -/
theorem length_components_of_parent?_eq_none {p : Path} (h : p.parent? = none) :
    p.components.length ≤ 1 := by
  obtain ⟨first, parts, hsplit⟩ := List.exists_cons_of_ne_nil (Text.splitOn_ne_nil slash p.bytes)
  rw [parent?, hsplit] at h
  dsimp only at h
  split at h
  · next hsilent =>
    have hnone := filterMap_eq_nil hsilent
    by_cases hsome : first ≠ [] ∨ parts ≠ []
    · rw [components_eq_leading hsplit hsome, hnone]
      simp
    · have hempty : Text.splitOn slash p.bytes = [[]] := by
        rw [hsplit]
        simpa using hsome
      simp [components, hempty]
  · split at h <;> cases h

/-- Whether `cs` names something above a path, which is never all of the path and never nothing. -/
def IsAbove (cs : List Component) (p : Path) : Prop :=
  cs ≠ [] ∧ cs <+: p.components ∧ cs ≠ p.components

instance (cs : List Component) (p : Path) : Decidable (IsAbove cs p) :=
  inferInstanceAs (Decidable (_ ∧ _))

/-- What is above a path is its parent or above that. -/
theorem isAbove_iff_of_parent? {p q : Path} (h : p.parent? = some q) {cs : List Component} :
    IsAbove cs p ↔ cs ≠ [] ∧ cs <+: q.components := by
  rw [components_parent? h, IsAbove]
  refine and_congr_right fun hcs => ?_
  obtain hnone | ⟨front, last, hlast⟩ := List.eq_nil_or_concat p.components
  · simp [hnone, hcs]
  · rw [hlast, List.concat_eq_append, List.dropLast_concat, List.prefix_concat_iff]
    constructor
    · rintro ⟨hall | hfront, hne⟩
      · exact absurd hall hne
      · exact hfront
    · intro hfront
      refine ⟨.inr hfront, fun he => ?_⟩
      have := hfront.length_le
      simp only [he, List.length_append, List.length_singleton] at this
      omega

/-- Nothing is above a path without a parent. -/
theorem not_isAbove_of_parent?_eq_none {p : Path} (h : p.parent? = none) {cs : List Component} :
    ¬ IsAbove cs p := by
  rintro ⟨hcs, hpre, hne⟩
  have hlength := length_components_of_parent?_eq_none h
  have hpos : 0 < cs.length := List.length_pos_iff.mpr hcs
  exact hne (hpre.eq_of_length_le (by omega))

/-- The prefixes of a path are what is above it and the path itself. -/
theorem exists_mem_prefixes_iff {p : Path} {cs : List Component} :
    (∃ q ∈ p.prefixes, q.components = cs) ↔ cs ≠ [] ∧ cs <+: p.components := by
  have hcomponents (n : Nat) :
      (ofComponents (p.components.take (n + 1))).components = p.components.take (n + 1) :=
    components_ofComponents (p.isPlain_components.take _)
  constructor
  · rintro ⟨q, hq, rfl⟩
    obtain ⟨n, hn, rfl⟩ := List.mem_map.mp hq
    have hlt : n < p.components.length := List.mem_range.mp hn
    rw [hcomponents]
    refine ⟨fun he => ?_, List.take_prefix _ _⟩
    have hlength := congrArg List.length he
    rw [List.length_take, List.length_nil] at hlength
    omega
  · rintro ⟨hcs, hpre⟩
    have hpos : 0 < cs.length := List.length_pos_iff.mpr hcs
    have hle := hpre.length_le
    refine ⟨_, List.mem_map.mpr ⟨cs.length - 1, List.mem_range.mpr (by omega), rfl⟩, ?_⟩
    rw [hcomponents, Nat.sub_add_cancel hpos]
    exact (List.prefix_iff_eq_take.mp hpre).symm

end Path

end ProjectFile
