import ProjectFile.Path.Basic

/-!
Plain paths. The components of a path are a plain sequence, any part of it from the start is plain
too, and the plain path of such a sequence has just its components. So the prefixes of a path rise
in path order.
-/

namespace ProjectFile

namespace Path

/-- Whether a component can follow others: it is what the part that stands for it stands for. -/
def Component.IsInner (c : Component) : Prop := slash ∉ c.bytes ∧ Component.ofPart? c.bytes = some c

/-- Whether a path can have the components: the root and `.` come first or not at all. -/
def IsPlain : List Component → Prop
  | .root :: cs => ∀ c ∈ cs, c.IsInner
  | .current :: cs => ∀ c ∈ cs, c.IsInner
  | cs => ∀ c ∈ cs, c.IsInner

theorem Component.bytes_of_ofPart? {part : Bytes} {c : Component} (h : ofPart? part = some c) :
    c.bytes = part := by
  unfold ofPart? at h
  split at h <;> simp at h <;> subst h <;> rfl

theorem Component.isInner_of_ofPart? {part : Bytes} {c : Component} (hpart : slash ∉ part)
    (h : ofPart? part = some c) : c.IsInner := by
  have ht := bytes_of_ofPart? h
  exact ⟨ht ▸ hpart, by rw [ht, h]⟩

/-- The components read from parts of a split path follow others. -/
theorem Component.isInner_of_mem {t : Bytes} {parts : List Bytes}
    (h : ∀ part ∈ parts, part ∈ Text.splitOn slash t) {c : Component}
    (hc : c ∈ parts.filterMap ofPart?) : c.IsInner := by
  obtain ⟨part, hp, hc⟩ := List.mem_filterMap.mp hc
  exact isInner_of_ofPart? (Text.not_mem_of_mem_splitOn (h part hp)) hc

theorem isPlain_of_isInner {cs : List Component} (h : ∀ c ∈ cs, c.IsInner) : IsPlain cs := by
  unfold IsPlain
  split
  · exact fun c hc => h c (by simp [hc])
  · exact fun c hc => h c (by simp [hc])
  · exact h

/-- What a path has for components is a plain sequence. -/
theorem isPlain_components (p : Path) : IsPlain p.components := by
  unfold components
  split
  · exact isPlain_of_isInner (by simp)
  · next parts _ h =>
    have hmem (part : Bytes) (hp : part ∈ parts) : part ∈ Text.splitOn slash p.bytes := by
      simp [h, hp]
    exact fun c => Component.isInner_of_mem hmem
  · next parts h =>
    have hmem (part : Bytes) (hp : part ∈ parts) : part ∈ Text.splitOn slash p.bytes := by
      simp [h, hp]
    exact fun c => Component.isInner_of_mem hmem
  · exact isPlain_of_isInner fun c => Component.isInner_of_mem fun part hp => hp

theorem IsPlain.take {cs : List Component} (h : IsPlain cs) (n : Nat) : IsPlain (cs.take n) := by
  match n, cs, h with
  | 0, _, _ => exact isPlain_of_isInner (by simp)
  | _ + 1, [], _ => exact isPlain_of_isInner (by simp)
  | _ + 1, .root :: _, h => exact fun c hc => h c (List.mem_of_mem_take hc)
  | _ + 1, .current :: _, h => exact fun c hc => h c (List.mem_of_mem_take hc)
  | _ + 1, .parent :: _, h => exact isPlain_of_isInner fun c hc => h c (List.mem_of_mem_take hc)
  | _ + 1, .name _ :: _, h => exact isPlain_of_isInner fun c hc => h c (List.mem_of_mem_take hc)

/-- Components that follow others are read back from their parts. -/
theorem filterMap_ofPart? {cs : List Component} (h : ∀ c ∈ cs, c.IsInner) :
    (cs.map Component.bytes).filterMap Component.ofPart? = cs := by
  rw [List.filterMap_map]
  induction cs with
  | nil => rfl
  | cons c cs ih =>
    have hc : (Component.ofPart? ∘ Component.bytes) c = some c := (h c (by simp)).2
    rw [List.filterMap_cons_some hc, ih fun d hd => h d (by simp [hd])]

/-- The plain path of a sequence of components has these components. -/
theorem components_ofComponents {cs : List Component} (h : IsPlain cs) :
    (ofComponents cs).components = cs := by
  have split (cs : List Component) (hne : cs ≠ []) (h : ∀ c ∈ cs, slash ∉ c.bytes) :
      Text.splitOn slash (Text.join [slash] (cs.map Component.bytes)) = cs.map Component.bytes :=
    Text.splitOn_join (by simpa using hne) (by simpa using h)
  match cs, h with
  | [], _ => rfl
  | [.root], _ => rfl
  | .root :: c :: cs, h =>
    have h : ∀ d ∈ c :: cs, d.IsInner := h
    simp only [ofComponents, components, Text.splitOn]
    rw [if_pos trivial, split (c :: cs) (by simp) fun d hd => (h d hd).1]
    simpa using filterMap_ofPart? h
  | .current :: cs, h =>
    have h : ∀ d ∈ cs, d.IsInner := h
    have hsplit := split (.current :: cs) (by simp) fun d hd => by
      rcases List.mem_cons.mp hd with rfl | hd
      · decide
      · exact (h d hd).1
    simp only [ofComponents, components]
    rw [hsplit]
    exact congrArg (List.cons Component.current) (filterMap_ofPart? h)
  | .parent :: cs, h =>
    have h : ∀ d ∈ Component.parent :: cs, d.IsInner := h
    simp only [ofComponents, components]
    rw [split _ (by simp) fun d hd => (h d hd).1]
    exact filterMap_ofPart? h
  | .name t :: cs, h =>
    have h : ∀ d ∈ Component.name t :: cs, d.IsInner := h
    have ht := (h (.name t) (by simp)).2
    simp only [ofComponents, components]
    rw [split _ (by simp) fun d hd => (h d hd).1]
    split
    · next heq => simp_all [Component.bytes, Component.ofPart?]
    · next heq => simp_all [Component.bytes, Component.ofPart?]
    · next heq => simp_all [Component.bytes, Component.ofPart?]
    · exact filterMap_ofPart? h

/-- A sequence comes after those that it continues. -/
theorem lt_append {cs ds : List Component} (h : ds ≠ []) : cs < cs ++ ds := by
  induction cs with
  | nil =>
    cases ds with
    | nil => exact absurd rfl h
    | cons d ds => exact List.nil_lt_cons d ds
  | cons c cs ih => exact List.cons_lt_cons_iff.mpr (.inr ⟨rfl, ih⟩)

/-- Each prefix of a path comes before the longer ones. -/
theorem pairwise_prefixes (p : Path) : p.prefixes.Pairwise (· < ·) := by
  have hplain := p.isPlain_components
  unfold prefixes
  refine List.pairwise_map.mpr (List.pairwise_lt_range.imp_of_mem fun {m n} _ hn hlt => ?_)
  change (ofComponents _).components < (ofComponents _).components
  rw [components_ofComponents (hplain.take _), components_ofComponents (hplain.take _)]
  have hn : n < p.components.length := List.mem_range.mp hn
  have h := List.take_append_drop (m + 1) (p.components.take (n + 1))
  rw [List.take_take, Nat.min_eq_left (by omega)] at h
  rw [← h]
  refine lt_append fun he => ?_
  have := congrArg List.length he
  simp at this
  omega

end Path

end ProjectFile
