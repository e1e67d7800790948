import ProjectFile.Proofs.Path.Normal
import ProjectFile.Proofs.Path.Parent

/-!
Absolute normalized paths. Cleaning keeps a path absolute or relative and leaves none of its
components but those that were there; what it makes of an absolute path is normalized, and a
normalized path is left as it is. So a path seen from an absolute base is normalized, and it stays
the same when it is seen from there again.
-/

namespace ProjectFile

namespace Path

/-- Whether a path is absolute and normalized: names with a slash before each, or only a slash. -/
def IsNormal (p : Path) : Prop :=
  ∃ names, (∀ n ∈ names, IsName n) ∧ p.bytes = slash :: Text.join [slash] names

theorem isNormal_iff {p : Path} :
    p.IsNormal ↔ ∃ names, (∀ n ∈ names, IsName n) ∧ p = ofNames names := by
  refine exists_congr fun names => and_congr_right fun _ => ?_
  rw [← bytes_ofNames]
  exact ⟨fun h => congrArg Path.mk h, fun h => congrArg bytes h⟩

theorem IsNormal.isAbsolute {p : Path} (h : p.IsNormal) : p.isAbsolute = true := by
  obtain ⟨names, -, rfl⟩ := isNormal_iff.mp h
  exact isAbsolute_ofNames names

theorem isNormal_clean {p : Path} (h : p.isAbsolute = true) : p.clean.IsNormal :=
  isNormal_iff.mpr (exists_clean_eq_ofNames h)

/-- An include value names a normalized path in an absolute directory. -/
theorem isNormal_resolveInclude {directory : Path} (h : directory.isAbsolute = true)
    (value : Text) : (directory.resolveInclude value).IsNormal :=
  isNormal_clean (isAbsolute_join h _)

/-- Names are worked off without a change. -/
theorem foldl_collapse_names (names : List Bytes) (above : List Component) :
    (names.map Component.name).foldl collapse above =
      (names.map Component.name).reverse ++ above := by
  induction names generalizing above with
  | nil => rfl
  | cons name names ih =>
    rw [List.map_cons, List.foldl_cons, ih, List.reverse_cons, List.append_assoc]
    rfl

theorem IsNormal.clean_eq {p : Path} (h : p.IsNormal) : p.clean = p := by
  obtain ⟨names, hnames, rfl⟩ := isNormal_iff.mp h
  rw [clean, components_ofNames hnames, normalize, List.foldl_cons]
  change ofComponents ((names.map Component.name).foldl collapse [.root]).reverse = _
  rw [foldl_collapse_names, List.reverse_append, List.reverse_reverse]
  rfl

/-- Working off a component leaves nothing but what was there and that component, which is not
`.`. -/
theorem mem_collapse {above : List Component} {c d : Component} (h : c ∈ collapse above d) :
    c ∈ above ∨ c = d ∧ c ≠ .current := by
  unfold collapse at h
  split at h
  · exact .inl h
  · split at h
    · exact .inl (List.mem_cons_of_mem _ h)
    · exact .inl h
    · rcases List.mem_cons.mp h with rfl | h
      · exact .inr ⟨rfl, by simp⟩
      · exact .inl h
  · next hcurrent _ =>
    rcases List.mem_cons.mp h with rfl | h
    · exact .inr ⟨rfl, hcurrent⟩
    · exact .inl h

theorem mem_foldl_collapse {cs above : List Component} {c : Component}
    (h : c ∈ cs.foldl collapse above) : c ∈ above ∨ c ∈ cs ∧ c ≠ .current := by
  induction cs generalizing above with
  | nil => exact .inl h
  | cons d cs ih =>
    rcases ih h with h | ⟨h, hne⟩
    · rcases mem_collapse h with h | ⟨rfl, hne⟩
      · exact .inl h
      · exact .inr ⟨by simp, hne⟩
    · exact .inr ⟨by simp [h], hne⟩

theorem mem_normalize {cs : List Component} {c : Component} (h : c ∈ normalize cs) :
    c ∈ cs ∧ c ≠ .current := by
  rcases mem_foldl_collapse (List.mem_reverse.mp h) with h | h
  · cases h
  · exact h

theorem leading_eq_root_iff {first : Bytes} : leading first = .root ↔ first = [] := by
  unfold leading
  split <;> simp_all

/-- A path is absolute if the root is its first component. -/
theorem isAbsolute_iff {p : Path} : p.isAbsolute = true ↔ p.components.head? = some .root := by
  constructor
  · intro h
    obtain ⟨cs, hcs, -⟩ := components_of_isAbsolute h
    rw [hcs, List.head?_cons]
  · intro h
    obtain ⟨first, parts, hsplit⟩ := List.exists_cons_of_ne_nil (Text.splitOn_ne_nil slash p.bytes)
    by_cases hsome : first ≠ [] ∨ parts ≠ []
    · rw [components_eq_leading hsplit hsome, List.head?_cons, Option.some.injEq,
        leading_eq_root_iff] at h
      obtain ⟨_ | ⟨c, rest⟩⟩ := p
      · simp_all [Text.splitOn]
      · by_cases hc : c = slash
        · rw [hc]
          rfl
        · rw [Text.splitOn, if_neg hc] at hsplit
          split at hsplit
          · simp_all
          · simp_all
    · have hempty : Text.splitOn slash p.bytes = [[]] := by
        rw [hsplit]
        simpa using hsome
      simp [components, hempty] at h

theorem isInner_of_not_isAbsolute {p : Path} (h : p.isAbsolute ≠ true) {c : Component}
    (hc : c ∈ p.components) (hne : c ≠ .current) : c.IsInner := by
  have hplain := p.isPlain_components
  unfold IsPlain at hplain
  split at hplain
  · next cs hcs => exact absurd (isAbsolute_iff.mpr (by rw [hcs, List.head?_cons])) h
  · next cs hcs =>
    rw [hcs] at hc
    exact hplain c ((List.mem_cons.mp hc).resolve_left hne)
  · exact hplain c hc

theorem isInner_of_mem_normalize {p : Path} (h : p.isAbsolute ≠ true) {c : Component}
    (hc : c ∈ normalize p.components) : c.IsInner :=
  isInner_of_not_isAbsolute h (mem_normalize hc).1 (mem_normalize hc).2

/-- What cleaning makes of a path is absolute if the path is. -/
theorem isAbsolute_clean_iff {p : Path} : p.clean.isAbsolute = true ↔ p.isAbsolute = true := by
  constructor
  · intro h
    refine Decidable.byContradiction fun habsolute => ?_
    have hinner : ∀ c ∈ normalize p.components, c.IsInner := fun c hc =>
      isInner_of_mem_normalize habsolute hc
    rw [isAbsolute_iff, clean, components_ofComponents (isPlain_of_isInner hinner)] at h
    have hroot : Component.root.IsInner := hinner .root (List.mem_of_mem_head? h)
    exact hroot.1 (by simp [Component.bytes])
  · intro h
    exact (isNormal_clean h).isAbsolute

/-- Of the paths only the absolute ones are normalized by cleaning. -/
theorem isNormal_clean_iff {p : Path} : p.clean.IsNormal ↔ p.isAbsolute = true :=
  ⟨fun h => isAbsolute_clean_iff.mp h.isAbsolute, isNormal_clean⟩

end Path

end ProjectFile
