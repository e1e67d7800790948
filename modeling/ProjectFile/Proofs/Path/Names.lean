import ProjectFile.Path.Lemmas

/-!
Normalized absolute paths by the names on them. A list of names has one path, the path has these
names as its components after the root, and a child of it has one name more.
-/

namespace ProjectFile

theorem Text.join_concat {α : Type} {separator : α} {parts : List (List α)} (h : parts ≠ [])
    (part : List α) :
    join [separator] (parts ++ [part]) = join [separator] parts ++ separator :: part := by
  induction parts with
  | nil => exact absurd rfl h
  | cons first parts ih =>
    cases parts with
    | nil => rw [join_singleton, List.singleton_append, join_cons_cons, join_singleton]; simp
    | cons second parts =>
      have ih := ih (by simp)
      rw [List.cons_append] at ih
      rw [List.cons_append, List.cons_append, join_cons_cons, ih, join_cons_cons]
      simp

namespace Path

/-- Whether bytes can be the name of something in a directory. -/
def IsName (t : Bytes) : Prop := t ≠ [] ∧ t ≠ [dot] ∧ t ≠ [dot, dot] ∧ slash ∉ t

instance (t : Bytes) : Decidable (IsName t) := inferInstanceAs (Decidable (_ ∧ _))

/-- The absolute path on which the names stand one after another. -/
def ofNames (names : List Bytes) : Path := ofComponents (.root :: names.map .name)

theorem IsName.isInner {t : Bytes} (h : IsName t) : (Component.name t).IsInner := by
  obtain ⟨hempty, hcurrent, hparent, hslash⟩ := h
  refine ⟨hslash, ?_⟩
  change Component.ofPart? t = some (.name t)
  unfold Component.ofPart?
  split
  · exact absurd rfl hempty
  · exact absurd rfl hcurrent
  · exact absurd rfl hparent
  · rfl

theorem bytes_ofNames (names : List Bytes) :
    (ofNames names).bytes = slash :: Text.join [slash] names := by
  simp only [ofNames, ofComponents, List.map_map]
  rw [show Component.bytes ∘ Component.name = id from rfl, List.map_id]

variable {names : List Bytes}

theorem components_ofNames (h : ∀ n ∈ names, IsName n) :
    (ofNames names).components = .root :: names.map .name := by
  refine components_ofComponents fun c hc => ?_
  obtain ⟨n, hn, rfl⟩ := List.mem_map.mp hc
  exact (h n hn).isInner

theorem components_ofNames_eq_iff {others : List Bytes} (h : ∀ n ∈ names, IsName n) :
    (ofNames names).components = .root :: others.map .name ↔ names = others := by
  rw [components_ofNames h, List.cons.injEq, List.map_inj_right fun _ _ => Component.name.inj]
  simp

/-- The parts of an absolute path are its names, after the empty part before the first separator. -/
theorem splitOn_ofNames (hne : names ≠ []) (h : ∀ n ∈ names, IsName n) :
    Text.splitOn slash (ofNames names).bytes = [] :: names := by
  rw [bytes_ofNames, Text.splitOn, if_pos rfl]
  exact congrArg _ (Text.splitOn_join hne fun n hn => (h n hn).2.2.2)

theorem exists_bytes_ofNames_concat (names : List Bytes) (name : Bytes) :
    ∃ front, (ofNames (names ++ [name])).bytes = front ++ slash :: name := by
  rw [bytes_ofNames]
  by_cases hne : names = []
  · exact ⟨[], by simp [hne]⟩
  · exact ⟨slash :: Text.join [slash] names, by rw [Text.join_concat hne]; rfl⟩

theorem not_endsWith_ofNames (hne : names ≠ []) (h : ∀ n ∈ names, IsName n) :
    Text.endsWith (ofNames names).bytes [slash] = false := by
  obtain ⟨above, last, rfl⟩ := List.eq_nil_or_concat names |>.resolve_left hne
  obtain ⟨hempty, -, -, hslash⟩ := h last (by simp)
  obtain ⟨front, hfront⟩ := exists_bytes_ofNames_concat above last
  rw [List.concat_eq_append, hfront, Text.endsWith, ← Bool.not_eq_true,
    List.isSuffixOf_iff_suffix]
  rintro ⟨rest, hrest⟩
  have hlast := congrArg List.getLast? hrest
  rw [List.getLast?_append, List.getLast?_append, List.getLast?_cons_of_ne_nil hempty,
    List.getLast?_eq_some_getLast hempty] at hlast
  have he : slash = last.getLast hempty := Option.some.inj hlast
  exact hslash (he ▸ List.getLast_mem hempty)

theorem IsName.isAbsolute_eq_false {name : Bytes} (h : IsName name) :
    isAbsolute ⟨name⟩ = false := by
  unfold isAbsolute
  split
  · next rest he => exact absurd (by simp [show name = _ from he]) h.2.2.2
  · rfl

/-- What is in a directory has the names of the directory and its own. -/
theorem child_ofNames {name : Bytes} (h : ∀ n ∈ names, IsName n) (hname : IsName name) :
    (ofNames names).child name = ofNames (names ++ [name]) := by
  have hsome : (ofNames names).bytes.isEmpty = false := by simp [bytes_ofNames]
  rw [child, join, hname.isAbsolute_eq_false, hsome]
  by_cases hne : names = []
  · subst hne
    simp [ofNames, ofComponents, Text.join, Text.endsWith, Component.bytes]
  · rw [not_endsWith_ofNames hne h]
    change Path.mk ((ofNames names).bytes ++ slash :: name) = _
    rw [Path.mk.injEq, bytes_ofNames, bytes_ofNames, Text.join_concat hne]
    simp

/-- Names come in the order of their bytes. -/
theorem Component.name_lt_name_iff {a b : Bytes} : Component.name a < .name b ↔ a < b := by
  change 3 :: a < 3 :: b ↔ a < b
  simp

end Path

end ProjectFile
