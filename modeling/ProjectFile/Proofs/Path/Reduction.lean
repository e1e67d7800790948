import Mathlib.Logic.Relation
import ProjectFile.Proofs.Path.Absolute
import ProjectFile.Proofs.Path.Below

/-!
Lexical normal forms. A sequence of components gets shorter by three kinds of steps: `.` drops out,
a name drops out with the `..` after it, and `..` drops out after the root. Working off a sequence
takes such steps until none is left to take, and no step makes a difference to where this ends. So
two paths are cleaned to the same path exactly if steps, forward and back, lead from one to the
other.
-/

namespace ProjectFile

namespace Path

/-- One step that makes a sequence of components shorter. -/
inductive Reduces : List Component → List Component → Prop
  | current (before after : List Component) :
      Reduces (before ++ .current :: after) (before ++ after)
  | parent (before after : List Component) (name : Bytes) :
      Reduces (before ++ .name name :: .parent :: after) (before ++ after)
  | root (before after : List Component) :
      Reduces (before ++ .root :: .parent :: after) (before ++ .root :: after)

/-- A step makes no difference to what is left when the components are worked off. -/
theorem Reduces.foldl_eq {cs ds : List Component} (h : Reduces cs ds) (above : List Component) :
    cs.foldl collapse above = ds.foldl collapse above := by
  cases h with
  | current before after =>
    rw [List.foldl_append, List.foldl_append]
    rfl
  | parent before after name =>
    rw [List.foldl_append, List.foldl_append]
    rfl
  | root before after =>
    rw [List.foldl_append, List.foldl_append]
    rfl

/-- Working off one component takes at most one step. -/
theorem reduces_collapse (above : List Component) (c : Component) (cs : List Component) :
    Relation.ReflTransGen Reduces (above.reverse ++ c :: cs)
      ((collapse above c).reverse ++ cs) := by
  have keep (d : Component) : Relation.ReflTransGen Reduces (above.reverse ++ d :: cs)
      ((d :: above).reverse ++ cs) := by
    rw [List.reverse_cons, List.append_assoc]
    exact .refl
  cases c with
  | root => exact keep .root
  | current => exact .single (.current above.reverse cs)
  | name t => exact keep (.name t)
  | parent =>
    match above with
    | [] => exact .refl
    | .name t :: rest =>
      rw [List.reverse_cons, List.append_assoc]
      exact .single (.parent rest.reverse cs t)
    | .root :: rest =>
      change Relation.ReflTransGen Reduces _ ((Component.root :: rest).reverse ++ cs)
      rw [List.reverse_cons, List.append_assoc, List.append_assoc]
      exact .single (.root rest.reverse cs)
    | .current :: rest => exact keep .parent
    | .parent :: rest => exact keep .parent

/-- Steps lead from a sequence to what is left of it. -/
theorem reduces_normalize (cs : List Component) :
    Relation.ReflTransGen Reduces cs (normalize cs) := by
  suffices h : ∀ above : List Component, Relation.ReflTransGen Reduces (above.reverse ++ cs)
      (cs.foldl collapse above).reverse from h []
  induction cs with
  | nil =>
    intro above
    rw [List.append_nil]
    exact .refl
  | cons c cs ih =>
    intro above
    exact (reduces_collapse above c cs).trans (ih (collapse above c))

theorem eqvGen_normalize (cs : List Component) : Relation.EqvGen Reduces cs (normalize cs) :=
  Relation.EqvGen.reflTransGen_le_eqvGen Reduces cs (normalize cs) (reduces_normalize cs)

/-- The same is left of two sequences exactly if steps lead from one to the other. -/
theorem eqvGen_reduces_iff {cs ds : List Component} :
    Relation.EqvGen Reduces cs ds ↔ normalize cs = normalize ds := by
  constructor
  · intro h
    induction h with
    | rel cs ds step => exact congrArg List.reverse (step.foldl_eq [])
    | refl cs => rfl
    | symm cs ds _ ih => exact ih.symm
    | trans cs ds es _ _ first second => exact first.trans second
  · intro h
    have hds := eqvGen_normalize ds
    rw [← h] at hds
    exact .trans _ _ _ (eqvGen_normalize cs) (.symm _ _ hds)

theorem normalize_normalize (cs : List Component) : normalize (normalize cs) = normalize cs :=
  (eqvGen_reduces_iff.mp (eqvGen_normalize cs)).symm

theorem Reduces.length_lt {cs ds : List Component} (h : Reduces cs ds) :
    ds.length < cs.length := by
  cases h with
  | current before after => simp
  | parent before after name =>
    simp only [List.length_append, List.length_cons]
    omega
  | root before after => simp

theorem length_le_of_reduces {cs ds : List Component} (h : Relation.ReflTransGen Reduces cs ds) :
    ds.length ≤ cs.length := by
  induction h with
  | refl => exact Nat.le_refl _
  | tail _ step ih =>
    have hlt := step.length_lt
    omega

/-- There is no step to take from what is left: it would lead to something shorter of which the same
is left. -/
theorem not_reduces_normalize (cs ds : List Component) : ¬ Reduces (normalize cs) ds := by
  intro step
  have hds : normalize (normalize cs) = normalize ds := eqvGen_reduces_iff.mp (.rel _ _ step)
  have hle := length_le_of_reduces (reduces_normalize ds)
  rw [← hds, normalize_normalize] at hle
  have hlt := step.length_lt
  omega

/-- What is left of a relative path while it is worked off: names, the last one first, and then the
steps up that no name was there for. -/
def IsClimb (above : List Component) : Prop :=
  ∃ (names : List Bytes) (ups : Nat), (∀ n ∈ names, IsName n) ∧
    above = names.map .name ++ List.replicate ups .parent

theorem IsClimb.collapse {above : List Component} (h : IsClimb above) {c : Component}
    (hc : c ≠ .current → c.IsInner) : IsClimb (Path.collapse above c) := by
  obtain ⟨names, ups, hnames, rfl⟩ := h
  cases c with
  | root => exact absurd (by simp [Component.bytes]) (hc (by simp)).1
  | current => exact ⟨names, ups, hnames, rfl⟩
  | name t =>
    refine ⟨t :: names, ups, fun n hn => ?_, rfl⟩
    rcases List.mem_cons.mp hn with rfl | hn
    · exact (hc (by simp)).isName
    · exact hnames n hn
  | parent =>
    cases names with
    | cons last names => exact ⟨names, ups, fun n hn => hnames n (by simp [hn]), rfl⟩
    | nil =>
      refine ⟨[], ups + 1, by simp, ?_⟩
      cases ups with
      | zero => rfl
      | succ ups => rfl

/-- Of a relative path steps up are left and names after them. -/
theorem exists_normalize_of_not_isAbsolute {p : Path} (h : p.isAbsolute ≠ true) :
    ∃ (ups : Nat) (names : List Bytes), (∀ n ∈ names, IsName n) ∧
      normalize p.components = List.replicate ups .parent ++ names.map .name := by
  have hclimb : ∀ (cs above : List Component), IsClimb above →
      (∀ c ∈ cs, c ≠ .current → c.IsInner) → IsClimb (cs.foldl collapse above) := by
    intro cs
    induction cs with
    | nil => exact fun above habove _ => habove
    | cons c cs ih =>
      intro above habove hcs
      exact ih _ (habove.collapse (hcs c (by simp))) fun d hd => hcs d (by simp [hd])
  obtain ⟨names, ups, hnames, hfold⟩ := hclimb p.components [] ⟨[], 0, by simp, rfl⟩
    fun c hc => isInner_of_not_isAbsolute h hc
  refine ⟨ups, names.reverse, fun n hn => hnames n (by simpa using hn), ?_⟩
  rw [normalize, hfold, List.reverse_append, List.reverse_replicate, List.map_reverse]

theorem isPlain_normalize (p : Path) : IsPlain (normalize p.components) := by
  by_cases h : p.isAbsolute = true
  · obtain ⟨names, hnames, hnormal⟩ := exists_normalize_of_isAbsolute h
    rw [hnormal]
    intro c hc
    obtain ⟨n, hn, rfl⟩ := List.mem_map.mp hc
    exact (hnames n hn).isInner
  · apply isPlain_of_isInner
    intro c hc
    exact isInner_of_mem_normalize h hc

/-- A cleaned path has the components that are left of the path. -/
theorem components_clean (p : Path) : p.clean.components = normalize p.components :=
  components_ofComponents p.isPlain_normalize

theorem clean_eq_clean_iff {p q : Path} :
    p.clean = q.clean ↔ normalize p.components = normalize q.components := by
  constructor
  · intro h
    rw [← components_clean, ← components_clean, h]
  · intro h
    rw [clean, clean, h]

theorem clean_clean (p : Path) : p.clean.clean = p.clean := by
  rw [clean_eq_clean_iff, components_clean, normalize_normalize]

/-- Whether a path is in lexical normal form: no part of it is `.`, after a separator stands a part
that is not empty, so that only the root ends with a separator, and `..` comes first or not at all,
not even that in an absolute path. -/
structure IsLexicallyNormal (p : Path) : Prop where
  current : [dot] ∉ Text.splitOn slash p.bytes
  filled : [] ∈ (Text.splitOn slash p.bytes).tail → p = root
  closed : Text.endsWith p.bytes [slash] = true → p = root
  parents : ∃ (ups : Nat) (names : List Bytes), (∀ n ∈ names, IsName n) ∧
    (p.components = .root :: names.map .name ∨
      p.components = List.replicate ups .parent ++ names.map .name)

theorem isLexicallyNormal_ofNames {names : List Bytes} (h : ∀ n ∈ names, IsName n) :
    (ofNames names).IsLexicallyNormal := by
  by_cases hne : names = []
  · subst hne
    exact ⟨by decide, fun _ => rfl, fun _ => rfl, 0, [], by simp, .inl (by decide)⟩
  · have hsplit := splitOn_ofNames hne h
    have hfilled : [] ∉ (Text.splitOn slash (ofNames names).bytes).tail := by
      rw [hsplit]
      exact fun hmem => (h [] hmem).1 rfl
    refine ⟨?_, fun hmem => absurd hmem hfilled,
      fun hend => absurd (Text.mem_tail_splitOn_of_endsWith hend) hfilled,
      0, names, h, .inl (components_ofNames h)⟩
    rw [hsplit]
    intro hmem
    rcases List.mem_cons.mp hmem with he | hmem
    · cases he
    · exact (h _ hmem).2.1 rfl

theorem Component.IsInner.bytes_ne {c : Component} (h : c.IsInner) :
    c.bytes ≠ [] ∧ c.bytes ≠ [dot] := by
  obtain ⟨-, hpart⟩ := h
  constructor
  · intro he
    rw [he] at hpart
    cases hpart
  · intro he
    rw [he] at hpart
    cases hpart

/-- The parts of a relative plain path are those of its components. -/
theorem splitOn_ofComponents {cs : List Component} (hne : cs ≠ []) (h : ∀ c ∈ cs, c.IsInner) :
    Text.splitOn slash (ofComponents cs).bytes = cs.map Component.bytes := by
  have hbytes : (ofComponents cs).bytes = Text.join [slash] (cs.map Component.bytes) := by
    unfold ofComponents
    split
    · exact absurd (by simp [Component.bytes]) (h .root (by simp)).1
    · rfl
  rw [hbytes]
  exact Text.splitOn_join (by simpa using hne) (by simpa using fun c hc => (h c hc).1)

/-- In a relative plain path no part is `.`, and none after a separator is empty. -/
theorem spelling_ofComponents {cs : List Component} (h : ∀ c ∈ cs, c.IsInner) :
    [dot] ∉ Text.splitOn slash (ofComponents cs).bytes ∧
      [] ∉ (Text.splitOn slash (ofComponents cs).bytes).tail := by
  by_cases hne : cs = []
  · subst hne
    decide
  · rw [splitOn_ofComponents hne h]
    constructor
    · intro hmem
      obtain ⟨c, hc, hbytes⟩ := List.mem_map.mp hmem
      exact (h c hc).bytes_ne.2 hbytes
    · intro hmem
      obtain ⟨c, hc, hbytes⟩ := List.mem_map.mp (List.mem_of_mem_tail hmem)
      exact (h c hc).bytes_ne.1 hbytes

theorem isLexicallyNormal_clean (p : Path) : p.clean.IsLexicallyNormal := by
  by_cases h : p.isAbsolute = true
  · obtain ⟨names, hnames, hclean⟩ := exists_clean_eq_ofNames h
    rw [hclean]
    exact isLexicallyNormal_ofNames hnames
  · obtain ⟨ups, names, hnames, hnormal⟩ := exists_normalize_of_not_isAbsolute h
    obtain ⟨hcurrent, hfilled⟩ := spelling_ofComponents fun c hc => isInner_of_mem_normalize h hc
    refine ⟨hcurrent, fun hmem => absurd hmem hfilled, fun hend => ?_, ups, names, hnames, .inr ?_⟩
    · exact absurd (Text.mem_tail_splitOn_of_endsWith hend) hfilled
    · rw [components_clean, hnormal]

/-- Cleaning gives the lexical normal form of a path: steps lead to it and none leads on, two paths
have the same one exactly if steps lead from the components of one to those of the other, it is
absolute if the path is, and cleaning it again changes nothing. -/
theorem clean_normalForm (p : Path) :
    (Relation.ReflTransGen Reduces p.components p.clean.components ∧
      ∀ cs, ¬ Reduces p.clean.components cs) ∧
    (∀ q : Path, (p.clean = q.clean ↔ Relation.EqvGen Reduces p.components q.components) ∧
      (p.clean.components = q.clean.components ↔ p.clean = q.clean)) ∧
    (p.clean.isAbsolute = true ↔ p.isAbsolute = true) ∧ p.clean.IsLexicallyNormal ∧
    p.clean.clean = p.clean := by
  have hcomponents (q : Path) : p.clean.components = q.clean.components ↔ p.clean = q.clean := by
    rw [components_clean, components_clean, clean_eq_clean_iff]
  refine ⟨?_, fun q => ⟨?_, hcomponents q⟩, isAbsolute_clean_iff, p.isLexicallyNormal_clean,
    p.clean_clean⟩
  · rw [components_clean]
    exact ⟨reduces_normalize _, not_reduces_normalize _⟩
  · rw [clean_eq_clean_iff, eqvGen_reduces_iff]

end Path

end ProjectFile
