import ProjectFile.Proofs.Path.Names
import ProjectFile.Proofs.Path.Parent

/-!
Paths below a directory. Whatever spelling the directory is given by, what is at some names below it
has the components of the directory and these names after them, so below one directory the names
alone decide which path comes first.
-/

namespace ProjectFile

namespace Path

/-- The path of what is at the names below a directory at `p`. -/
def below (p : Path) (names : List Bytes) : Path := names.foldl child p

@[simp] theorem below_nil (p : Path) : p.below [] = p := rfl

@[simp] theorem below_cons (p : Path) (name : Bytes) (names : List Bytes) :
    p.below (name :: names) = (p.child name).below names := rfl

variable {p : Path} {name : Bytes} {names : List Bytes}

/-- A relative path is written after another path with one separator between them. -/
theorem exists_bytes_join {q : Path} (hp : p.bytes ≠ []) (hq : q.isAbsolute = false) :
    ∃ front, (p.bytes = front ∨ p.bytes = front ++ [slash]) ∧
      (p.join q).bytes = front ++ slash :: q.bytes := by
  have hempty : p.bytes.isEmpty = false := by simpa using hp
  have hjoin : p.join q = if Text.endsWith p.bytes [slash] then ⟨p.bytes ++ q.bytes⟩
      else ⟨p.bytes ++ slash :: q.bytes⟩ := by
    rw [join, hq, hempty]
    rfl
  rw [hjoin]
  split
  · next hend =>
    obtain ⟨front, hfront⟩ := List.isSuffixOf_iff_suffix.mp hend
    exact ⟨front, .inr hfront.symm, by simp [← hfront]⟩
  · exact ⟨p.bytes, .inl rfl, by simp⟩

/-- What is written after a separator adds the components of its parts. -/
theorem components_slash (t u : Bytes) :
    components ⟨t ++ slash :: u⟩ =
      components ⟨t ++ [slash]⟩ ++ (Text.splitOn slash u).filterMap Component.ofPart? := by
  obtain ⟨first, parts, hsplit⟩ := List.exists_cons_of_ne_nil (Text.splitOn_ne_nil slash t)
  have hparts (v : Bytes) : components ⟨t ++ slash :: v⟩ =
      leading first :: (parts ++ Text.splitOn slash v).filterMap Component.ofPart? := by
    apply components_eq_leading
    · rw [Text.splitOn_append, hsplit, List.cons_append]
    · exact .inr (List.append_ne_nil_of_right_ne_nil _ (Text.splitOn_ne_nil slash v))
  rw [hparts, hparts, List.filterMap_append, List.filterMap_append]
  simp [Text.splitOn, Component.ofPart?]

/-- A separator at the end of a path adds nothing. -/
theorem components_concat_slash {t : Bytes} (ht : t ≠ []) :
    components ⟨t ++ [slash]⟩ = components ⟨t⟩ := by
  obtain ⟨first, parts, hsplit⟩ := List.exists_cons_of_ne_nil (Text.splitOn_ne_nil slash t)
  have hsome : first ≠ [] ∨ parts ≠ [] := by
    refine Decidable.not_and_iff_or_not.mp fun ⟨hfirst, hnone⟩ => ht ?_
    exact Text.eq_nil_of_splitOn (by rw [hsplit, hfirst, hnone])
  have hslash : Text.splitOn slash (t ++ [slash]) = first :: (parts ++ [[]]) := by
    rw [Text.splitOn_append, hsplit]
    rfl
  rw [components_eq_leading hslash (by simp), components_eq_leading hsplit hsome,
    List.filterMap_append]
  simp [Component.ofPart?]

/-- A relative path adds the components of its parts to those of the path it is seen from. -/
theorem components_join {q : Path} (hp : p.bytes ≠ []) (hq : q.isAbsolute = false) :
    (p.join q).components =
      p.components ++ (Text.splitOn slash q.bytes).filterMap Component.ofPart? := by
  obtain ⟨front, hfront, hjoin⟩ := exists_bytes_join hp hq
  have hslash : (p.join q).components =
      components ⟨front ++ [slash]⟩ ++
        (Text.splitOn slash q.bytes).filterMap Component.ofPart? := by
    rw [← components_slash, ← hjoin]
  rw [hslash]
  rcases hfront with rfl | hfront
  · rw [components_concat_slash hp]
  · rw [← hfront]

/-- What is in a directory has the components of the directory and its own name. -/
theorem components_child (hp : p.bytes ≠ []) (hname : IsName name) :
    (p.child name).components = p.components ++ [.name name] := by
  have hpart : [name].filterMap Component.ofPart? = [.name name] :=
    List.filterMap_cons_some hname.isInner.2
  rw [child, components_join hp hname.isAbsolute_eq_false,
    Text.splitOn_of_not_mem hname.2.2.2, hpart]

theorem bytes_child_ne_nil (hp : p.bytes ≠ []) (hname : IsName name) :
    (p.child name).bytes ≠ [] := by
  obtain ⟨front, -, hchild⟩ := exists_bytes_join hp hname.isAbsolute_eq_false
  rw [child, hchild]
  simp

theorem components_below (hp : p.bytes ≠ []) (h : ∀ n ∈ names, IsName n) :
    (p.below names).components = p.components ++ names.map .name := by
  induction names generalizing p with
  | nil => simp
  | cons name names ih =>
    have hname := h name (by simp)
    rw [below_cons, ih (bytes_child_ne_nil hp hname) fun n hn => h n (by simp [hn]),
      components_child hp hname]
    simp

theorem isAbsolute_append {t : Bytes} (ht : t ≠ []) (u : Bytes) :
    isAbsolute ⟨t ++ u⟩ = isAbsolute ⟨t⟩ := by
  cases t with
  | nil => exact absurd rfl ht
  | cons c t =>
    rw [List.cons_append, Bool.eq_iff_iff]
    by_cases hc : c = slash
    · subst hc
      exact Iff.rfl
    · simp [isAbsolute, hc]

theorem isAbsolute_child (hp : p.bytes ≠ []) (hname : IsName name) :
    (p.child name).isAbsolute = p.isAbsolute := by
  have hempty : p.bytes.isEmpty = false := by simpa using hp
  rw [child, join, hname.isAbsolute_eq_false, hempty, Bool.or_false, if_neg (by simp)]
  split
  · exact isAbsolute_append hp name
  · exact isAbsolute_append hp (slash :: name)

theorem isAbsolute_below (hp : p.bytes ≠ []) (h : ∀ n ∈ names, IsName n) :
    (p.below names).isAbsolute = p.isAbsolute := by
  induction names generalizing p with
  | nil => rfl
  | cons name names ih =>
    have hname := h name (by simp)
    rw [below_cons, ih (bytes_child_ne_nil hp hname) fun n hn => h n (by simp [hn]),
      isAbsolute_child hp hname]

/-- The parts of the path of what is in a directory are those of the path of the directory, but for
a separator at its end, and the name. -/
theorem exists_splitOn_child (hp : p.bytes ≠ []) (hname : IsName name) : ∃ front,
    (Text.splitOn slash p.bytes = front ∨ Text.splitOn slash p.bytes = front ++ [[]]) ∧
      Text.splitOn slash (p.child name).bytes = front ++ [name] := by
  obtain ⟨front, hfront, hchild⟩ := exists_bytes_join hp hname.isAbsolute_eq_false
  refine ⟨Text.splitOn slash front, ?_, ?_⟩
  · rcases hfront with hfront | hfront
    · exact .inl (by rw [hfront])
    · exact .inr (by rw [hfront, Text.splitOn_append]; rfl)
  · rw [child, hchild, Text.splitOn_append, Text.splitOn_of_not_mem hname.2.2.2]

/-- After a name there is no separator, so every further name only adds itself. -/
theorem splitOn_below {front : List Bytes} (hp : p.bytes ≠ []) (hname : name ≠ [])
    (hsplit : Text.splitOn slash p.bytes = front ++ [name]) (h : ∀ n ∈ names, IsName n) :
    Text.splitOn slash (p.below names).bytes = front ++ name :: names := by
  induction names generalizing p front name with
  | nil => exact hsplit
  | cons n names ih =>
    have hn := h n (by simp)
    obtain ⟨front', hfront, hchild⟩ := exists_splitOn_child hp hn
    have hfront : front ++ [name] = front' := by
      rcases hfront with hfront | hfront
      · exact hsplit.symm.trans hfront
      · rw [hsplit] at hfront
        exact absurd (List.cons.inj (List.append_inj_right' hfront rfl)).1 hname
    rw [below_cons, ih (bytes_child_ne_nil hp hn) hn.1 hchild fun m hm => h m (by simp [hm]),
      ← hfront, List.append_assoc, List.singleton_append]

/-- The parts of a path below a directory are those of the directory, but for a separator at their
end, and the names. -/
theorem exists_splitOn_below (hp : p.bytes ≠ []) (h : ∀ n ∈ names, IsName n) :
    ∃ front silent, (∀ s ∈ silent, s = []) ∧ Text.splitOn slash p.bytes = front ++ silent ∧
      Text.splitOn slash (p.below names).bytes = front ++ names := by
  cases names with
  | nil => exact ⟨Text.splitOn slash p.bytes, [], by simp⟩
  | cons name names =>
    have hname := h name (by simp)
    obtain ⟨front, hfront, hchild⟩ := exists_splitOn_child hp hname
    have hmore : ∀ n ∈ names, IsName n := fun n hn => h n (by simp [hn])
    have hbelow := splitOn_below (bytes_child_ne_nil hp hname) hname.1 hchild hmore
    rcases hfront with hfront | hfront
    · exact ⟨front, [], by simp, by simp [hfront], hbelow⟩
    · exact ⟨front, [[]], by simp, hfront, hbelow⟩

/-- Where two paths below a directory part, their names decide which one comes first. -/
theorem below_lt (hp : p.bytes ≠ []) (names : List Bytes) {rest rest' : List Bytes} {a b : Bytes}
    (hleft : ∀ n ∈ names ++ a :: rest, IsName n) (hright : ∀ n ∈ names ++ b :: rest', IsName n)
    (h : Component.name a < .name b) :
    p.below (names ++ a :: rest) < p.below (names ++ b :: rest') := by
  change (p.below _).components < (p.below _).components
  rw [components_below hp hleft, components_below hp hright]
  simp only [List.map_append, List.map_cons, ← List.append_assoc]
  generalize p.components ++ names.map Component.name = cs
  induction cs with
  | nil => exact List.cons_lt_cons_iff.mpr (.inl h)
  | cons c cs ih => exact List.cons_lt_cons_iff.mpr (.inr ⟨rfl, ih⟩)

theorem below_ofNames (h : ∀ n ∈ names, IsName n) {more : List Bytes}
    (hmore : ∀ n ∈ more, IsName n) : (ofNames names).below more = ofNames (names ++ more) := by
  induction more generalizing names with
  | nil => simp
  | cons name more ih =>
    have hname := hmore name (by simp)
    rw [below_cons, child_ofNames h hname, ih _ fun n hn => hmore n (by simp [hn])]
    · simp
    · exact List.forall_mem_append.mpr ⟨h, List.forall_mem_singleton.mpr hname⟩

end Path

end ProjectFile
