import Mathlib.Data.List.Forall2
import ProjectFile.Proofs.Path.Reduction
import ProjectFile.Proofs.Text.Boundary
import ProjectFile.Proofs.Text.Marks
import ProjectFile.Proofs.Text.Trim

/-!
Paths that are seen from other paths. The components of a relative path are worked off after those
of the path that it is seen from, so it does not matter whether that one has been cleaned, and going
down by two values one after the other leads where the two values with a separator between them
lead. Of an `Include` value neither the white space around it counts nor which slash is written.
-/

namespace ProjectFile

/-- Whether two texts are the same but for which of the two slashes stands where. -/
def Text.SameButSlashes (s t : Text) : Prop :=
  List.Forall₂ (fun c d => c = d ∨ (c = '/' ∨ c = '\\') ∧ (d = '/' ∨ d = '\\')) s t

namespace Path

/-- After other components those of a relative path count as its parts do. -/
theorem foldl_collapse_components {q : Path} (hq : q.isAbsolute = false) (above : List Component) :
    q.components.foldl collapse above =
      ((Text.splitOn slash q.bytes).filterMap Component.ofPart?).foldl collapse above := by
  unfold components
  split
  · next hsplit =>
    rw [hsplit]
    rfl
  · next parts hnot hsplit =>
    have hparts : parts ≠ [] := by
      rintro rfl
      exact hnot rfl
    have hroot : q.components.head? = some .root := by
      rw [components_eq_leading hsplit (.inr hparts)]
      rfl
    rw [isAbsolute_iff.mpr hroot] at hq
    cases hq
  · next hsplit =>
    rw [hsplit]
    rfl
  · rfl

theorem normalize_append (cs ds : List Component) :
    normalize (cs ++ ds) = (ds.foldl collapse (cs.foldl collapse [])).reverse := by
  rw [normalize, List.foldl_append]

theorem normalize_append_components (cs : List Component) {q : Path} (hq : q.isAbsolute = false) :
    normalize (cs ++ q.components) =
      normalize (cs ++ (Text.splitOn slash q.bytes).filterMap Component.ofPart?) := by
  rw [normalize_append, normalize_append, foldl_collapse_components hq]

theorem normalize_append_left (cs ds : List Component) :
    normalize (normalize cs ++ ds) = normalize (cs ++ ds) := by
  have hleft : (normalize cs).foldl collapse [] = cs.foldl collapse [] :=
    List.reverse_inj.mp (normalize_normalize cs)
  rw [normalize_append, normalize_append, hleft]

theorem join_of_isAbsolute (p : Path) {q : Path} (hq : q.isAbsolute = true) : p.join q = q := by
  rw [join, hq]
  rfl

theorem normalize_join (p : Path) {q : Path} (hq : q.isAbsolute = false) :
    normalize (p.join q).components = normalize (p.components ++ q.components) := by
  by_cases hp : p.bytes = []
  · have hjoin : p.join q = q := by simp [join, hp]
    have hcomponents : p.components = [] := by simp [components, hp, Text.splitOn]
    rw [hjoin, hcomponents, List.nil_append]
  · rw [components_join hp hq, normalize_append_components _ hq]

/-- A path leads to the same from a path and from that path cleaned. -/
theorem clean_join_clean (p q : Path) : (p.clean.join q).clean = (p.join q).clean := by
  cases hq : q.isAbsolute with
  | true => rw [join_of_isAbsolute _ hq, join_of_isAbsolute _ hq]
  | false =>
    rw [clean_eq_clean_iff, normalize_join _ hq, normalize_join _ hq, components_clean,
      normalize_append_left]

/-- Going on by a relative path leads where both paths written as one lead. -/
theorem clean_join_join (p : Path) {t : Bytes} (ht : t ≠ []) {r : Path}
    (hr : r.isAbsolute = false) :
    ((p.join ⟨t⟩).join r).clean = (p.join ⟨t ++ slash :: r.bytes⟩).clean := by
  have hcomponents : components ⟨t ++ slash :: r.bytes⟩ =
      components ⟨t⟩ ++ (Text.splitOn slash r.bytes).filterMap Component.ofPart? := by
    rw [components_slash, components_concat_slash ht]
  have habsolute := isAbsolute_append ht (slash :: r.bytes)
  rw [clean_eq_clean_iff, normalize_join _ hr]
  cases hq : isAbsolute ⟨t⟩ with
  | true =>
    rw [join_of_isAbsolute _ hq, join_of_isAbsolute _ (habsolute.trans hq), hcomponents,
      normalize_append_components _ hr]
  | false =>
    rw [normalize_join _ (habsolute.trans hq), hcomponents, ← List.append_assoc,
      ← normalize_append_components _ hr, ← normalize_append_left (p.join ⟨t⟩).components,
      normalize_join _ hq, normalize_append_left]

theorem slashes_eq_of_sameButSlashes {s t : Text} (h : Text.SameButSlashes s t) :
    slashes s = slashes t := by
  unfold slashes Text.replace
  induction h with
  | nil => rfl
  | cons hcd _ ih =>
    rw [List.map_cons, List.map_cons, ih]
    rcases hcd with rfl | ⟨rfl | rfl, rfl | rfl⟩ <;> rfl

theorem trim_slashes (t : Text) : (slashes t).trim = slashes t.trim := by
  refine Text.trim_map (fun c => ?_) t
  split
  · next hc => rw [hc]; rfl
  · rfl

/-- Which slash is written does not matter, as it does not for the white space around a value. -/
theorem resolveInclude_eq (directory : Path) (value : Text) :
    directory.resolveInclude value = (directory.join (.ofText (slashes value).trim)).clean := by
  rw [trim_slashes]
  rfl

theorem isAbsolute_ofText_cons {c : Char} (hc : c ≠ '/') {t : Text} :
    (ofText (c :: t)).isAbsolute = false := by
  obtain ⟨first, more, hchar, -⟩ := Text.encodeChar_eq_cons c
  have hfirst : first ≠ slash := by
    rintro rfl
    exact Text.not_mem_encodeChar (c := '/') (by decide) hc (hchar ▸ List.mem_cons_self)
  rw [ofText, Text.encode_cons, hchar]
  simp [isAbsolute, hfirst]

theorem isAbsolute_slashes {t : Text} (h : ∀ c ∈ t.head?, c ≠ '/' ∧ c ≠ '\\') :
    (ofText (slashes t)).isAbsolute = false := by
  cases t with
  | nil => rfl
  | cons c t =>
    obtain ⟨hslash, hback⟩ := h c rfl
    have hcons : slashes (c :: t) = c :: slashes t := by simp [slashes, Text.replace, hback]
    rw [hcons]
    exact isAbsolute_ofText_cons hslash

theorem bytes_ofText_slash (s t : Text) :
    (ofText (s ++ '/' :: t)).bytes = s.encode ++ slash :: t.encode := by
  rw [ofText, Text.encode_append, Text.encode_cons]
  rfl

/-- An `Include` value leads to the same path from a directory and from that directory cleaned,
whichever slashes it is written with and whatever white space is around it; from an absolute
directory it leads to a normalized path. A value with a relative value after it leads where the
second value leads from the path of the first. -/
theorem resolveInclude_composes (d : Path) (i : Text) :
    d.resolveInclude i = d.clean.resolveInclude i ∧
    (∀ i', Text.SameButSlashes i i' → d.resolveInclude i' = d.resolveInclude i) ∧
    (∀ before after : Text, (∀ c ∈ before, Text.isBlank c = true) →
      (∀ c ∈ after, Text.isBlank c = true) →
        d.resolveInclude (before ++ i ++ after) = d.resolveInclude i) ∧
    (d.isAbsolute = true → (d.resolveInclude i).IsNormal) ∧
    ∀ j : Text, i.trim = i → j.trim = j → i ≠ [] → (∀ c ∈ j.head?, c ≠ '/' ∧ c ≠ '\\') →
      (d.resolveInclude i).resolveInclude j = d.resolveInclude (i ++ '/' :: j) := by
  refine ⟨(clean_join_clean d _).symm, fun i' h => ?_, fun before after hbefore hafter => ?_,
    fun h => isNormal_resolveInclude h i, fun j hi hj hne hrelative => ?_⟩
  · rw [resolveInclude_eq, resolveInclude_eq, slashes_eq_of_sameButSlashes h]
  · rw [resolveInclude, Text.trim_append_of_blank hbefore hafter, resolveInclude]
  · have hboth : (i ++ '/' :: j).trim = i ++ '/' :: j := Text.trim_append_cons rfl hi hne hj
    have hslashes : slashes (i ++ '/' :: j) = slashes i ++ '/' :: slashes j := by
      simp [slashes, Text.replace]
    have hsome : (slashes i).encode ≠ [] := by
      simpa [slashes, Text.replace, Text.encode_eq_nil_iff] using hne
    calc
      (d.resolveInclude i).resolveInclude j =
          ((d.join (.ofText (slashes i))).clean.join (.ofText (slashes j))).clean := by
        rw [resolveInclude, resolveInclude, hi, hj]
      _ = ((d.join (.ofText (slashes i))).join (.ofText (slashes j))).clean :=
        clean_join_clean _ _
      _ = (d.join ⟨(slashes i).encode ++ slash :: (slashes j).encode⟩).clean :=
        clean_join_join d hsome (isAbsolute_slashes hrelative)
      _ = (d.join (.ofText (slashes i ++ '/' :: slashes j))).clean := by
        rw [← bytes_ofText_slash]
      _ = d.resolveInclude (i ++ '/' :: j) := by
        rw [resolveInclude, hboth, hslashes]

/-- Both values go up further than there are names, from a relative directory. -/
theorem resolveInclude_composes_upward :
    let d : Path := ⟨"w"⟩
    let i : Text := "..\\../a"
    let j : Text := "../..\\b"
    (d.resolveInclude i).resolveInclude j = d.resolveInclude (i ++ '/' :: j) ∧
      d.resolveInclude (i ++ '/' :: j) = ⟨"../../b"⟩ ∧
      d.resolveInclude ("\t..\\../a\u3000") = d.resolveInclude "../..\\a" := by
  intro d i j
  obtain ⟨-, hslashes, hblank, -, hcomposes⟩ := resolveInclude_composes d i
  have hvalue := hslashes "../..\\a" (.cons (.inl rfl) (.cons (.inl rfl) (.cons (.inr (by decide))
    (.cons (.inl rfl) (.cons (.inl rfl) (.cons (.inr (by decide)) (.cons (.inl rfl) .nil)))))))
  have hrelative : ∀ c ∈ j.head?, c ≠ '/' ∧ c ≠ '\\' := by
    rintro c ⟨⟩
    decide
  refine ⟨hcomposes j (by decide) (by decide) (by decide) hrelative, by decide, ?_⟩
  rw [hvalue]
  exact hblank ['\t'] ['\u3000'] (List.forall_mem_singleton.mpr rfl)
    (List.forall_mem_singleton.mpr rfl)

end Path

end ProjectFile
