import ProjectFile.Proofs.Text.Utf8

/-!
Cutting a text at a limit in bytes. The boundaries are the lengths of the beginnings of a text, so
what is cut off at the last boundary within the limit is the longest beginning that fits. A
character has at most four bytes, and therefore the search for the boundary stops after at most
three steps.
-/

namespace ProjectFile.Text

theorem byteLength_append (s t : Text) : byteLength (s ++ t) = s.byteLength + t.byteLength := by
  induction s with
  | nil => simp [byteLength]
  | cons c s ih => rw [List.cons_append, byteLength, byteLength, ih, Nat.add_assoc]

theorem isBoundary_cons {c : Char} {t : Text} {n : Nat} (hn : n ≠ 0) :
    isBoundary (c :: t) n = (decide (c.utf8Size ≤ n) && t.isBoundary (n - c.utf8Size)) := by
  obtain ⟨n, rfl⟩ := Nat.exists_eq_succ_of_ne_zero hn
  rfl

/-- The length of each beginning of a text is a boundary. -/
theorem isBoundary_byteLength_append (s t : Text) : isBoundary (s ++ t) s.byteLength = true := by
  induction s with
  | nil => exact isBoundary_zero t
  | cons c s ih =>
    have hpos := c.utf8Size_pos
    rw [List.cons_append, byteLength, isBoundary_cons (by omega), Nat.add_sub_cancel_left, ih]
    simp

/-- The first byte of a character is the one that continues none. -/
theorem encodeChar_eq_cons (c : Char) : ∃ first more, String.utf8EncodeChar c = first :: more ∧
    isContinuation first = false ∧ ∀ b ∈ more, isContinuation b = true := by
  have hbyte (n : Nat) (h : n < 256) : (UInt8.ofNat n).toNat = n := UInt8.toNat_ofNat_of_lt' h
  have hmore (x : Nat) (hx : x < 64) : isContinuation (.ofNat (x + 128)) = true := by
    rw [isContinuation_iff, hbyte _ (by omega)]
    omega
  have hfirst (n : Nat) (hn : n < 256) (h : n < 128 ∨ 192 ≤ n) :
      isContinuation (.ofNat n) = false := by
    rw [← Bool.not_eq_true, isContinuation_iff, hbyte n hn]
    omega
  rcases encodeChar_digits c with ⟨hn, hc⟩ | ⟨x, y, -, -, hx, hy, hc⟩ |
      ⟨x, y, z, -, -, hx, hy, hz, hc⟩ | ⟨w, x, y, z, -, -, hw, hx, hy, hz, hc⟩
  · exact ⟨_, _, hc, hfirst _ (by omega) (.inl hn), List.forall_mem_nil _⟩
  · refine ⟨_, _, hc, hfirst _ (by omega) (.inr (by omega)), fun b hb => ?_⟩
    rw [List.mem_singleton.mp hb]
    exact hmore y hy
  · refine ⟨_, _, hc, hfirst _ (by omega) (.inr (by omega)), fun b hb => ?_⟩
    simp only [List.mem_cons, List.not_mem_nil, or_false] at hb
    rcases hb with rfl | rfl
    · exact hmore y hy
    · exact hmore z hz
  · refine ⟨_, _, hc, hfirst _ (by omega) (.inr (by omega)), fun b hb => ?_⟩
    simp only [List.mem_cons, List.not_mem_nil, or_false] at hb
    rcases hb with rfl | rfl | rfl
    · exact hmore x hx
    · exact hmore y hy
    · exact hmore z hz

/-- The boundaries of a text are the end of its bytes and the bytes that continue no character. -/
theorem isBoundary_iff_encode {t : Text} {n : Nat} : t.isBoundary n = true ↔
    n = t.encode.length ∨ ∃ b, t.encode[n]? = some b ∧ isContinuation b = false := by
  induction t generalizing n with
  | nil => cases n <;> simp [isBoundary, encode]
  | cons c t ih =>
    obtain ⟨first, more, hc, hfirst, hmore⟩ := encodeChar_eq_cons c
    have hsize := String.length_utf8EncodeChar c
    by_cases hzero : n = 0
    · subst hzero
      simp [encode_cons, hc, hfirst]
    by_cases hwithin : n < c.utf8Size
    · obtain ⟨b, hb⟩ : ∃ b, (String.utf8EncodeChar c)[n]? = some b :=
        ⟨_, List.getElem?_eq_getElem (by omega)⟩
      have hcontinues : isContinuation b = true := by
        obtain ⟨n, rfl⟩ := Nat.exists_eq_succ_of_ne_zero hzero
        rw [hc, List.getElem?_cons_succ] at hb
        exact hmore b (List.mem_of_getElem? hb)
      rw [isBoundary_cons hzero, encode_cons, List.getElem?_append_left (by omega), hb]
      simp [hcontinues, hsize]
      omega
    · have hle : c.utf8Size ≤ n := Nat.le_of_not_lt hwithin
      rw [isBoundary_cons hzero, decide_eq_true hle, Bool.true_and, ih, encode_cons,
        List.getElem?_append_right (by omega), List.length_append, hsize]
      have hend : n - c.utf8Size = (encode t).length ↔ n = c.utf8Size + (encode t).length := by
        omega
      rw [hend]

theorem length_encode (t : Text) : t.encode.length = t.byteLength := by
  induction t with
  | nil => rfl
  | cons c t ih =>
    rw [encode_cons, List.length_append, String.length_utf8EncodeChar, ih, byteLength]

/-- Within a text, the byte behind an offset tells whether the offset is a boundary. -/
theorem exists_byte_of_lt {t : Text} {n : Nat} (hn : n < t.byteLength) :
    ∃ b, t.encode[n]? = some b ∧ isContinuation b = !t.isBoundary n := by
  rw [← length_encode] at hn
  have hbyte := List.getElem?_eq_getElem hn
  refine ⟨_, hbyte, Bool.eq_iff_iff.mpr ?_⟩
  rw [Bool.not_eq_true', ← Bool.not_eq_true, isBoundary_iff_encode]
  simp [Nat.ne_of_lt hn, hbyte]

theorem before_isPrefix {t : Text} {n : Nat} (h : t.isBoundary n = true) : t.before n h <+: t := by
  fun_induction before t n h with
  | case1 => exact List.nil_prefix
  | case2 => contradiction
  | case3 c r n h ih => exact (List.prefix_cons_inj c).mpr ih

/-- What is before a boundary has as many bytes as the boundary says. -/
theorem byteLength_before {t : Text} {n : Nat} (h : t.isBoundary n = true) :
    (t.before n h).byteLength = n := by
  fun_induction before t n h with
  | case1 => rfl
  | case2 => contradiction
  | case3 c r n h ih =>
    have hfits : c.utf8Size ≤ n + 1 := of_decide_eq_true (Bool.and_eq_true_iff.mp h).1
    rw [byteLength, ih]
    omega

theorem isPrefix_of_byteLength_le {s u t : Text} (hs : s <+: t) (hu : u <+: t)
    (hle : s.byteLength ≤ u.byteLength) : s <+: u := by
  rcases List.prefix_or_prefix_of_prefix hs hu with h | h
  · exact h
  · obtain ⟨more, rfl⟩ := h
    cases more with
    | nil => exact (List.append_nil u).symm ▸ List.prefix_rfl
    | cons c more =>
      have hpos := c.utf8Size_pos
      rw [byteLength_append, byteLength] at hle
      omega

theorem boundaryBelow_le (t : Text) (n : Nat) : t.boundaryBelow n ≤ n := by
  induction n with
  | zero => exact Nat.le_refl 0
  | succ n ih =>
    rw [boundaryBelow]
    split
    · exact Nat.le_refl _
    · omega

/-- No boundary within the limit is passed over. -/
theorem le_boundaryBelow {t : Text} {m n : Nat} (hm : t.isBoundary m = true) (hle : m ≤ n) :
    m ≤ t.boundaryBelow n := by
  induction n with
  | zero => omega
  | succ n ih =>
    rw [boundaryBelow]
    split
    · exact hle
    · next hno =>
      have hne : m ≠ n + 1 := fun he => hno (he ▸ hm)
      exact ih (by omega)

/-- Within a text a boundary is never more than three bytes away. -/
theorem exists_isBoundary_sub {t : Text} {n : Nat} (hn : n ≤ t.byteLength) :
    ∃ k ≤ 3, k ≤ n ∧ t.isBoundary (n - k) = true := by
  induction t generalizing n with
  | nil =>
    obtain rfl : n = 0 := by simpa [byteLength] using hn
    exact ⟨0, by omega, by omega, rfl⟩
  | cons c t ih =>
    by_cases hc : c.utf8Size ≤ n
    · obtain ⟨k, hk, hkn, hboundary⟩ := @ih (n - c.utf8Size) (by rw [byteLength] at hn; omega)
      refine ⟨k, hk, by omega, ?_⟩
      have hpos := c.utf8Size_pos
      rw [isBoundary_cons (by omega), show n - k - c.utf8Size = n - c.utf8Size - k by omega,
        hboundary]
      simp
      omega
    · -- The limit is within the first character, which has at most four bytes.
      have hfour := c.utf8Size_le_four
      exact ⟨n, by omega, Nat.le_refl n, by simp⟩

/-- No offset that has been tried in vain is a boundary. -/
theorem isBoundary_eq_false {t : Text} {m n : Nat} (hm : t.boundaryBelow n < m) (hle : m ≤ n) :
    t.isBoundary m = false := by
  refine Bool.eq_false_iff.mpr fun hboundary => ?_
  have := le_boundaryBelow hboundary hle
  omega

/-- In a text that goes on at the offset, the search for a boundary stops after at most three
steps, before the offset is used up. -/
theorem exists_boundaryBelow_eq_sub {t : Text} {n : Nat} (hn : n ≤ t.byteLength) :
    ∃ k ≤ 3, k ≤ n ∧ t.boundaryBelow n = n - k ∧ ∀ j < k, t.isBoundary (n - j) = false := by
  obtain ⟨k, hk, hkn, hboundary⟩ := exists_isBoundary_sub hn
  have hle := le_boundaryBelow hboundary (Nat.sub_le n k)
  have hlimit := boundaryBelow_le t n
  refine ⟨n - t.boundaryBelow n, by omega, by omega, by omega, fun j hj => ?_⟩
  exact isBoundary_eq_false (by omega) (Nat.sub_le n j)

/-- Of a text that is too long, what is shown in front of the dots is the longest beginning that
fits. -/
theorem exists_clip_eq {limit : Nat} {t : Text} (h : limit < t.byteLength) :
    ∃ front : Text, clip limit t = front ++ "..." ∧ front <+: t ∧
      front.byteLength = t.boundaryBelow limit ∧
      ∀ other : Text, other <+: t → other.byteLength ≤ limit → other <+: front := by
  have hcut := isBoundary_boundaryBelow t limit
  refine ⟨t.before (t.boundaryBelow limit) hcut, if_neg (by omega), before_isPrefix hcut,
    byteLength_before hcut, fun other hother hle => ?_⟩
  obtain ⟨rest, rfl⟩ := hother
  refine isPrefix_of_byteLength_le (List.prefix_append other rest) (before_isPrefix hcut) ?_
  rw [byteLength_before]
  exact le_boundaryBelow (isBoundary_byteLength_append other rest) hle

end ProjectFile.Text
