import ProjectFile.Text.Utf8

/-!
Reading back what is encoded. Each length of a sequence gives the character whose digits its bytes
carry, so the bytes of a text are decoded to the text.
-/

namespace ProjectFile.Text

/-- The bytes of a character carry the digits of its code. -/
theorem encodeChar_digits (c : Char) :
    (c.toNat < 128 ∧ String.utf8EncodeChar c = [.ofNat c.toNat]) ∨
    (∃ x y, c.toNat = 64 * x + y ∧ 128 ≤ c.toNat ∧ x < 32 ∧ y < 64 ∧
      String.utf8EncodeChar c = [.ofNat (x + 192), .ofNat (y + 128)]) ∨
    (∃ x y z, c.toNat = 4096 * x + 64 * y + z ∧ 2048 ≤ c.toNat ∧ x < 16 ∧ y < 64 ∧ z < 64 ∧
      String.utf8EncodeChar c = [.ofNat (x + 224), .ofNat (y + 128), .ofNat (z + 128)]) ∨
    ∃ w x y z, c.toNat = 262144 * w + 4096 * x + 64 * y + z ∧ 65536 ≤ c.toNat ∧ w < 8 ∧
      x < 64 ∧ y < 64 ∧ z < 64 ∧ String.utf8EncodeChar c =
        [.ofNat (w + 240), .ofNat (x + 128), .ofNat (y + 128), .ofNat (z + 128)] := by
  have hvalid := c.valid
  simp only [UInt32.isValidChar, Nat.isValidChar] at hvalid
  unfold String.utf8EncodeChar
  simp only [show c.val.toNat = c.toNat from rfl] at hvalid ⊢
  generalize c.toNat = n at *
  split
  · exact .inl ⟨by omega, rfl⟩
  split
  · exact .inr (.inl ⟨_, _, by omega, by omega, by omega, by omega, rfl⟩)
  split
  · exact .inr (.inr (.inl ⟨_, _, _, by omega, by omega, by omega, by omega, by omega, rfl⟩))
  · exact .inr (.inr (.inr ⟨_, _, _, _, by omega, by omega, by omega, by omega, by omega,
      by omega, rfl⟩))

theorem following_eq (b : UInt8) : following b =
    if b.toNat < 128 then some 0 else if b.toNat < 194 then none else if b.toNat < 224 then some 1
    else if b.toNat < 240 then some 2 else if b.toNat < 245 then some 3 else none := rfl

theorem isContinuation_iff {b : UInt8} :
    isContinuation b = true ↔ 128 ≤ b.toNat ∧ b.toNat < 192 := by
  simp [isContinuation, UInt8.le_iff_toNat_le, UInt8.lt_iff_toNat_lt]

theorem maySecond_iff {first second : UInt8} : maySecond first second = true ↔
    128 ≤ second.toNat ∧ second.toNat < 192 ∧ (first.toNat = 224 → 160 ≤ second.toNat) ∧
      (first.toNat = 237 → second.toNat < 160) ∧ (first.toNat = 240 → 144 ≤ second.toNat) ∧
      (first.toNat = 244 → second.toNat < 144) := by
  unfold maySecond
  simp only [beq_iff_eq, ← UInt8.toNat_inj]
  split
  · simp [UInt8.le_iff_toNat_le, UInt8.lt_iff_toNat_lt, *]; omega
  split
  · simp [UInt8.le_iff_toNat_le, UInt8.lt_iff_toNat_lt, *]; omega
  split
  · simp [UInt8.le_iff_toNat_le, UInt8.lt_iff_toNat_lt, *]; omega
  split
  · simp [UInt8.le_iff_toNat_le, UInt8.lt_iff_toNat_lt, *]; omega
  · rw [isContinuation_iff]
    simp at *
    omega

section

variable {n : Nat} {first second third fourth : UInt8} (rest : Bytes)

theorem marksFrom_one (h : first.toNat = n) (hn : n < 128) :
    marksFrom none (first :: rest) = .character (Char.ofNat n) :: marksFrom none rest := by
  have hfollowing : following first = some 0 := by rw [following_eq, h, if_pos hn]
  have hchar : Partial.character first [] = Char.ofNat n := by
    simp [Partial.character, h, Nat.mod_eq_of_lt hn]
  simp [marksFrom, opening, hfollowing, hchar]

theorem marksFrom_two {x y : Nat} (hfirst : first.toNat = x + 192)
    (hsecond : second.toNat = y + 128) (hx : x < 32) (hy : y < 64) (hn : 128 ≤ 64 * x + y) :
    marksFrom none (first :: second :: rest) =
      .character (Char.ofNat (64 * x + y)) :: marksFrom none rest := by
  have hfollowing : following first = some 1 := by
    rw [following_eq, hfirst, if_neg (by omega), if_neg (by omega), if_pos (by omega)]
  have hmay : maySecond first second = true := by rw [maySecond_iff]; omega
  have hchar : Partial.character first [second] = Char.ofNat (64 * x + y) := by
    refine congrArg Char.ofNat ?_
    simp only [List.length_cons, List.length_nil, List.foldl_cons, List.foldl_nil, hfirst, hsecond]
    omega
  simp [marksFrom, opening, hfollowing, Partial.accepts, hmay, Partial.extend, hchar]

theorem marksFrom_three {x y z : Nat} (hfirst : first.toNat = x + 224)
    (hsecond : second.toNat = y + 128) (hthird : third.toNat = z + 128) (hx : x < 16) (hy : y < 64)
    (hz : z < 64) (hn : 2048 ≤ 4096 * x + 64 * y + z)
    (hvalid : 4096 * x + 64 * y + z < 55296 ∨ 57343 < 4096 * x + 64 * y + z) :
    marksFrom none (first :: second :: third :: rest) =
      .character (Char.ofNat (4096 * x + 64 * y + z)) :: marksFrom none rest := by
  have hfollowing : following first = some 2 := by
    rw [following_eq, hfirst, if_neg (by omega), if_neg (by omega), if_neg (by omega),
      if_pos (by omega)]
  have hmay : maySecond first second = true := by rw [maySecond_iff]; omega
  have hmore : isContinuation third = true := by rw [isContinuation_iff]; omega
  have hchar : Partial.character first [second, third] = Char.ofNat (4096 * x + 64 * y + z) := by
    refine congrArg Char.ofNat ?_
    simp only [List.length_cons, List.length_nil, List.foldl_cons, List.foldl_nil, hfirst, hsecond,
      hthird]
    omega
  simp [marksFrom, opening, hfollowing, Partial.accepts, hmay, hmore, Partial.extend, hchar]

theorem marksFrom_four {w x y z : Nat} (hfirst : first.toNat = w + 240)
    (hsecond : second.toNat = x + 128) (hthird : third.toNat = y + 128)
    (hfourth : fourth.toNat = z + 128) (hx : x < 64) (hy : y < 64) (hz : z < 64)
    (hn : 65536 ≤ 262144 * w + 4096 * x + 64 * y + z)
    (hvalid : 262144 * w + 4096 * x + 64 * y + z < 1114112) :
    marksFrom none (first :: second :: third :: fourth :: rest) =
      .character (Char.ofNat (262144 * w + 4096 * x + 64 * y + z)) :: marksFrom none rest := by
  have hfollowing : following first = some 3 := by
    rw [following_eq, hfirst, if_neg (by omega), if_neg (by omega), if_neg (by omega),
      if_neg (by omega), if_pos (by omega)]
  have hmay : maySecond first second = true := by rw [maySecond_iff]; omega
  have hmore : isContinuation third = true := by rw [isContinuation_iff]; omega
  have hlast : isContinuation fourth = true := by rw [isContinuation_iff]; omega
  have hchar : Partial.character first [second, third, fourth] =
      Char.ofNat (262144 * w + 4096 * x + 64 * y + z) := by
    refine congrArg Char.ofNat ?_
    simp only [List.length_cons, List.length_nil, List.foldl_cons, List.foldl_nil, hfirst, hsecond,
      hthird, hfourth]
    omega
  simp [marksFrom, opening, hfollowing, Partial.accepts, hmay, hmore, hlast, Partial.extend, hchar]

end

/-- The bytes of a character are a sequence for it, whatever follows them. -/
theorem marksFrom_encodeChar (c : Char) (rest : Bytes) :
    marksFrom none (String.utf8EncodeChar c ++ rest) = .character c :: marksFrom none rest := by
  have hvalid := c.valid
  simp only [UInt32.isValidChar, Nat.isValidChar, show c.val.toNat = c.toNat from rfl] at hvalid
  have hbyte (n : Nat) (h : n < 256) : (UInt8.ofNat n).toNat = n := UInt8.toNat_ofNat_of_lt' h
  rcases encodeChar_digits c with ⟨hn, hc⟩ | ⟨x, y, hn, hlow, hx, hy, hc⟩ |
      ⟨x, y, z, hn, hlow, hx, hy, hz, hc⟩ | ⟨w, x, y, z, hn, hlow, hw, hx, hy, hz, hc⟩
  · rw [hc, List.singleton_append, marksFrom_one rest (hbyte _ (by omega)) hn, Char.ofNat_toNat]
  · rw [hc, List.cons_append, List.singleton_append,
      marksFrom_two rest (hbyte _ (by omega)) (hbyte _ (by omega)) hx hy (hn ▸ hlow), ← hn,
      Char.ofNat_toNat]
  · rw [hc, List.cons_append, List.cons_append, List.singleton_append,
      marksFrom_three rest (hbyte _ (by omega)) (hbyte _ (by omega)) (hbyte _ (by omega)) hx hy hz
        (hn ▸ hlow) (by omega), ← hn, Char.ofNat_toNat]
  · rw [hc, List.cons_append, List.cons_append, List.cons_append, List.singleton_append,
      marksFrom_four rest (hbyte _ (by omega)) (hbyte _ (by omega)) (hbyte _ (by omega))
        (hbyte _ (by omega)) hx hy hz (hn ▸ hlow) (by omega), ← hn, Char.ofNat_toNat]

theorem encode_cons (c : Char) (t : Text) : encode (c :: t) = String.utf8EncodeChar c ++ encode t :=
  List.flatMap_cons

theorem encode_append (s t : Text) : encode (s ++ t) = encode s ++ encode t := List.flatMap_append

theorem marks_encode (t : Text) : marks t.encode = t.map .character := by
  unfold marks encode
  induction t with
  | nil => rfl
  | cons c t ih => rw [List.flatMap_cons, marksFrom_encodeChar, ih, List.map_cons]

/-- The bytes of a text decode to the text. -/
theorem decode?_encode (t : Text) : decode? t.encode = some t := by
  rw [decode?, marks_encode]
  induction t with
  | nil => rfl
  | cons c t ih => rw [List.map_cons, List.mapM_cons, ih]; rfl

end ProjectFile.Text
