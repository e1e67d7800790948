import ProjectFile.Proofs.Text.Utf8

/-!
Decoding loses no bytes. The marks of some bytes stand for just these bytes, each character for the
ones that encode it, so bytes decode to a text only if they are the bytes of the text. A byte below
128 is always a character, whatever stands around it, and parts bytes and what is shown of them in
the same places.
-/

namespace ProjectFile.Text

/-- The bytes that a mark stands for. -/
def Mark.bytes : Mark → Bytes
  | .character c => String.utf8EncodeChar c
  | .stray bytes => bytes

theorem following_eq_some_iff {b : UInt8} {n : Nat} : following b = some n ↔
    n = 0 ∧ b.toNat < 128 ∨ n = 1 ∧ 194 ≤ b.toNat ∧ b.toNat < 224 ∨
      n = 2 ∧ 224 ≤ b.toNat ∧ b.toNat < 240 ∨ n = 3 ∧ 240 ≤ b.toNat ∧ b.toNat < 245 := by
  rw [following_eq]
  repeat' split
  all_goals
    simp
    omega

section

variable {first second third fourth : UInt8} {n : Nat}

/-- The bytes of the character with a code. -/
theorem encodeChar_ofNat (h : n.isValidChar) : String.utf8EncodeChar (.ofNat n) =
    if n ≤ 127 then [.ofNat n]
    else if n ≤ 2047 then [.ofNat (n / 64 % 32 + 192), .ofNat (n % 64 + 128)]
    else if n ≤ 65535 then
      [.ofNat (n / 4096 % 16 + 224), .ofNat (n / 64 % 64 + 128), .ofNat (n % 64 + 128)]
    else
      [.ofNat (n / 262144 % 8 + 240), .ofNat (n / 4096 % 64 + 128), .ofNat (n / 64 % 64 + 128),
        .ofNat (n % 64 + 128)] := by
  have hcode : (Char.ofNat n).val.toNat = n := by
    rw [Char.ofNat, dif_pos h]
    rfl
  unfold String.utf8EncodeChar
  simp only [hcode]

theorem ofNat_eq_of_toNat_eq {b : UInt8} (h : n = b.toNat) : UInt8.ofNat n = b := by
  rw [h, UInt8.ofNat_toNat]

theorem encodeChar_character_one (hfirst : following first = some 0) :
    String.utf8EncodeChar (Partial.character first []) = [first] := by
  have hbound := following_eq_some_iff.mp hfirst
  have hcharacter : Partial.character first [] = .ofNat first.toNat :=
    congrArg Char.ofNat (Nat.mod_eq_of_lt (show first.toNat < 128 by omega))
  rw [hcharacter, encodeChar_ofNat (.inl (by omega)), if_pos (by omega), UInt8.ofNat_toNat]

theorem encodeChar_character_two (hfirst : following first = some 1)
    (hsecond : maySecond first second = true) :
    String.utf8EncodeChar (Partial.character first [second]) = [first, second] := by
  have hbound := following_eq_some_iff.mp hfirst
  have hmay := maySecond_iff.mp hsecond
  have hcharacter : Partial.character first [second] =
      .ofNat (first.toNat % 32 * 64 + second.toNat % 64) := rfl
  rw [hcharacter, encodeChar_ofNat (.inl (by omega)), if_neg (by omega), if_pos (by omega),
    ofNat_eq_of_toNat_eq (b := first) (by omega), ofNat_eq_of_toNat_eq (b := second) (by omega)]

theorem encodeChar_character_three (hfirst : following first = some 2)
    (hsecond : maySecond first second = true) (hthird : isContinuation third = true) :
    String.utf8EncodeChar (Partial.character first [second, third]) = [first, second, third] := by
  have hbound := following_eq_some_iff.mp hfirst
  have hmay := maySecond_iff.mp hsecond
  have hthird := isContinuation_iff.mp hthird
  have hcharacter : Partial.character first [second, third] =
      .ofNat ((first.toNat % 16 * 64 + second.toNat % 64) * 64 + third.toNat % 64) := rfl
  have hvalid :
      ((first.toNat % 16 * 64 + second.toNat % 64) * 64 + third.toNat % 64).isValidChar := by
    unfold Nat.isValidChar
    omega
  rw [hcharacter, encodeChar_ofNat hvalid, if_neg (by omega), if_neg (by omega), if_pos (by omega),
    ofNat_eq_of_toNat_eq (b := first) (by omega), ofNat_eq_of_toNat_eq (b := second) (by omega),
    ofNat_eq_of_toNat_eq (b := third) (by omega)]

theorem encodeChar_character_four (hfirst : following first = some 3)
    (hsecond : maySecond first second = true) (hthird : isContinuation third = true)
    (hfourth : isContinuation fourth = true) :
    String.utf8EncodeChar (Partial.character first [second, third, fourth]) =
      [first, second, third, fourth] := by
  have hbound := following_eq_some_iff.mp hfirst
  have hmay := maySecond_iff.mp hsecond
  have hthird := isContinuation_iff.mp hthird
  have hfourth := isContinuation_iff.mp hfourth
  have hcharacter : Partial.character first [second, third, fourth] =
      .ofNat (((first.toNat % 8 * 64 + second.toNat % 64) * 64 + third.toNat % 64) * 64 +
        fourth.toNat % 64) := rfl
  rw [hcharacter, encodeChar_ofNat (.inr ⟨by omega, by omega⟩), if_neg (by omega),
    if_neg (by omega), if_neg (by omega), ofNat_eq_of_toNat_eq (b := first) (by omega),
    ofNat_eq_of_toNat_eq (b := second) (by omega), ofNat_eq_of_toNat_eq (b := third) (by omega),
    ofNat_eq_of_toNat_eq (b := fourth) (by omega)]

end

/-- Whether the bytes so far begin a sequence and do not complete it. -/
structure Partial.IsOpen (p : Partial) : Prop where
  follows : following p.first = some (p.more.length + p.missing)
  missing : 0 < p.missing
  second : ∀ b, p.more.head? = some b → maySecond p.first b = true
  rest : ∀ b ∈ p.more.tail, isContinuation b = true

def Partial.bytes (p : Partial) : Bytes := p.first :: p.more

section

variable {p : Partial} {b : UInt8}

/-- With an accepted byte a sequence is complete, and the bytes are those of its character, or it is
still open. -/
theorem Partial.IsOpen.extend (h : p.IsOpen) (hb : p.accepts b = true) :
    (p.missing = 1 → String.utf8EncodeChar (Partial.character p.first (p.more ++ [b])) =
      p.bytes ++ [b]) ∧
    (p.missing ≠ 1 → Partial.IsOpen ⟨p.first, p.more ++ [b], p.missing - 1⟩) := by
  obtain ⟨first, more, missing⟩ := p
  obtain ⟨hfollows, hmissing, hsecond, hrest⟩ := h
  have hbound := following_eq_some_iff.mp hfollows
  dsimp only at *
  match more with
  | [] =>
    have hmay : maySecond first b = true := hb
    refine ⟨?_, fun hne => ⟨?_, by dsimp only; omega, by simpa using hmay, by simp⟩⟩
    · rintro rfl
      exact encodeChar_character_two hfollows hmay
    · rw [hfollows]
      simp
      omega
  | second :: more =>
    have hmay : maySecond first second = true := hsecond second rfl
    have hcontinues : isContinuation b = true := hb
    refine ⟨?_, fun hne => ⟨?_, by dsimp only; omega, by simpa using hmay, ?_⟩⟩
    · rintro rfl
      match more with
      | [] => exact encodeChar_character_three hfollows hmay hcontinues
      | [third] =>
        exact encodeChar_character_four hfollows hmay (hrest third (by simp)) hcontinues
      | _ :: _ :: _ =>
        simp only [List.length_cons] at hbound
        omega
    · rw [hfollows]
      simp
      omega
    · simpa [or_imp, forall_and] using ⟨hrest, hcontinues⟩

theorem opening_spec (b : UInt8) :
    (opening b).1.flatMap Mark.bytes ++ (opening b).2.elim [] Partial.bytes = [b] ∧
      ∀ p, (opening b).2 = some p → p.IsOpen := by
  unfold opening
  split
  · simp [Mark.bytes]
  · next h => simp [Mark.bytes, encodeChar_character_one h]
  · next n h =>
    refine ⟨rfl, fun p hp => ?_⟩
    obtain rfl : ⟨b, [], n + 1⟩ = p := Option.some.inj hp
    exact ⟨by simpa using h, Nat.succ_pos n, by simp, by simp⟩

theorem Partial.IsOpen.extend_spec (h : p.IsOpen) (hb : p.accepts b = true) :
    (p.extend b).1.flatMap Mark.bytes ++ (p.extend b).2.elim [] Partial.bytes = p.bytes ++ [b] ∧
      ∀ q, (p.extend b).2 = some q → q.IsOpen := by
  obtain ⟨hcomplete, hopen⟩ := h.extend hb
  have hmissing := h.missing
  unfold Partial.extend
  dsimp only
  split
  · simp [Mark.bytes, hcomplete (by omega)]
  · refine ⟨rfl, fun q hq => ?_⟩
    obtain rfl := Option.some.inj hq
    exact hopen (by omega)

end

/-- What is read from an open sequence on stands for the bytes of the sequence and those read. -/
theorem flatMap_bytes_marksFrom {pending : Option Partial} (h : ∀ p, pending = some p → p.IsOpen)
    (bytes : Bytes) : (marksFrom pending bytes).flatMap Mark.bytes =
      pending.elim [] Partial.bytes ++ bytes := by
  fun_induction marksFrom pending bytes with
  | case1 => rfl
  | case2 p => simp [Partial.mark, Mark.bytes, Partial.bytes]
  | case3 b rest out next heq ih =>
    obtain ⟨hbytes, hopen⟩ := opening_spec b
    rw [heq] at hbytes hopen
    rw [List.flatMap_append, ih hopen, ← List.append_assoc, hbytes]
    rfl
  | case4 p b rest hb out next heq ih =>
    obtain ⟨hbytes, hopen⟩ := (h p rfl).extend_spec hb
    rw [heq] at hbytes hopen
    rw [List.flatMap_append, ih hopen, ← List.append_assoc, hbytes]
    simp
  | case5 p b rest hb out next heq ih =>
    obtain ⟨hbytes, hopen⟩ := opening_spec b
    rw [heq] at hbytes hopen
    rw [List.cons_append, List.flatMap_cons, List.flatMap_append, ih hopen,
      ← List.append_assoc _ _ rest, hbytes]
    simp [Partial.mark, Mark.bytes, Partial.bytes]

/-- No byte is lost in the marks. -/
theorem flatMap_bytes_marks (bytes : Bytes) : (marks bytes).flatMap Mark.bytes = bytes :=
  flatMap_bytes_marksFrom (by simp) bytes

theorem encode_of_mapM_character? {marks : List Mark} {t : Text}
    (h : marks.mapM Mark.character? = some t) : t.encode = marks.flatMap Mark.bytes := by
  induction marks generalizing t with
  | nil =>
    obtain rfl : [] = t := Option.some.inj h
    rfl
  | cons mark marks ih =>
    rw [List.mapM_cons] at h
    obtain ⟨c, hc, h⟩ := Option.bind_eq_some_iff.mp h
    obtain ⟨rest, hrest, h⟩ := Option.bind_eq_some_iff.mp h
    obtain rfl : c :: rest = t := Option.some.inj h
    cases mark with
    | stray bytes => cases hc
    | character d =>
      obtain rfl : d = c := Option.some.inj hc
      rw [encode, List.flatMap_cons, List.flatMap_cons, ← ih hrest]
      rfl

/-- Bytes decode to a text exactly if they are the bytes of the text. -/
theorem decode?_eq_some_iff {bytes : Bytes} {t : Text} :
    decode? bytes = some t ↔ t.encode = bytes := by
  refine ⟨fun h => ?_, fun h => h ▸ decode?_encode t⟩
  rw [encode_of_mapM_character? h, flatMap_bytes_marks]

theorem encode_injective : Function.Injective encode := fun s t h =>
  Option.some.inj ((decode?_encode s).symm.trans (h ▸ decode?_encode t))

theorem encode_eq_nil_iff {t : Text} : t.encode = [] ↔ t = [] :=
  ⟨fun h => encode_injective h, fun h => congrArg encode h⟩

section

variable {b : UInt8} (hb : b.toNat < 128)

include hb

theorem opening_of_lt : opening b = ([.character (.ofNat b.toNat)], none) := by
  have hfollowing : following b = some 0 := following_eq_some_iff.mpr (.inl ⟨rfl, hb⟩)
  have hcharacter : Partial.character b [] = .ofNat b.toNat :=
    congrArg Char.ofNat (Nat.mod_eq_of_lt hb)
  simp [opening, hfollowing, hcharacter]

theorem Partial.accepts_eq_false (p : Partial) : p.accepts b = false := by
  rw [← Bool.not_eq_true]
  unfold Partial.accepts
  split
  · rw [maySecond_iff]
    omega
  · rw [isContinuation_iff]
    omega

/-- What is before a byte below 128 and what is after it are decoded apart. -/
theorem marksFrom_append_cons (pending : Option Partial) (front back : Bytes) :
    marksFrom pending (front ++ b :: back) =
      marksFrom pending front ++ .character (.ofNat b.toNat) :: marks back := by
  fun_induction marksFrom pending front with
  | case1 => simp [marksFrom, opening_of_lt hb, marks]
  | case2 p => simp [marksFrom, opening_of_lt hb, p.accepts_eq_false hb, marks]
  | case3 c rest out next heq ih =>
    rw [List.cons_append, marksFrom, heq]
    simp [ih]
  | case4 p c rest hc out next heq ih =>
    rw [List.cons_append, marksFrom, if_pos hc, heq]
    simp [ih]
  | case5 p c rest hc out next heq ih =>
    rw [List.cons_append, marksFrom, if_neg hc, heq]
    simp [ih]

theorem decodeLossy_append_cons (front back : Bytes) : decodeLossy (front ++ b :: back) =
    decodeLossy front ++ .ofNat b.toNat :: decodeLossy back := by
  simp [decodeLossy, marks, marksFrom_append_cons hb, Mark.shown]

end

@[simp] theorem decodeLossy_encode (t : Text) : decodeLossy t.encode = t := by
  rw [decodeLossy, marks_encode, List.map_map]
  exact List.map_id t

section

variable {c : Char} (hc : c.toNat < 128)

include hc

/-- A byte below 128 belongs to no other character than its own, of which it is all. -/
theorem encodeChar_of_lt : String.utf8EncodeChar c = [.ofNat c.toNat] := by
  rcases encodeChar_digits c with ⟨-, h⟩ | ⟨x, y, hn, hlow, -⟩ | ⟨x, y, z, hn, hlow, -⟩ |
      ⟨w, x, y, z, hn, hlow, -⟩
  · exact h
  all_goals omega

theorem not_mem_encodeChar {d : Char} (hne : d ≠ c) :
    UInt8.ofNat c.toNat ∉ String.utf8EncodeChar d := by
  have hbyte (n : Nat) (h : n < 256) : (UInt8.ofNat n).toNat = n := UInt8.toNat_ofNat_of_lt' h
  have hcode : d.toNat ≠ c.toNat := fun h => hne (Char.toNat_inj.mp h)
  intro hmem
  rcases encodeChar_digits d with ⟨hn, hd⟩ | ⟨x, y, -, -, hx, hy, hd⟩ |
      ⟨x, y, z, -, -, hx, hy, hz, hd⟩ | ⟨w, x, y, z, -, -, hw, hx, hy, hz, hd⟩
  all_goals
    rw [hd] at hmem
    simp (disch := omega) only [List.mem_cons, List.not_mem_nil, or_false, ← UInt8.toNat_inj,
      hbyte] at hmem
    omega

/-- A character below 128 that is shown is among the bytes. -/
theorem mem_of_mem_decodeLossy {bytes : Bytes} (h : c ∈ decodeLossy bytes) :
    UInt8.ofNat c.toNat ∈ bytes := by
  obtain ⟨mark, hmark, hshown⟩ := List.mem_map.mp h
  rw [← flatMap_bytes_marks bytes, List.mem_flatMap]
  refine ⟨mark, hmark, ?_⟩
  cases mark with
  | character d =>
    obtain rfl : d = c := hshown
    simp [Mark.bytes, encodeChar_of_lt hc]
  | stray bytes =>
    obtain rfl : '\ufffd' = c := hshown
    exact absurd hc (by decide)

end

end ProjectFile.Text
