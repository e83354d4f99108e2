import DocSignature.Text.Utf8

/-!
# Which bytes have a text

Bytes are decoded exactly when they are the bytes of some text, and then this text comes out. One
character is taken at a time: `CharBytes` says which bytes make up a character and which one, and
they are the bytes that the character is encoded as.
-/

namespace DocSignature.Text

/-- The bytes of a text. -/
def encodeUtf8 (cs : List Char) : List UInt8 :=
  cs.flatMap String.utf8EncodeChar

/-- The bytes of one character, and its number. -/
inductive CharBytes : List UInt8 → Nat → Prop where
  | one {b : UInt8} (hb : followers? b = some 0) : CharBytes [b] b.toNat
  | two {b c : UInt8} (hb : followers? b = some 1) (hc : followsFirst b c = true) :
    CharBytes [b, c] (b.toNat % 32 * 64 + payload c)
  | three {b c d : UInt8} (hb : followers? b = some 2) (hc : followsFirst b c = true)
    (hd : continues d = true) :
    CharBytes [b, c, d] ((b.toNat % 16 * 64 + payload c) * 64 + payload d)
  | four {b c d e : UInt8} (hb : followers? b = some 3) (hc : followsFirst b c = true)
    (hd : continues d = true) (he : continues e = true) :
    CharBytes [b, c, d, e] (((b.toNat % 8 * 64 + payload c) * 64 + payload d) * 64 + payload e)

/-! ## Bytes as numbers -/

section Bytes
variable (b c : UInt8)

theorem followers?_eq :
    followers? b =
      if b.toNat < 128 then some 0
      else if b.toNat < 194 then none
      else if b.toNat < 224 then some 1
      else if b.toNat < 240 then some 2
      else if b.toNat < 245 then some 3
      else none := by
  simp [followers?, UInt8.lt_iff_toNat_lt]

theorem followers?_zero_iff : followers? b = some 0 ↔ b.toNat < 128 := by
  rw [followers?_eq]
  grind

theorem followers?_one_iff : followers? b = some 1 ↔ 194 ≤ b.toNat ∧ b.toNat < 224 := by
  rw [followers?_eq]
  grind

theorem followers?_two_iff : followers? b = some 2 ↔ 224 ≤ b.toNat ∧ b.toNat < 240 := by
  rw [followers?_eq]
  grind

theorem followers?_three_iff : followers? b = some 3 ↔ 240 ≤ b.toNat ∧ b.toNat < 245 := by
  rw [followers?_eq]
  grind

theorem continues_iff : continues c = true ↔ 128 ≤ c.toNat ∧ c.toNat < 192 := by
  simp [continues, UInt8.lt_iff_toNat_lt, UInt8.le_iff_toNat_le]

theorem followsFirst_iff :
    followsFirst b c = true ↔
      (128 ≤ c.toNat ∧ c.toNat < 192) ∧
        (b.toNat = 224 → 160 ≤ c.toNat) ∧ (b.toNat = 237 → c.toNat < 160) ∧
        (b.toNat = 240 → 144 ≤ c.toNat) ∧ (b.toNat = 244 → c.toNat < 144) := by
  simp only [followsFirst, Bool.and_eq_true, continues_iff, ← UInt8.toNat_inj, UInt8.reduceToNat]
  refine and_congr_right fun hc => ?_
  repeat' split
  all_goals
    simp only [decide_eq_true_eq, UInt8.le_iff_toNat_le, UInt8.lt_iff_toNat_lt, UInt8.reduceToNat,
      true_iff]
    omega

end Bytes

theorem ofNat_eq_of_toNat {n : Nat} {b : UInt8} (h : n = b.toNat) : UInt8.ofNat n = b := by
  rw [h, UInt8.ofNat_toNat]

theorem toNat_ofNat_of_lt {n : Nat} (h : n < 256) : (UInt8.ofNat n).toNat = n := by
  rw [UInt8.toNat_ofNat']
  omega

theorem val_ofNat {n : Nat} (h : n.isValidChar) : (Char.ofNat n).val.toNat = n := by
  rw [Char.ofNat, dif_pos h]
  rfl

/-! ## One character -/

/-- The bytes of a character are those that it is encoded as. -/
theorem CharBytes.encode_eq {bytes : List UInt8} {n : Nat} (h : CharBytes bytes n) :
    String.utf8EncodeChar (Char.ofNat n) = bytes := by
  cases h with
  | @one b hb =>
    rw [followers?_zero_iff] at hb
    have hvalid : b.toNat.isValidChar := .inl (by omega)
    simp only [String.utf8EncodeChar, val_ofNat hvalid]
    rw [if_pos (by omega), UInt8.ofNat_toNat]
  | @two b c hb hc =>
    rw [followers?_one_iff] at hb
    rw [followsFirst_iff] at hc
    unfold payload
    have hvalid : (b.toNat % 32 * 64 + c.toNat % 64).isValidChar := .inl (by omega)
    simp only [String.utf8EncodeChar, val_ofNat hvalid]
    rw [if_neg (by omega), if_pos (by omega), ofNat_eq_of_toNat (b := b) (by omega),
      ofNat_eq_of_toNat (b := c) (by omega)]
  | @three b c d hb hc hd =>
    rw [followers?_two_iff] at hb
    rw [followsFirst_iff] at hc
    rw [continues_iff] at hd
    unfold payload
    have hvalid : ((b.toNat % 16 * 64 + c.toNat % 64) * 64 + d.toNat % 64).isValidChar := by
      rw [Nat.isValidChar]
      omega
    simp only [String.utf8EncodeChar, val_ofNat hvalid]
    rw [if_neg (by omega), if_neg (by omega), if_pos (by omega),
      ofNat_eq_of_toNat (b := b) (by omega), ofNat_eq_of_toNat (b := c) (by omega),
      ofNat_eq_of_toNat (b := d) (by omega)]
  | @four b c d e hb hc hd he =>
    rw [followers?_three_iff] at hb
    rw [followsFirst_iff] at hc
    rw [continues_iff] at hd he
    unfold payload
    have hvalid : (((b.toNat % 8 * 64 + c.toNat % 64) * 64 + d.toNat % 64) * 64 +
        e.toNat % 64).isValidChar := by
      rw [Nat.isValidChar]
      omega
    simp only [String.utf8EncodeChar, val_ofNat hvalid]
    rw [if_neg (by omega), if_neg (by omega), if_neg (by omega),
      ofNat_eq_of_toNat (b := b) (by omega), ofNat_eq_of_toNat (b := c) (by omega),
      ofNat_eq_of_toNat (b := d) (by omega), ofNat_eq_of_toNat (b := e) (by omega)]

section Number
variable {v : Nat} {b c d e : UInt8}

theorem charBytes_two (hv : 127 < v ∧ v ≤ 2047) (hb : b.toNat = v / 64 % 32 + 192)
    (hc : c.toNat = v % 64 + 128) : CharBytes [b, c] v := by
  have hnumber : b.toNat % 32 * 64 + payload c = v := by
    unfold payload
    omega
  rw [← hnumber]
  exact .two ((followers?_one_iff b).2 (by omega)) ((followsFirst_iff b c).2 (by omega))

theorem charBytes_three (hv : 2047 < v ∧ v ≤ 65535) (hvalid : v < 55296 ∨ 57343 < v)
    (hb : b.toNat = v / 4096 % 16 + 224) (hc : c.toNat = v / 64 % 64 + 128)
    (hd : d.toNat = v % 64 + 128) : CharBytes [b, c, d] v := by
  have hnumber : (b.toNat % 16 * 64 + payload c) * 64 + payload d = v := by
    unfold payload
    omega
  rw [← hnumber]
  exact .three ((followers?_two_iff b).2 (by omega)) ((followsFirst_iff b c).2 (by omega))
    ((continues_iff d).2 (by omega))

theorem charBytes_four (hv : 65535 < v ∧ v < 1114112) (hb : b.toNat = v / 262144 % 8 + 240)
    (hc : c.toNat = v / 4096 % 64 + 128) (hd : d.toNat = v / 64 % 64 + 128)
    (he : e.toNat = v % 64 + 128) : CharBytes [b, c, d, e] v := by
  have hnumber : ((b.toNat % 8 * 64 + payload c) * 64 + payload d) * 64 + payload e = v := by
    unfold payload
    omega
  rw [← hnumber]
  exact .four ((followers?_three_iff b).2 (by omega)) ((followsFirst_iff b c).2 (by omega))
    ((continues_iff d).2 (by omega)) ((continues_iff e).2 (by omega))

end Number

/-- What a character is encoded as are its bytes. -/
theorem charBytes_encode (c : Char) : CharBytes (String.utf8EncodeChar c) c.toNat := by
  have hvalid : c.toNat.isValidChar := c.valid
  rw [Nat.isValidChar] at hvalid
  simp only [String.utf8EncodeChar, Char.toNat_val]
  generalize c.toNat = v at hvalid ⊢
  split
  · have hb : (UInt8.ofNat v).toNat = v := toNat_ofNat_of_lt (by omega)
    have h := CharBytes.one ((followers?_zero_iff (UInt8.ofNat v)).2 (by omega))
    rwa [hb] at h
  split
  · exact charBytes_two (by omega) (toNat_ofNat_of_lt (by omega)) (toNat_ofNat_of_lt (by omega))
  split
  · exact charBytes_three (by omega) (by omega) (toNat_ofNat_of_lt (by omega))
      (toNat_ofNat_of_lt (by omega)) (toNat_ofNat_of_lt (by omega))
  · exact charBytes_four (by omega) (toNat_ofNat_of_lt (by omega)) (toNat_ofNat_of_lt (by omega))
      (toNat_ofNat_of_lt (by omega)) (toNat_ofNat_of_lt (by omega))

/-- The bytes of a character are taken first, whatever follows them. -/
theorem CharBytes.decodeFrom_append {bytes : List UInt8} {n : Nat} (h : CharBytes bytes n)
    (pos : Nat) (rest : List UInt8) :
    decodeFrom pos (bytes ++ rest) =
      (decodeFrom (pos + bytes.length) rest).map (Char.ofNat n :: ·) := by
  cases h with
  | one hb => simp [decodeFrom.eq_def pos, hb]
  | two hb hc => simp [decodeFrom.eq_def pos, hb, hc]
  | three hb hc hd => simp [decodeFrom.eq_def pos, hb, hc, hd]
  | four hb hc hd he => simp [decodeFrom.eq_def pos, hb, hc, hd, he]

/-- What is decoded starts with the bytes of a character. -/
theorem exists_charBytes {pos : Nat} {b : UInt8} {rest : List UInt8} {cs : List Char}
    (h : decodeFrom pos (b :: rest) = .ok cs) :
    ∃ bytes n tail, CharBytes bytes n ∧ b :: rest = bytes ++ tail := by
  rw [decodeFrom.eq_def] at h
  simp only at h
  -- the first byte says how many follow
  split at h
  · cases h
  · rename_i hb
    exact ⟨[b], _, rest, .one hb, rfl⟩
  · rename_i hb
    obtain _ | ⟨c, rest⟩ := rest
    · cases h
    by_cases hc : followsFirst b c = true
    · exact ⟨[b, c], _, rest, .two hb hc, rfl⟩
    · simp [hc] at h
  · rename_i hb
    obtain _ | ⟨c, rest⟩ := rest
    · cases h
    by_cases hc : followsFirst b c = true
    · obtain _ | ⟨d, rest⟩ := rest
      · simp [hc] at h
      by_cases hd : continues d = true
      · exact ⟨[b, c, d], _, rest, .three hb hc hd, rfl⟩
      · simp [hc, hd] at h
    · simp [hc] at h
  · rename_i size hzero hone htwo hsize
    have hb : followers? b = some 3 := by
      rw [followers?_eq] at hsize ⊢
      grind
    obtain _ | ⟨c, rest⟩ := rest
    · cases h
    by_cases hc : followsFirst b c = true
    · obtain _ | ⟨d, rest⟩ := rest
      · simp [hc] at h
      by_cases hd : continues d = true
      · obtain _ | ⟨e, rest⟩ := rest
        · simp [hc, hd] at h
        by_cases he : continues e = true
        · exact ⟨[b, c, d, e], _, rest, .four hb hc hd he, rfl⟩
        · simp [hc, hd, he] at h
      · simp [hc, hd] at h
    · simp [hc] at h

/-! ## Whole texts -/

theorem encodeUtf8_cons (c : Char) (cs : List Char) :
    encodeUtf8 (c :: cs) = String.utf8EncodeChar c ++ encodeUtf8 cs :=
  List.flatMap_cons

/-- Decoding takes one character, and goes on behind its bytes. -/
theorem exists_first_of_decodeFrom {pos : Nat} {b : UInt8} {rest : List UInt8} {cs : List Char}
    (h : decodeFrom pos (b :: rest) = .ok cs) :
    ∃ c others tail next, cs = c :: others ∧ b :: rest = String.utf8EncodeChar c ++ tail ∧
      decodeFrom next tail = .ok others := by
  obtain ⟨bytes, n, tail, hbytes, heq⟩ := exists_charBytes h
  rw [heq, hbytes.decodeFrom_append] at h
  cases hrest : decodeFrom (pos + bytes.length) tail with
  | error e =>
    rw [hrest] at h
    cases h
  | ok others =>
    rw [hrest] at h
    cases h
    exact ⟨_, others, tail, _, rfl, by rw [heq, hbytes.encode_eq], hrest⟩

theorem eq_encodeUtf8_of_decodeFrom {pos : Nat} {bytes : List UInt8} {cs : List Char}
    (h : decodeFrom pos bytes = .ok cs) : bytes = encodeUtf8 cs := by
  induction cs generalizing pos bytes with
  | nil =>
    cases bytes with
    | nil => rfl
    | cons b rest =>
      obtain ⟨c, others, tail, next, hcs, -, -⟩ := exists_first_of_decodeFrom h
      cases hcs
  | cons c cs ih =>
    cases bytes with
    | nil => cases h
    | cons b rest =>
      obtain ⟨d, others, tail, next, hcs, heq, hrest⟩ := exists_first_of_decodeFrom h
      cases hcs
      rw [heq, encodeUtf8_cons, ih hrest]

theorem decodeFrom_encodeUtf8 (pos : Nat) (cs : List Char) :
    decodeFrom pos (encodeUtf8 cs) = .ok cs := by
  induction cs generalizing pos with
  | nil => rfl
  | cons c cs ih =>
    rw [encodeUtf8_cons, (charBytes_encode c).decodeFrom_append, ih, Char.ofNat_toNat]
    rfl

/-- Bytes are decoded exactly when they are the bytes of a text, and then to this text. -/
theorem decodeUtf8_eq_ok_iff (bytes : List UInt8) (cs : List Char) :
    decodeUtf8 bytes = .ok cs ↔ bytes = encodeUtf8 cs := by
  constructor
  · exact eq_encodeUtf8_of_decodeFrom
  · rintro rfl
    exact decodeFrom_encodeUtf8 0 cs

end DocSignature.Text
