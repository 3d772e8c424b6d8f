import Readahead.Utf8

/-! The spelling of a scalar value by its size, one to four bytes, and that the machine reads back
what was spelled, whatever stands behind it. Bytes that are the encoding of a text are shown as
that text. -/
namespace Readahead.Utf8

theorem charRange (c : Char) : c.toNat < 0xD800 ∨ (0xDFFF < c.toNat ∧ c.toNat < 0x110000) := c.valid

theorem charOf {n : Nat} (h : n < 0xD800 ∨ (0xDFFF < n ∧ n < 0x110000)) :
    (Char.ofNat n).toNat = n := by
  have valid : n.isValidChar := h
  have made : Char.ofNat n = Char.ofNatAux n valid := dif_pos valid
  rw [made]
  rfl

theorem byteOf {n : Nat} (h : n < 256) : (UInt8.ofNat n).toNat = n := by
  simp [UInt8.toNat_ofNat', Nat.mod_eq_of_lt h]

theorem spellOne {c : Char} (h : c.toNat < 0x80) : spell c = [UInt8.ofNat c.toNat] := by
  have e : c.val.toNat = c.toNat := rfl
  have h1 : c.toNat ≤ 0x7f := by omega
  simp only [spell, String.utf8EncodeChar, e, h1, if_true]

theorem spellTwo {c : Char} (h : 0x80 ≤ c.toNat) (h2 : c.toNat < 0x800) :
    spell c = [UInt8.ofNat (0xC0 + c.toNat / 64), UInt8.ofNat (0x80 + c.toNat % 64)] := by
  have e : c.val.toNat = c.toNat := rfl
  have h1 : ¬ c.toNat ≤ 0x7f := by omega
  have h2 : c.toNat ≤ 0x7ff := by omega
  have top : c.toNat / 64 % 32 + 192 = 192 + c.toNat / 64 := by omega
  simp only [spell, String.utf8EncodeChar, e, h1, h2, if_true, if_false]
  rw [top, Nat.add_comm _ 128]

theorem spellThree {c : Char} (h : 0x800 ≤ c.toNat) (h2 : c.toNat < 0x10000) :
    spell c = [UInt8.ofNat (0xE0 + c.toNat / 4096), UInt8.ofNat (0x80 + c.toNat / 64 % 64),
      UInt8.ofNat (0x80 + c.toNat % 64)] := by
  have e : c.val.toNat = c.toNat := rfl
  have h1 : ¬ c.toNat ≤ 0x7f := by omega
  have h3 : ¬ c.toNat ≤ 0x7ff := by omega
  have h2 : c.toNat ≤ 0xffff := by omega
  have top : c.toNat / 4096 % 16 + 224 = 224 + c.toNat / 4096 := by omega
  simp only [spell, String.utf8EncodeChar, e, h1, h2, h3, if_true, if_false]
  rw [top, Nat.add_comm _ 128, Nat.add_comm _ 128]

theorem spellFour {c : Char} (h : 0x10000 ≤ c.toNat) :
    spell c = [UInt8.ofNat (0xF0 + c.toNat / 262144), UInt8.ofNat (0x80 + c.toNat / 4096 % 64),
      UInt8.ofNat (0x80 + c.toNat / 64 % 64), UInt8.ofNat (0x80 + c.toNat % 64)] := by
  have e : c.val.toNat = c.toNat := rfl
  have := charRange c
  have h1 : ¬ c.toNat ≤ 0x7f := by omega
  have h3 : ¬ c.toNat ≤ 0x7ff := by omega
  have h2 : ¬ c.toNat ≤ 0xffff := by omega
  have top : c.toNat / 262144 % 8 + 240 = 240 + c.toNat / 262144 := by omega
  simp only [spell, String.utf8EncodeChar, e, h1, h2, h3, if_false]
  rw [top, Nat.add_comm _ 128, Nat.add_comm _ 128, Nat.add_comm _ 128]

theorem spellHigh {c : Char} (wide : 0x80 ≤ c.toNat) {b : UInt8} (inside : b ∈ spell c) :
    0x80 ≤ b.toNat := by
  have range := charRange c
  have high : ∀ n, 0x80 ≤ n → n < 256 → b = UInt8.ofNat n → 0x80 ≤ b.toNat := by
    rintro n least most rfl
    rwa [byteOf most]
  by_cases two : c.toNat < 0x800
  · rw [spellTwo wide two] at inside
    simp only [List.mem_cons, List.not_mem_nil, or_false] at inside
    rcases inside with same | same <;> exact high _ (by omega) (by omega) same
  by_cases three : c.toNat < 0x10000
  · rw [spellThree (by omega) three] at inside
    simp only [List.mem_cons, List.not_mem_nil, or_false] at inside
    rcases inside with same | same | same <;> exact high _ (by omega) (by omega) same
  · rw [spellFour (by omega)] at inside
    simp only [List.mem_cons, List.not_mem_nil, or_false] at inside
    rcases inside with same | same | same | same <;> exact high _ (by omega) (by omega) same

theorem leadOne {v : Nat} (high : v < 0x80) :
    lead (UInt8.ofNat v) = .emit ⟨Char.ofNat v, 1⟩ := by
  have byte : (UInt8.ofNat v).toNat = v := byteOf (by omega)
  simp only [lead, byte]
  rw [if_pos high]

theorem leadTwo {v : Nat} (low : 2 ≤ v) (high : v < 32) :
    lead (UInt8.ofNat (0xC0 + v)) = .more ⟨v, 1, 1, 0x80, 0xBF⟩ := by
  have byte : (UInt8.ofNat (0xC0 + v)).toNat = 0xC0 + v := byteOf (by omega)
  simp only [lead, byte, Nat.add_sub_cancel_left]
  rw [if_neg (by omega), if_neg (by omega), if_pos (by omega)]

theorem leadThree {v : Nat} (high : v < 16) : lead (UInt8.ofNat (0xE0 + v)) =
    .more ⟨v, 1, 2, if v = 0 then 0xA0 else 0x80, if v = 13 then 0x9F else 0xBF⟩ := by
  have byte : (UInt8.ofNat (0xE0 + v)).toNat = 0xE0 + v := byteOf (by omega)
  have least : (0xE0 + v = 0xE0) = (v = 0) := propext (by omega)
  have most : (0xE0 + v = 0xED) = (v = 13) := propext (by omega)
  simp only [lead, byte, Nat.add_sub_cancel_left, least, most]
  rw [if_neg (by omega), if_neg (by omega), if_neg (by omega), if_pos (by omega)]

theorem leadFour {v : Nat} (high : v < 5) : lead (UInt8.ofNat (0xF0 + v)) =
    .more ⟨v, 1, 3, if v = 0 then 0x90 else 0x80, if v = 4 then 0x8F else 0xBF⟩ := by
  have byte : (UInt8.ofNat (0xF0 + v)).toNat = 0xF0 + v := byteOf (by omega)
  have least : (0xF0 + v = 0xF0) = (v = 0) := propext (by omega)
  have most : (0xF0 + v = 0xF4) = (v = 4) := propext (by omega)
  simp only [lead, byte, Nat.add_sub_cancel_left, least, most]
  rw [if_neg (by omega), if_neg (by omega), if_neg (by omega), if_neg (by omega),
    if_pos (by omega)]

theorem nextDigit {value seen owed low high d : Nat} (digit : d < 64) (least : low ≤ 0x80 + d)
    (most : 0x80 + d ≤ high) :
    Opening.next ⟨value, seen, owed, low, high⟩ (UInt8.ofNat (0x80 + d)) =
      if owed ≤ 1 then .emit ⟨Char.ofNat (value * 64 + d), seen + 1⟩
      else .more ⟨value * 64 + d, seen + 1, owed - 1, 0x80, 0xBF⟩ := by
  have byte : (UInt8.ofNat (0x80 + d)).toNat = 0x80 + d := byteOf (by omega)
  simp only [Opening.next, byte, Nat.add_sub_cancel_left]
  rw [if_neg (by omega)]

theorem spelledAhead (c : Char) (rest : Bytes) :
    decode (spell c ++ rest) =
      ⟨⟨c, (spell c).length⟩ :: (decode rest).scalars, (decode rest).rest⟩ := by
  have range := charRange c
  have whole : ∀ n, n = c.toNat → Char.ofNat n = c := by
    intro n h
    rw [h]
    exact Char.ofNat_toNat c
  by_cases one : c.toNat < 0x80
  · rw [spellOne one]
    simp only [decode, List.cons_append, List.nil_append, decodeFrom, step, leadOne one]
    rw [whole _ rfl]
    rfl
  by_cases two : c.toNat < 0x800
  · have lead := leadTwo (v := c.toNat / 64) (by omega) (by omega)
    rw [spellTwo (by omega) two]
    simp only [decode, List.cons_append, List.nil_append, decodeFrom, step, lead]
    rw [nextDigit (by omega) (by omega) (by omega), if_pos (by omega), whole _ (by omega)]
    rfl
  by_cases three : c.toNat < 0x10000
  · have lead := leadThree (v := c.toNat / 4096) (by omega)
    rw [spellThree (by omega) three]
    simp only [decode, List.cons_append, List.nil_append, decodeFrom, step, lead]
    rw [nextDigit (by omega) (by split <;> omega) (by split <;> omega), if_neg (by omega)]
    simp only
    rw [nextDigit (by omega) (by omega) (by omega), if_pos (by omega), whole _ (by omega)]
    rfl
  · have lead := leadFour (v := c.toNat / 262144) (by omega)
    rw [spellFour (by omega)]
    simp only [decode, List.cons_append, List.nil_append, decodeFrom, step, lead]
    rw [nextDigit (by omega) (by split <;> omega) (by split <;> omega), if_neg (by omega)]
    simp only
    rw [nextDigit (by omega) (by omega) (by omega), if_neg (by omega)]
    simp only
    rw [nextDigit (by omega) (by omega) (by omega), if_pos (by omega), whole _ (by omega)]
    rfl

def measured (text : Text) : List Scalar := text.map fun c => ⟨c, (spell c).length⟩

theorem encodedAhead (text : Text) (rest : Bytes) :
    decode (encode text ++ rest) =
      ⟨measured text ++ (decode rest).scalars, (decode rest).rest⟩ := by
  induction text with
  | nil => rfl
  | cons c text ih =>
    have first : encode (c :: text) ++ rest = spell c ++ (encode text ++ rest) := by
      simp [encode]
    rw [first, spelledAhead, ih]
    rfl

theorem decodeEncode (text : Text) : decode (encode text) = ⟨measured text, .nothing⟩ := by
  have h := encodedAhead text []
  simpa [decode, decodeFrom] using h

theorem spellNonempty (c : Char) : spell c ≠ [] := by
  intro empty
  have read := spelledAhead c []
  rw [empty] at read
  simp [decode, decodeFrom] at read

theorem spellShort (c : Char) : 0 < (spell c).length ∧ (spell c).length ≤ 4 := by
  refine ⟨List.length_pos_iff.mpr (spellNonempty c), ?_⟩
  by_cases one : c.toNat < 0x80
  · rw [spellOne one]
    simp
  by_cases two : c.toNat < 0x800
  · rw [spellTwo (by omega) two]
    simp
  by_cases three : c.toNat < 0x10000
  · rw [spellThree (by omega) three]
    simp
  · rw [spellFour (by omega)]
    simp

theorem textMeasured (text : Text) : Utf8.text (measured text) = text := by
  induction text with
  | nil => rfl
  | cons c text ih => exact congrArg (c :: ·) ih

theorem encodeInjective {first second : Text} (same : encode first = encode second) :
    first = second := by
  have read := decodeEncode first
  rw [same, decodeEncode second] at read
  have scalars := congrArg (Utf8.text ∘ Decoding.scalars) read
  simpa [textMeasured] using scalars.symm

theorem encodeAppend (first second : Text) :
    encode (first ++ second) = encode first ++ encode second := by
  simp [encode]

theorem encodeCons (c : Char) (text : Text) : encode (c :: text) = spell c ++ encode text := rfl

theorem encodeLength (text : Text) : text.length ≤ (encode text).length := by
  induction text with
  | nil => exact Nat.zero_le _
  | cons c text ih =>
    have positive := (spellShort c).1
    simp only [encode, List.flatMap_cons, List.length_append, List.length_cons] at ih ⊢
    omega

theorem lossyWhole {within : Option Opening} {bytes : Bytes}
    (whole : (decodeFrom within bytes).rest = .nothing) :
    lossyFrom within bytes = text (decodeFrom within bytes).scalars := by
  induction bytes generalizing within with
  | nil =>
    cases within with
    | none => rfl
    | some o => contradiction
  | cons b bytes ih =>
    unfold decodeFrom at whole ⊢
    unfold lossyFrom
    cases told : step within b with
    | reject =>
      rw [told] at whole
      contradiction
    | more o =>
      rw [told] at whole
      exact ih whole
    | emit s =>
      rw [told] at whole
      exact congrArg (s.char :: ·) (ih whole)

theorem lossyEncode (text : Text) : lossy (encode text) = text := by
  have whole : (decode (encode text)).rest = .nothing := by rw [decodeEncode]
  rw [lossy, lossyWhole whole, ← decode, decodeEncode, textMeasured]

end Readahead.Utf8
