import Readahead.Utf8.Spelling

/-! A decoding splits the bytes into the encoding of its scalars and a tail in which no scalar is
found. The tail is empty, or it opens a sequence and is at most three bytes long, or it is the start
of no spelling and no spelling is the start of it. So it does not matter where the bytes are cut. -/
namespace Readahead.Utf8

inductive Opening.Fits : Opening → Bytes → Prop where
  | two (v : Nat) (low : 2 ≤ v) (high : v < 32) :
      Fits ⟨v, 1, 1, 0x80, 0xBF⟩ [UInt8.ofNat (0xC0 + v)]
  | three (v least most : Nat) (high : v < 16) (from80 : 0x80 ≤ least) (toBF : most ≤ 0xBF)
      (overlong : v = 0 → 0xA0 ≤ least) (surrogate : v = 13 → most ≤ 0x9F) :
      Fits ⟨v, 1, 2, least, most⟩ [UInt8.ofNat (0xE0 + v)]
  | threeMore (v : Nat) (low : 32 ≤ v) (high : v < 1024) (gap : v < 0x360 ∨ 0x37F < v) :
      Fits ⟨v, 2, 1, 0x80, 0xBF⟩ [UInt8.ofNat (0xE0 + v / 64), UInt8.ofNat (0x80 + v % 64)]
  | four (v least most : Nat) (high : v < 5) (from80 : 0x80 ≤ least) (toBF : most ≤ 0xBF)
      (overlong : v = 0 → 0x90 ≤ least) (beyond : v = 4 → most ≤ 0x8F) :
      Fits ⟨v, 1, 3, least, most⟩ [UInt8.ofNat (0xF0 + v)]
  | fourMore (v : Nat) (low : 16 ≤ v) (high : v < 272) :
      Fits ⟨v, 2, 2, 0x80, 0xBF⟩ [UInt8.ofNat (0xF0 + v / 64), UInt8.ofNat (0x80 + v % 64)]
  | fourLast (v : Nat) (low : 1024 ≤ v) (high : v < 17408) :
      Fits ⟨v, 3, 1, 0x80, 0xBF⟩ [UInt8.ofNat (0xF0 + v / 4096), UInt8.ofNat (0x80 + v / 64 % 64),
        UInt8.ofNat (0x80 + v % 64)]

/- A sequence is a number written in digits of six bits, which a byte each carries. -/
theorem digitsAbove {v d : Nat} (digit : d < 64) : (v * 64 + d) / 64 = v := by omega

theorem digitsLast {v d : Nat} (digit : d < 64) : (v * 64 + d) % 64 = d := by omega

theorem digitByte {b : UInt8} {base : Nat} (above : base ≤ b.toNat) :
    UInt8.ofNat (base + (b.toNat - base)) = b := by
  rw [Nat.add_sub_cancel' above, UInt8.ofNat_toNat]

theorem spellTwoDigits {v d : Nat} (low : 2 ≤ v) (high : v < 32) (digit : d < 64) :
    spell (Char.ofNat (v * 64 + d)) = [UInt8.ofNat (0xC0 + v), UInt8.ofNat (0x80 + d)] := by
  have n := charOf (n := v * 64 + d) (by omega)
  rw [spellTwo (by omega) (by omega), n, digitsAbove digit, digitsLast digit]

theorem spellThreeDigits {v d : Nat} (low : 32 ≤ v) (high : v < 1024)
    (gap : v < 0x360 ∨ 0x37F < v) (digit : d < 64) :
    spell (Char.ofNat (v * 64 + d)) =
      [UInt8.ofNat (0xE0 + v / 64), UInt8.ofNat (0x80 + v % 64), UInt8.ofNat (0x80 + d)] := by
  have n := charOf (n := v * 64 + d) (by omega)
  have above : (v * 64 + d) / 4096 = v / 64 := by omega
  rw [spellThree (by omega) (by omega), n, above, digitsAbove digit, digitsLast digit]

theorem spellFourDigits {v d : Nat} (low : 1024 ≤ v) (high : v < 17408) (digit : d < 64) :
    spell (Char.ofNat (v * 64 + d)) =
      [UInt8.ofNat (0xF0 + v / 4096), UInt8.ofNat (0x80 + v / 64 % 64),
        UInt8.ofNat (0x80 + v % 64), UInt8.ofNat (0x80 + d)] := by
  have n := charOf (n := v * 64 + d) (by omega)
  have first : (v * 64 + d) / 262144 = v / 4096 := by omega
  have second : (v * 64 + d) / 4096 % 64 = v / 64 % 64 := by omega
  rw [spellFour (by omega), n, first, second, digitsAbove digit, digitsLast digit]

theorem threeOpens {v : Nat} (high : v < 16) : ∃ e, e < 64 ∧ 32 ≤ v * 64 + e ∧
    v * 64 + e < 1024 ∧ (v * 64 + e < 0x360 ∨ 0x37F < v * 64 + e) := by
  by_cases gap : v = 13
  · exact ⟨0, by omega⟩
  · exact ⟨32, by omega⟩

theorem fourOpens {v : Nat} (high : v < 5) :
    ∃ e, e < 64 ∧ 16 ≤ v * 64 + e ∧ v * 64 + e < 272 := by
  by_cases last : v = 4
  · exact ⟨0, by omega⟩
  · exact ⟨16, by omega⟩

theorem fitsOpens {o : Opening} {seen : Bytes} (h : o.Fits seen) : Opens seen := by
  cases h with
  | two v low high => exact ⟨_, [0x80], by simp, spellTwoDigits low high (Nat.zero_lt_succ 63)⟩
  | three v least most high =>
    obtain ⟨e, digit, low, most, gap⟩ := threeOpens high
    have spelled := spellThreeDigits low most gap (Nat.zero_lt_succ 63)
    rw [digitsAbove digit, digitsLast digit] at spelled
    exact ⟨_, [UInt8.ofNat (0x80 + e), 0x80], by simp, spelled⟩
  | threeMore v low high gap =>
    exact ⟨_, [0x80], by simp, spellThreeDigits low high gap (Nat.zero_lt_succ 63)⟩
  | four v least most high =>
    obtain ⟨e, digit, low, most⟩ := fourOpens high
    have spelled := spellFourDigits (v := (v * 64 + e) * 64 + 0) (by omega) (by omega)
      (Nat.zero_lt_succ 63)
    have above : ((v * 64 + e) * 64 + 0) / 4096 = v := by omega
    rw [above, digitsAbove (Nat.zero_lt_succ 63), digitsLast digit,
      digitsLast (Nat.zero_lt_succ 63)] at spelled
    exact ⟨_, [UInt8.ofNat (0x80 + e), 0x80, 0x80], by simp, spelled⟩
  | fourMore v low high =>
    have spelled := spellFourDigits (v := v * 64 + 0) (by omega) (by omega) (Nat.zero_lt_succ 63)
    have above : (v * 64 + 0) / 4096 = v / 64 := by omega
    rw [above, digitsAbove (Nat.zero_lt_succ 63), digitsLast (Nat.zero_lt_succ 63)] at spelled
    exact ⟨_, [0x80, 0x80], by simp, spelled⟩
  | fourLast v low high =>
    exact ⟨_, [0x80], by simp, spellFourDigits low high (Nat.zero_lt_succ 63)⟩

inductive Stands : Option Opening → Bytes → Prop where
  | outside : Stands none []
  | inside {o : Opening} {seen : Bytes} (fits : o.Fits seen) : Stands (some o) seen

/- A verdict is right about the bytes it was reached by. A refusal is judged elsewhere. -/
def Verdict.Tells : Verdict → Bytes → Prop
  | .reject, _ => True
  | .more o, seen => o.Fits seen
  | .emit s, seen => spell s.char = seen ∧ s.width = seen.length

theorem emitTells {c : Char} {n : Nat} {seen : Bytes} (spelled : spell c = seen)
    (size : n = seen.length) : (Verdict.emit ⟨c, n⟩).Tells seen := ⟨spelled, size⟩

theorem leadTells (b : UInt8) : (lead b).Tells [b] := by
  unfold lead
  simp only
  split
  · have n := charOf (n := b.toNat) (by omega)
    refine emitTells ?_ rfl
    rw [spellOne (by omega), n, UInt8.ofNat_toNat]
  split
  · trivial
  split
  · have fits := Opening.Fits.two (b.toNat - 0xC0) (by omega) (by omega)
    rwa [digitByte (by omega)] at fits
  split
  · have fits := Opening.Fits.three (b.toNat - 0xE0) (if b.toNat = 0xE0 then 0xA0 else 0x80)
      (if b.toNat = 0xED then 0x9F else 0xBF) (by omega) (by split <;> omega)
      (by split <;> omega) (by split <;> omega) (by split <;> omega)
    rwa [digitByte (by omega)] at fits
  split
  · have fits := Opening.Fits.four (b.toNat - 0xF0) (if b.toNat = 0xF0 then 0x90 else 0x80)
      (if b.toNat = 0xF4 then 0x8F else 0xBF) (by omega) (by split <;> omega)
      (by split <;> omega) (by split <;> omega) (by split <;> omega)
    rwa [digitByte (by omega)] at fits
  · trivial

theorem fitsDigit {o : Opening} {seen : Bytes} (h : o.Fits seen) {b : UInt8}
    (passed : ¬(b.toNat < o.low ∨ o.high < b.toNat)) :
    b.toNat - 0x80 < 64 ∧ UInt8.ofNat (0x80 + (b.toNat - 0x80)) = b := by
  have bounds : 0x80 ≤ o.low ∧ o.high ≤ 0xBF := by
    cases h <;> simp only <;> omega
  exact ⟨by omega, digitByte (by omega)⟩

theorem nextTells {o : Opening} {seen : Bytes} (h : o.Fits seen) (b : UInt8) :
    (o.next b).Tells (seen ++ [b]) := by
  unfold Opening.next
  simp only
  split
  · trivial
  rename_i passed
  obtain ⟨digit, byte⟩ := fitsDigit h passed
  cases h with
  | two v low high =>
    have spelled := spellTwoDigits low high digit
    rw [byte] at spelled
    exact emitTells spelled rfl
  | three v least most high from80 toBF overlong surrogate =>
    simp only at passed
    have fits := Opening.Fits.threeMore (v * 64 + (b.toNat - 0x80)) (by omega) (by omega)
      (by omega)
    rwa [digitsAbove digit, digitsLast digit, byte] at fits
  | threeMore v low high gap =>
    have spelled := spellThreeDigits low high gap digit
    rw [byte] at spelled
    exact emitTells spelled rfl
  | four v least most high from80 toBF overlong beyond =>
    simp only at passed
    have fits := Opening.Fits.fourMore (v * 64 + (b.toNat - 0x80)) (by omega) (by omega)
    rwa [digitsAbove digit, digitsLast digit, byte] at fits
  | fourMore v low high =>
    have fits := Opening.Fits.fourLast (v * 64 + (b.toNat - 0x80)) (by omega) (by omega)
    have above : (v * 64 + (b.toNat - 0x80)) / 4096 = v / 64 := by omega
    rwa [above, digitsAbove digit, digitsLast digit, byte] at fits
  | fourLast v low high =>
    have spelled := spellFourDigits low high digit
    rw [byte] at spelled
    exact emitTells spelled rfl

theorem stepTells {within : Option Opening} {seen : Bytes} (h : Stands within seen) (b : UInt8) :
    (step within b).Tells (seen ++ [b]) := by
  cases h with
  | outside => exact leadTells b
  | inside fits => exact nextTells fits b

theorem refusalStays {within : Option Opening} {bytes : Bytes} (more : Bytes)
    (h : (decodeFrom within bytes).rest = .invalid) :
    decodeFrom within (bytes ++ more) = decodeFrom within bytes := by
  induction bytes generalizing within with
  | nil => cases within <;> simp [decodeFrom] at h
  | cons b bytes ih =>
    simp only [decodeFrom, List.cons_append] at h ⊢
    cases verdict : step within b with
    | reject => rfl
    | more o => simp only [verdict] at h ⊢; exact ih h
    | emit s => simp only [verdict] at h ⊢; rw [ih h]

structure Splits (bytes : Bytes) (d : Decoding) (tail : Bytes) : Prop where
  parts : bytes = encode (text d.scalars) ++ tail
  widths : d.scalars = measured (text d.scalars)
  tailRest : decode tail = ⟨[], d.rest⟩

theorem splitsFrom {within : Option Opening} {seen : Bytes} (stands : Stands within seen)
    (reached : ∀ more, decode (seen ++ more) = decodeFrom within more) (bytes : Bytes) :
    ∃ tail, Splits (seen ++ bytes) (decodeFrom within bytes) tail := by
  -- What was seen of an open sequence is in no scalar yet: it goes to the next one or to the tail.
  induction bytes generalizing within seen with
  | nil =>
    have same := reached []
    refine ⟨seen, by simp [decodeFrom, text, encode], by simp [decodeFrom, measured, text], ?_⟩
    rw [List.append_nil] at same
    rw [same]
    rfl
  | cons b bytes ih =>
    have tells := stepTells stands b
    have here := reached (b :: bytes)
    simp only [decodeFrom] at here ⊢
    cases verdict : step within b with
    | reject =>
      simp only [verdict] at here ⊢
      exact ⟨seen ++ b :: bytes, by simp [text, encode], by simp [measured, text], here⟩
    | more o =>
      simp only [verdict] at tells ⊢
      have further : ∀ more, decode ((seen ++ [b]) ++ more) = decodeFrom (some o) more := by
        intro more
        rw [List.append_assoc, List.cons_append, List.nil_append, reached, decodeFrom, verdict]
      obtain ⟨tail, found⟩ := ih (.inside tells) further
      rw [List.append_assoc, List.cons_append, List.nil_append] at found
      exact ⟨tail, found⟩
    | emit s =>
      simp only [verdict] at tells ⊢
      obtain ⟨tail, found⟩ := ih .outside (fun more => rfl)
      refine ⟨tail, ?_, ?_, found.tailRest⟩
      · have parts := found.parts
        rw [List.nil_append] at parts
        simp only [text, List.map_cons, encode, List.flatMap_cons] at parts ⊢
        rw [tells.1, List.append_assoc, List.append_assoc, List.cons_append, List.nil_append,
          ← parts]
      · have same : s = ⟨s.char, (spell s.char).length⟩ := by rw [tells.1, ← tells.2]
        have widths := found.widths
        simp only [text, measured, List.map_cons] at widths ⊢
        rw [← same, ← widths]

theorem decodeSplits (bytes : Bytes) : ∃ tail, Splits bytes (decode bytes) tail := by
  have h := splitsFrom .outside (fun _ => rfl) bytes
  simpa [decode] using h

theorem widthAppend (first second : List Scalar) :
    width (first ++ second) = width first + width second := by
  induction first with
  | nil => exact (Nat.zero_add _).symm
  | cons s first ih => rw [List.cons_append, width, width, ih, Nat.add_assoc]

theorem widthMeasured (text : Text) : width (measured text) = (encode text).length := by
  induction text with
  | nil => rfl
  | cons c text ih =>
    simp only [measured, width, List.map_cons, encode, List.flatMap_cons,
      List.length_append] at ih ⊢
    rw [ih]

theorem splitsTail {bytes tail : Bytes} {d : Decoding} (h : Splits bytes d tail) :
    tail = bytes.drop d.span := by
  rw [Decoding.span, h.widths, widthMeasured]
  conv => rhs; rw [h.parts]
  simp [text]

theorem decodeCut (first second : Bytes) :
    decode (first ++ second) =
      ⟨(decode first).scalars ++ (decode (first.drop (decode first).span ++ second)).scalars,
        (decode (first.drop (decode first).span ++ second)).rest⟩ := by
  obtain ⟨tail, split⟩ := decodeSplits first
  have rest := splitsTail split
  subst rest
  have parts := split.parts
  conv => lhs; rw [parts, List.append_assoc, encodedAhead, ← split.widths]

theorem fitsShort {o : Opening} {seen : Bytes} (h : o.Fits seen) : seen ≠ [] ∧ seen.length ≤ 3 := by
  cases h <;> simp

theorem openFrom {within : Option Opening} {seen : Bytes} (stands : Stands within seen)
    (bytes : Bytes) (h : decodeFrom within bytes = ⟨[], .incomplete⟩) :
    ∃ o : Opening, o.Fits (seen ++ bytes) := by
  induction bytes generalizing within seen with
  | nil =>
    cases stands with
    | outside => simp [decodeFrom] at h
    | inside fits => exact ⟨_, by simpa using fits⟩
  | cons b bytes ih =>
    have tells := stepTells stands b
    simp only [decodeFrom] at h
    cases verdict : step within b with
    | reject => simp [verdict] at h
    | more o =>
      simp only [verdict] at h tells
      have found := ih (.inside tells) h
      rwa [List.append_assoc, List.cons_append, List.nil_append] at found
    | emit s => simp [verdict] at h

theorem incompleteOpens {bytes : Bytes} (h : decode bytes = ⟨[], .incomplete⟩) :
    Opens bytes ∧ bytes ≠ [] ∧ bytes.length ≤ 3 := by
  obtain ⟨o, fits⟩ := openFrom .outside bytes h
  exact ⟨fitsOpens fits, fitsShort fits⟩

theorem nothingFrom {within : Option Opening} {bytes : Bytes}
    (h : decodeFrom within bytes = ⟨[], .nothing⟩) : within = none ∧ bytes = [] := by
  induction bytes generalizing within with
  | nil => cases within <;> simp [decodeFrom] at h ⊢
  | cons b bytes ih =>
    simp only [decodeFrom] at h
    cases verdict : step within b with
    | reject => simp [verdict] at h
    | more o =>
      simp only [verdict] at h
      exact absurd (ih h).1 (by simp)
    | emit s => simp [verdict] at h

theorem nothingLeft {bytes : Bytes} (h : decode bytes = ⟨[], .nothing⟩) : bytes = [] :=
  (nothingFrom h).2

theorem invalidExactly (bytes : Bytes) :
    decode bytes = ⟨[], .invalid⟩ ↔
      bytes ≠ [] ∧ ¬Opens bytes ∧ ∀ c rest, bytes ≠ spell c ++ rest := by
  constructor
  · intro h
    refine ⟨?_, ?_, ?_⟩
    · intro empty
      subst empty
      simp [decode, decodeFrom] at h
    · rintro ⟨c, rest, _, spelled⟩
      have same : decodeFrom none bytes = ⟨[], .invalid⟩ := h
      have refused : (decodeFrom none bytes).rest = .invalid := by rw [same]
      have stays := refusalStays rest refused
      have read := spelledAhead c []
      rw [List.append_nil, spelled, decode, stays, same] at read
      simp at read
    · intro c rest spelled
      subst spelled
      rw [spelledAhead] at h
      simp at h
  · rintro ⟨nonempty, shut, unspelled⟩
    obtain ⟨tail, split⟩ := decodeSplits bytes
    cases scalars : (decode bytes).scalars with
    | cons s scalars =>
      have parts := split.parts
      simp only [scalars, text, List.map_cons, encode, List.flatMap_cons,
        List.append_assoc] at parts
      exact absurd parts (unspelled _ _)
    | nil =>
      have whole : decode bytes = ⟨[], (decode bytes).rest⟩ := by rw [← scalars]
      cases rest : (decode bytes).rest with
      | nothing => rw [rest] at whole; exact absurd (nothingLeft whole) nonempty
      | incomplete => rw [rest] at whole; exact absurd (incompleteOpens whole).1 shut
      | invalid => rw [rest] at whole; exact whole

end Readahead.Utf8
