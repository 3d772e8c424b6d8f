import Readahead.Utf8.Splitting

/-! The longest text whose encoding some bytes begin with, told without the machine, and that the
machine finds it. What stands behind that text opens a sequence exactly if the machine calls it
incomplete, and is no UTF-8 exactly if the machine calls it invalid. -/
namespace Readahead.Utf8

structure Longest (bytes : Bytes) (text : Text) (tail : Bytes) : Prop where
  parts : bytes = encode text ++ tail
  longest : ∀ other rest, bytes = encode other ++ rest →
    (encode other).length ≤ (encode text).length

theorem scalarsAhead (text : Text) (rest : Bytes) :
    Utf8.text (decode (encode text ++ rest)).scalars =
      text ++ Utf8.text (decode rest).scalars := by
  rw [encodedAhead, Utf8.text, List.map_append]
  exact congrArg (· ++ _) (textMeasured text)

theorem longestUnique {bytes : Bytes} {first second : Text} {left right : Bytes}
    (one : Longest bytes first left) (other : Longest bytes second right) :
    first = second ∧ left = right := by
  have size : (encode first).length = (encode second).length :=
    Nat.le_antisymm (other.longest _ _ one.parts) (one.longest _ _ other.parts)
  obtain ⟨same, rest⟩ := List.append_inj (one.parts.symm.trans other.parts) size
  exact ⟨encodeInjective same, rest⟩

theorem longestRest {c : Char} {bytes : Bytes} {text : Text} {tail : Bytes}
    (whole : Longest (spell c ++ bytes) (c :: text) tail) : Longest bytes text tail := by
  refine ⟨?_, fun other rest parts => ?_⟩
  · have parts := whole.parts
    rw [encodeCons, List.append_assoc] at parts
    exact List.append_cancel_left parts
  · have least := whole.longest (c :: other) rest (by rw [parts, encodeCons, List.append_assoc])
    simp only [encodeCons, List.length_append] at least
    omega

theorem longestEncoded (text : Text) : Longest (encode text) text [] := by
  refine ⟨(List.append_nil _).symm, fun other rest parts => ?_⟩
  rw [parts, List.length_append]
  exact Nat.le_add_right _ _

theorem encodeShort (text : Text) : (encode text).length ≤ 4 * text.length := by
  induction text with
  | nil => exact Nat.le_refl 0
  | cons c text ih =>
    have short := (spellShort c).2
    rw [encodeCons, List.length_append, List.length_cons]
    omega

theorem opensShort {bytes : Bytes} (opens : Opens bytes) : bytes.length ≤ 3 := by
  obtain ⟨c, rest, more, spelled⟩ := opens
  have short := (spellShort c).2
  have positive := List.length_pos_iff.mpr more
  rw [spelled, List.length_append] at short
  omega

theorem longShut {bytes : Bytes} (long : 4 ≤ bytes.length) : bytes ≠ [] ∧ ¬Opens bytes := by
  refine ⟨fun empty => ?_, fun opens => ?_⟩
  · rw [empty] at long
    contradiction
  · have short := opensShort opens
    omega

theorem spanEncoded (bytes : Bytes) :
    (encode (text (decode bytes).scalars)).length = (decode bytes).span := by
  obtain ⟨tail, split⟩ := decodeSplits bytes
  rw [Decoding.span, ← widthMeasured, ← split.widths]

theorem decodeParts (bytes : Bytes) :
    bytes = encode (text (decode bytes).scalars) ++ bytes.drop (decode bytes).span := by
  obtain ⟨tail, split⟩ := decodeSplits bytes
  rw [← splitsTail split]
  exact split.parts

theorem decodeTail (bytes : Bytes) :
    decode (bytes.drop (decode bytes).span) = ⟨[], (decode bytes).rest⟩ := by
  obtain ⟨tail, split⟩ := decodeSplits bytes
  rw [← splitsTail split]
  exact split.tailRest

theorem decodeLongest (bytes : Bytes) :
    Longest bytes (text (decode bytes).scalars) (bytes.drop (decode bytes).span) := by
  refine ⟨decodeParts bytes, fun other rest parts => ?_⟩
  have more := scalarsAhead other rest
  rw [← parts] at more
  rw [more, encodeAppend, List.length_append]
  exact Nat.le_add_right _ _

theorem decodingOf {d : Decoding} {scalars : List Scalar} {rest : Rest}
    (found : d.scalars = scalars) (left : d.rest = rest) : d = ⟨scalars, rest⟩ := by
  rw [← found, ← left]

theorem opensExactly (bytes : Bytes) :
    bytes = [] ∨ decode bytes = ⟨[], .incomplete⟩ ↔ Opens bytes := by
  constructor
  · rintro (rfl | incomplete)
    · exact ⟨'a', spell 'a', spellNonempty 'a', rfl⟩
    · exact (incompleteOpens incomplete).1
  · rintro ⟨c, rest, more, spelled⟩
    have read := spelledAhead c []
    rw [List.append_nil, spelled, decodeCut] at read
    have scalars : (decode bytes).scalars = [] := by
      cases found : (decode bytes).scalars with
      | nil => rfl
      | cons s scalars =>
        rw [found] at read
        have later := (List.append_eq_nil_iff.mp (List.cons.inj (Decoding.mk.inj read).1).2).2
        have done := (Decoding.mk.inj read).2
        have none : decode (bytes.drop (decode bytes).span ++ rest) = ⟨[], .nothing⟩ :=
          decodingOf later done
        exact absurd (List.append_eq_nil_iff.mp (nothingLeft none)).2 more
    have whole := decodingOf scalars rfl
    cases rest : (decode bytes).rest with
    | nothing =>
      rw [rest] at whole
      exact .inl (nothingLeft whole)
    | incomplete =>
      rw [rest] at whole
      exact .inr whole
    | invalid =>
      rw [rest] at whole
      have shut := ((invalidExactly bytes).mp whole).2.1
      exact absurd ⟨c, _, more, spelled⟩ shut

instance (bytes : Bytes) : Decidable (Opens bytes) := decidable_of_iff _ (opensExactly bytes)

theorem opensUnless {tail : Bytes} (unrefused : ¬(tail ≠ [] ∧ ¬Opens tail)) : Opens tail := by
  by_cases empty : tail = []
  · exact (opensExactly tail).mp (.inl empty)
  · exact Decidable.of_not_not fun shut => unrefused ⟨empty, shut⟩

theorem opensBefore {first whole : Bytes} (front : first <+: whole) (opens : Opens whole) :
    Opens first := by
  obtain ⟨rest, rfl⟩ := front
  obtain ⟨c, more, some, spelled⟩ := opens
  rw [List.append_assoc] at spelled
  exact ⟨c, rest ++ more, List.append_ne_nil_of_right_ne_nil rest some, spelled⟩

theorem opensDecode {bytes : Bytes} (opens : Opens bytes) :
    (decode bytes).scalars = [] ∧ (decode bytes).rest ≠ .invalid := by
  obtain rfl | incomplete := (opensExactly bytes).mpr opens
  · exact ⟨rfl, Rest.noConfusion⟩
  · rw [incomplete]
    exact ⟨rfl, Rest.noConfusion⟩

theorem restTells (bytes : Bytes) :
    let tail := bytes.drop (decode bytes).span
    ((decode bytes).rest = .invalid ↔ tail ≠ [] ∧ ¬Opens tail) ∧
      ((decode bytes).rest = .nothing ↔ tail = []) := by
  intro tail
  have read : decode tail = ⟨[], (decode bytes).rest⟩ := decodeTail bytes
  cases rest : (decode bytes).rest with
  | nothing =>
    rw [rest] at read
    simp [nothingLeft read]
  | incomplete =>
    rw [rest] at read
    obtain ⟨opening, nonempty, _⟩ := incompleteOpens read
    simp [opening, nonempty]
  | invalid =>
    rw [rest] at read
    have shut := (invalidExactly tail).mp read
    simp [shut.1, shut.2.1]

theorem textEncodes {bytes : Bytes} {whole : Text} (told : text? bytes = some whole) :
    encode whole = bytes := by
  unfold text? at told
  simp only at told
  split at told
  · rename_i complete
    have parts := decodeParts bytes
    rw [(restTells bytes).2.mp complete, List.append_nil] at parts
    cases Option.some.inj told
    exact parts.symm
  · contradiction

end Readahead.Utf8
