import Readahead.Progress
import Readahead.Utf8.Spelling

/-! What units do to the progress, one after the other, and that recording bytes by the span comes
to the same. The last line break of two spans is that of the second, if it has one: what a span
leaves of the column and the line is overwritten or added to by the next, so it does not matter how
the bytes are grouped.

A line break stands in the spelling of no other scalar, so a text moves the line alike as scalars
and as the bytes of its encoding, and only the columns differ. -/
namespace Readahead

namespace Utf8

theorem breakCode {c : Char} (inside : lineBreak ∈ spell c) : c.toNat = 10 := by
  by_cases one : c.toNat < 0x80
  · rw [spellOne one] at inside
    have value := congrArg UInt8.toNat (List.mem_singleton.mp inside)
    rw [byteOf (by omega)] at value
    exact value.symm
  · exact absurd (spellHigh (Nat.not_lt.mp one) inside) (by decide)

theorem spellBreak {c : Char} (inside : lineBreak ∈ spell c) : spell c = [lineBreak] := by
  have ten := breakCode inside
  rw [spellOne (by omega), ten]
  rfl

theorem spellsBreak (c : Char) : spell c = [lineBreak] ↔ c = '\n' := by
  constructor
  · intro spelled
    exact Char.toNat_inj.mp (breakCode (by rw [spelled]; exact List.mem_cons_self))
  · rintro rfl
    rfl

end Utf8

theorem lastBreakNone (span : Bytes) : lastBreak? span = none ↔ lineBreak ∉ span := by
  induction span with
  | nil => simp [lastBreak?]
  | cons b later ih =>
    rw [lastBreak?, List.mem_cons, not_or, ← ih]
    cases lastBreak? later with
    | some last => simp
    | none => by_cases here : b = lineBreak <;> simp [here, eq_comm]

theorem lastBreakSome {span : Bytes} {last : Nat} (found : lastBreak? span = some last) :
    span[last]? = some lineBreak ∧ lineBreak ∉ span.drop (last + 1) := by
  induction span generalizing last with
  | nil => contradiction
  | cons b later ih =>
    cases further : lastBreak? later with
    | some next =>
      simp only [lastBreak?, further] at found
      obtain rfl := Option.some.inj found
      exact ih further
    | none =>
      simp only [lastBreak?, further] at found
      by_cases here : b = lineBreak
      · rw [if_pos here] at found
        obtain rfl := Option.some.inj found
        exact ⟨congrArg some here, (lastBreakNone later).mp further⟩
      · rw [if_neg here] at found
        contradiction

theorem lastBreakInside {span : Bytes} {last : Nat} (found : lastBreak? span = some last) :
    last < span.length :=
  (List.getElem?_eq_some_iff.mp (lastBreakSome found).1).1

theorem lastBreakLater (first : Bytes) {later : Bytes} {last : Nat}
    (found : lastBreak? later = some last) :
    lastBreak? (first ++ later) = some (first.length + last) := by
  induction first with
  | nil => rw [List.nil_append, found, List.length_nil, Nat.zero_add]
  | cons b first ih =>
    rw [List.cons_append, lastBreak?, ih]
    exact congrArg some (Nat.add_right_comm _ _ _)

theorem lastBreakFirst (first : Bytes) {later : Bytes} (none : lastBreak? later = none) :
    lastBreak? (first ++ later) = lastBreak? first := by
  induction first with
  | nil => exact none
  | cons b first ih => rw [List.cons_append, lastBreak?, lastBreak?, ih]

theorem unitsFlat (bytes : Bytes) : (bytes.map fun b => [b]).flatten = bytes := by
  rw [← List.flatMap_def, List.flatMap_singleton']

namespace Progress

def move (p : Progress) (unit : Bytes) : Progress :=
  if unit = [lineBreak] then ⟨⟨p.place.line + 1, 1, p.place.offset + unit.length⟩, []⟩
  else ⟨⟨p.place.line, p.place.column + 1, p.place.offset + unit.length⟩, p.line ++ unit⟩

def moveAll (p : Progress) (units : List Bytes) : Progress := units.foldl move p

theorem moveAllCons (p : Progress) (unit : Bytes) (later : List Bytes) :
    p.moveAll (unit :: later) = (p.move unit).moveAll later := rfl

theorem moveAllAppend (p : Progress) (first later : List Bytes) :
    p.moveAll (first ++ later) = (p.moveAll first).moveAll later := List.foldl_append

theorem moveOffset (p : Progress) (unit : Bytes) :
    (p.move unit).place.offset = p.place.offset + unit.length := by
  unfold move
  split <;> rfl

theorem moveAllOffset (p : Progress) (units : List Bytes) :
    (p.moveAll units).place.offset = p.place.offset + units.flatten.length := by
  induction units generalizing p with
  | nil => rfl
  | cons unit units ih =>
    rw [moveAllCons, ih, moveOffset, List.flatten_cons, List.length_append, Nat.add_assoc]

theorem recordBroken (p : Progress) {span : Bytes} {last : Nat}
    (found : lastBreak? span = some last) : p.recordBytes span =
      ⟨⟨p.place.line + span.count lineBreak, span.length - last, p.place.offset + span.length⟩,
        span.drop (last + 1)⟩ := by
  rw [recordBytes, found]

theorem recordWhole (p : Progress) {span : Bytes} (none : lastBreak? span = none) :
    p.recordBytes span = ⟨⟨p.place.line, p.place.column + span.length,
      p.place.offset + span.length⟩, p.line ++ span⟩ := by
  rw [recordBytes, none]

theorem recordNothing (p : Progress) : p.recordBytes [] = p := by
  rw [recordWhole p rfl, List.append_nil]
  rfl

theorem recordLine (p : Progress) (span : Bytes) :
    (p.recordBytes span).place.line = p.place.line + span.count lineBreak := by
  cases found : lastBreak? span with
  | some last => rw [recordBroken p found]
  | none =>
    rw [recordWhole p found, List.count_eq_zero.mpr ((lastBreakNone span).mp found)]
    rfl

theorem recordOffset (p : Progress) (span : Bytes) :
    (p.recordBytes span).place.offset = p.place.offset + span.length := by
  cases found : lastBreak? span with
  | some last => rw [recordBroken p found]
  | none => rw [recordWhole p found]

theorem recordAppend (p : Progress) (first later : Bytes) :
    p.recordBytes (first ++ later) = (p.recordBytes first).recordBytes later := by
  cases again : lastBreak? later with
  | some last =>
    -- The second piece overwrites what the first left of the column and the line.
    have kept : (first ++ later).drop (first.length + last + 1) = later.drop (last + 1) := by
      rw [Nat.add_assoc, ← List.drop_drop, List.drop_left]
    rw [recordBroken _ again, recordBroken p (lastBreakLater first again), recordLine, recordOffset,
      kept, List.count_append, List.length_append, Nat.add_sub_add_left]
    simp only [Nat.add_assoc]
  | none =>
    have none := (lastBreakNone later).mp again
    rw [recordWhole _ again]
    cases found : lastBreak? first with
    | some last =>
      have inside := lastBreakInside found
      rw [recordBroken p found, recordBroken p ((lastBreakFirst first again).trans found),
        List.count_append, List.count_eq_zero.mpr none, List.length_append,
        List.drop_append_of_le_length inside]
      simp only [Nat.add_zero, Nat.add_assoc, Nat.sub_add_comm (Nat.le_of_lt inside)]
    | none =>
      rw [recordWhole p found, recordWhole p ((lastBreakFirst first again).trans found)]
      simp only [List.length_append, List.append_assoc, Nat.add_assoc]

theorem recordByte (p : Progress) (b : UInt8) : p.recordBytes [b] = p.move [b] := by
  by_cases here : b = lineBreak
  · rw [here]
    rfl
  · have none : lastBreak? [b] = none := if_neg here
    rw [recordWhole p none, move, if_neg fun same => here (List.singleton_inj.mp same)]
    rfl

theorem recordUnits (p : Progress) (span : Bytes) :
    p.recordBytes span = p.moveAll (span.map fun b => [b]) := by
  induction span generalizing p with
  | nil => exact recordNothing p
  | cons b later ih =>
    rw [← List.singleton_append, recordAppend, recordByte, ih]
    rfl

theorem recordSpelled (p : Progress) {s : Utf8.Scalar}
    (width : s.width = (Utf8.spell s.char).length) :
    p.recordScalar s = p.move (Utf8.spell s.char) := by
  simp only [recordScalar, move, Utf8.spellsBreak, width]

theorem recordScalars (p : Progress) {scalars : List Utf8.Scalar}
    (widths : ∀ s ∈ scalars, s.width = (Utf8.spell s.char).length) :
    scalars.foldl recordScalar p = p.moveAll (scalars.map fun s => Utf8.spell s.char) := by
  induction scalars generalizing p with
  | nil => rfl
  | cons s later ih =>
    rw [List.foldl_cons, recordSpelled p (widths s List.mem_cons_self),
      ih _ fun other member => widths other (List.mem_cons_of_mem _ member)]
    rfl

structure Beside (fine coarse : Progress) : Prop where
  line : coarse.place.line = fine.place.line
  offset : coarse.place.offset = fine.place.offset
  column : coarse.place.column ≤ fine.place.column
  bytes : coarse.line = fine.line

variable {fine coarse : Progress}

theorem besideSame (p : Progress) : p.Beside p := ⟨rfl, rfl, Nat.le_refl _, rfl⟩

theorem besideMove (beside : fine.Beside coarse) (unit : Bytes) :
    (fine.move unit).Beside (coarse.move unit) := by
  obtain ⟨line, offset, column, bytes⟩ := beside
  unfold move
  split
  · exact ⟨congrArg (· + 1) line, congrArg (· + unit.length) offset, Nat.le_refl _, rfl⟩
  · exact ⟨line, congrArg (· + unit.length) offset, Nat.add_le_add_right column 1,
      congrArg (· ++ unit) bytes⟩

theorem besideMoveAll (beside : fine.Beside coarse) (units : List Bytes) :
    (fine.moveAll units).Beside (coarse.moveAll units) := by
  induction units generalizing fine coarse with
  | nil => exact beside
  | cons unit later ih => exact ih (besideMove beside unit)

theorem besideSpell (beside : fine.Beside coarse) (c : Char) :
    (fine.recordBytes (Utf8.spell c)).Beside (coarse.move (Utf8.spell c)) := by
  by_cases inside : lineBreak ∈ Utf8.spell c
  · rw [Utf8.spellBreak inside, recordByte]
    exact besideMove beside [lineBreak]
  · have whole : coarse.move (Utf8.spell c) = ⟨⟨coarse.place.line, coarse.place.column + 1,
        coarse.place.offset + (Utf8.spell c).length⟩, coarse.line ++ Utf8.spell c⟩ :=
      if_neg fun same => inside (by rw [same]; exact List.mem_cons_self)
    have size := (Utf8.spellShort c).1
    rw [recordWhole fine ((lastBreakNone _).mpr inside), whole]
    refine ⟨beside.line, ?_, ?_, ?_⟩
    · exact congrArg (· + (Utf8.spell c).length) beside.offset
    · exact Nat.add_le_add beside.column size
    · exact congrArg (· ++ Utf8.spell c) beside.bytes

theorem besideText (beside : fine.Beside coarse) (text : Utf8.Text) :
    (fine.recordBytes (Utf8.encode text)).Beside (coarse.moveAll (text.map Utf8.spell)) := by
  induction text generalizing fine coarse with
  | nil =>
    rw [show Utf8.encode [] = [] from rfl, recordNothing]
    exact beside
  | cons c text ih =>
    -- The span is cut where the spelling of one scalar ends and that of the next begins.
    rw [Utf8.encodeCons, recordAppend, List.map_cons, moveAllCons]
    exact ih (besideSpell beside c)

end Progress
end Readahead
