import Readahead.Proofs.ByteFlow
import Readahead.Proofs.LineTracking

/-! What it is to consume: units leave the front of the window and move the progress, and nothing
else changes. Items that lie ready are such units, and so are the bytes the window begins with. -/
namespace Readahead

namespace Stock

variable {s : Stock} {window : Bytes}

theorem coversWidth (covers : s.Covers window) (n : Nat) :
    Utf8.width (s.scalars.take n) = (Utf8.encode (Utf8.text (s.scalars.take n))).length := by
  have first : s.scalars.take n = Utf8.measured (Utf8.text (s.scalars.take n)) := by
    conv => lhs; rw [coversMeasured covers]
    simp only [Utf8.measured, Utf8.text, List.map_take]
  conv => lhs; rw [first]
  exact Utf8.widthMeasured _

theorem coversTaken (covers : s.Covers window) (n : Nat) :
    window = Utf8.encode (Utf8.text (s.scalars.take n)) ++
      (Utf8.encode (Utf8.text (s.scalars.drop n)) ++ s.uncovered window) := by
  have parts := coversParts covers
  rw [← List.append_assoc, ← Utf8.encodeAppend]
  simp only [Utf8.text, ← List.map_append, List.take_append_drop]
  exact parts

theorem coversDropped (covers : s.Covers window) (n : Nat) :
    window.drop (Utf8.width (s.scalars.take n)) =
      Utf8.encode (Utf8.text (s.scalars.drop n)) ++ s.uncovered window := by
  have parts := coversTaken covers n
  conv => lhs; rw [parts]
  rw [coversWidth covers n, List.drop_left]

theorem coversSum (covers : s.Covers window) (n : Nat) :
    Utf8.width (s.scalars.take n) + Utf8.width (s.scalars.drop n) = s.span := by
  rw [← covers.total, ← Utf8.widthAppend, List.take_append_drop]

theorem dropCovers (covers : s.Covers window) (n : Nat) :
    (s.drop n).Covers (window.drop (Utf8.width (s.scalars.take n))) := by
  have inside := covers.inside
  have sum := coversSum covers n
  have size : Utf8.width (s.scalars.drop n) =
      (Utf8.encode (Utf8.text (s.scalars.drop n))).length := by
    have whole := coversWidth covers s.scalars.length
    have split := congrArg (List.length ∘ Utf8.encode ∘ Utf8.text)
      (List.take_append_drop n s.scalars)
    simp only [Function.comp, Utf8.text, List.map_append, Utf8.encodeAppend,
      List.length_append] at split
    rw [List.take_length, covers.total] at whole
    have first := coversWidth covers n
    simp only [Utf8.text] at first whole ⊢
    omega
  refine ⟨?_, ?_, fun x member => covers.widths x (List.mem_of_mem_drop member), ?_⟩
  · simp only [drop, List.length_drop]
    omega
  · simp only [drop]
    omega
  · rw [coversDropped covers n]
    simp only [drop]
    rw [← sum, Nat.add_sub_cancel_left, size, List.take_left]

end Stock

/- The second scanner is the first after it consumed these units. -/
structure Scanner.Spends (s t : Scanner) (units : List Bytes) : Prop where
  fit : t.Fit
  window : s.window = units.flatten ++ t.window
  progress : t.progress = s.progress.moveAll units
  capacity : t.capacity = s.capacity
  phase : t.buffer.phase = s.buffer.phase
  grain : t.ahead.grain = s.ahead.grain

namespace Scanner

def units (s : Scanner) (n : Nat) : List Bytes := (s.items.take n).map Item.spelling

theorem unitsBytes {s : Scanner} (grained : s.ahead = .bytes) (n : Nat) :
    s.units n = (s.window.take n).map fun b => [b] := by
  simp only [units, items, grained, Ahead.items, ← List.map_take, List.map_map]
  rfl

theorem unitsScalars {s : Scanner} {stock : Stock} (grained : s.ahead = .scalars stock) (n : Nat) :
    (s.units n).flatten = Utf8.encode (Utf8.text (stock.scalars.take n)) := by
  simp only [units, items, grained, Ahead.items, ← List.map_take, List.map_map, Utf8.encode,
    Utf8.text, List.flatMap]
  rfl

theorem dropWindow {s : Scanner} {n : Nat} {taken : Bytes}
    (parts : s.window = taken ++ s.window.drop n) :
    s.window = taken ++ (s.buffer.drop n).window := by
  rw [Buffer.dropWindow]
  exact parts

theorem itemsInside {s : Scanner} (fit : s.Fit) {n : Nat} (ready : n ≤ s.items.length) :
    s.ahead.extent n ≤ s.window.length ∧
      s.window = (s.units n).flatten ++ s.window.drop (s.ahead.extent n) := by
  cases grained : s.ahead with
  | bytes =>
    simp only [items, grained, Ahead.items, List.length_map] at ready
    rw [unitsBytes grained, unitsFlat]
    exact ⟨ready, (List.take_append_drop n s.window).symm⟩
  | scalars stock =>
    have spells := fit.ahead
    rw [grained] at spells
    have covers : stock.Covers s.window := spells
    have parts := Stock.coversTaken covers n
    rw [unitsScalars grained]
    simp only [Ahead.extent, Stock.coversDropped covers n]
    refine ⟨?_, parts⟩
    rw [parts, List.length_append, Stock.coversWidth covers n]
    exact Nat.le_add_right _ _

theorem dropSpells {s : Scanner} (fit : s.Fit) (n : Nat) :
    (s.ahead.drop n).Spells (s.window.drop (s.ahead.extent n)) := by
  have spells := fit.ahead
  cases grained : s.ahead with
  | bytes => trivial
  | scalars stock =>
    rw [grained] at spells
    exact Stock.dropCovers spells n

theorem recordsUnits {s : Scanner} (fit : s.Fit) (n : Nat) :
    s.ahead.record s.window n s.progress = s.progress.moveAll (s.units n) := by
  cases grained : s.ahead with
  | bytes => exact (Progress.recordUnits _ _).trans (by rw [unitsBytes grained])
  | scalars stock =>
    have spells := fit.ahead
    rw [grained] at spells
    have covers : stock.Covers s.window := spells
    refine (Progress.recordScalars _ fun x member =>
      covers.widths x (List.mem_of_mem_take member)).trans ?_
    simp only [units, items, grained, Ahead.items, ← List.map_take, List.map_map]
    rfl

theorem consumeSpends {s : Scanner} (fit : s.Fit) {n : Nat} (ready : n ≤ s.items.length) :
    s.Spends (s.consume n) (s.units n) := by
  obtain ⟨inside, parts⟩ := itemsInside fit ready
  refine ⟨⟨Buffer.dropSound fit.buffer inside, ?_⟩, dropWindow parts, recordsUnits fit n, rfl, rfl,
    ?_⟩
  · have spells := dropSpells fit n
    rw [window, ← Buffer.dropWindow] at spells
    exact spells
  · simp only [consume]
    cases s.ahead <;> rfl

theorem consumeBytesSpends {s : Scanner} (fit : s.Fit) {bytes : Bytes}
    (ready : bytes <+: s.window) :
    s.Spends (s.consumeBytes bytes) (bytes.map fun b => [b]) := by
  have parts : s.window = bytes ++ s.window.drop bytes.length := by
    obtain ⟨rest, more⟩ := ready
    rw [← more, List.drop_left]
  refine ⟨⟨Buffer.dropSound fit.buffer ready.length_le, clearSpells _ _⟩, ?_,
    Progress.recordUnits _ bytes, rfl, rfl, ?_⟩
  · rw [unitsFlat]
    exact dropWindow parts
  · simp only [consumeBytes]
    cases s.ahead <;> rfl

theorem spendsOffset {s t : Scanner} {units : List Bytes} (spends : s.Spends t units) :
    t.place.offset = s.place.offset + units.flatten.length := by
  rw [place, spends.progress]
  exact Progress.moveAllOffset _ _

theorem spendsMoves {s t : Scanner} {units : List Bytes} (spends : s.Spends t units)
    (below : Reader) :
    (Reader.scanner s below).Moves (hands units.flatten []) (.scanner t below) := by
  refine .scanner ?_ ?_ (Reader.movesStill (fun depth => rfl) below)
  · change s.window ++ [] = _
    rw [List.append_nil]
    exact spends.window
  · exact spendsOffset spends

end Scanner
end Readahead
