import Readahead.Utf8

/-! How far a scanner has come: the place it stands at, and what it consumed of the line there.
Lines and columns count from one. Only the line break begins a line, and it belongs to none.

Bytes are recorded a span at a time, one column each: the last line break in the span alone tells
the column and the line. Scalars are recorded one by one, with the width they were decoded from.
Bytes that leave by a raw read pass: they move the offset and nothing else.

The line tracker's record_bytes, record_char and skip_raw are `recordBytes`, `recordScalar` and
`pass`. -/
namespace Readahead

def lineBreak : UInt8 := 10

def lastBreak? : Bytes → Option Nat
  | [] => none
  | b :: later => match lastBreak? later with
    | some last => some (last + 1)
    | none => if b = lineBreak then some 0 else none

structure Position where
  line : Nat
  column : Nat
  offset : Nat
  deriving DecidableEq, Repr

namespace Position

def start : Position := ⟨1, 1, 0⟩

def display (p : Position) : String := toString p.line ++ ":" ++ toString p.column

end Position

structure Progress where
  place : Position
  line : Bytes
  deriving DecidableEq, Repr

namespace Progress

def start : Progress := ⟨.start, []⟩

def recordBytes (p : Progress) (span : Bytes) : Progress :=
  match lastBreak? span with
  | some last =>
    ⟨⟨p.place.line + span.count lineBreak, span.length - last, p.place.offset + span.length⟩,
      span.drop (last + 1)⟩
  | none =>
    ⟨⟨p.place.line, p.place.column + span.length, p.place.offset + span.length⟩, p.line ++ span⟩

def recordScalar (p : Progress) (s : Utf8.Scalar) : Progress :=
  if s.char = '\n' then ⟨⟨p.place.line + 1, 1, p.place.offset + s.width⟩, []⟩
  else ⟨⟨p.place.line, p.place.column + 1, p.place.offset + s.width⟩, p.line ++ Utf8.spell s.char⟩

def pass (p : Progress) (n : Nat) : Progress :=
  { p with place := { p.place with offset := p.place.offset + n } }

end Progress
end Readahead
