/-! UTF-8 read one byte at a time. The machine is between sequences or inside one; it knows the
range the next byte must lie in, so overlong forms, surrogates and values above the last scalar
are refused at the first byte that makes them certain. What stands behind the last whole sequence
is nothing, the start of one more, or no UTF-8 at all.

Bytes can be shown as text whatever they are. Each longest run that could still have become a
sequence, or a lone byte that begins none, is replaced by one U+FFFD; the byte that breaks a run off
is read again as the first of the next. -/
namespace Readahead

abbrev Bytes := List UInt8

namespace Utf8

abbrev Text := List Char

def spell (c : Char) : Bytes := String.utf8EncodeChar c

def encode (text : Text) : Bytes := text.flatMap spell

def Opens (bytes : Bytes) : Prop := ∃ c rest, rest ≠ [] ∧ spell c = bytes ++ rest

structure Scalar where
  char : Char
  width : Nat
  deriving DecidableEq, Repr

def width : List Scalar → Nat
  | [] => 0
  | s :: scalars => s.width + width scalars

def text (scalars : List Scalar) : Text := scalars.map Scalar.char

/-- The inside of a sequence: the value so far, the bytes seen and owed, the bounds of the next. -/
structure Opening where
  value : Nat
  seen : Nat
  owed : Nat
  low : Nat
  high : Nat
  deriving DecidableEq, Repr

inductive Verdict where
  | reject
  | more (opening : Opening)
  | emit (scalar : Scalar)
  deriving DecidableEq, Repr

def lead (b : UInt8) : Verdict :=
  let v := b.toNat
  if v < 0x80 then .emit ⟨Char.ofNat v, 1⟩
  else if v < 0xC2 then .reject
  else if v < 0xE0 then .more ⟨v - 0xC0, 1, 1, 0x80, 0xBF⟩
  else if v < 0xF0 then
    .more ⟨v - 0xE0, 1, 2, if v = 0xE0 then 0xA0 else 0x80, if v = 0xED then 0x9F else 0xBF⟩
  else if v < 0xF5 then
    .more ⟨v - 0xF0, 1, 3, if v = 0xF0 then 0x90 else 0x80, if v = 0xF4 then 0x8F else 0xBF⟩
  else .reject

def Opening.next (o : Opening) (b : UInt8) : Verdict :=
  let v := b.toNat
  if v < o.low ∨ o.high < v then .reject
  else if o.owed ≤ 1 then .emit ⟨Char.ofNat (o.value * 64 + (v - 0x80)), o.seen + 1⟩
  else .more ⟨o.value * 64 + (v - 0x80), o.seen + 1, o.owed - 1, 0x80, 0xBF⟩

def step (within : Option Opening) (b : UInt8) : Verdict :=
  match within with
  | none => lead b
  | some o => o.next b

inductive Rest where
  | nothing
  | incomplete
  | invalid
  deriving DecidableEq, Repr

structure Decoding where
  scalars : List Scalar
  rest : Rest
  deriving DecidableEq, Repr

def Decoding.span (d : Decoding) : Nat := width d.scalars

def decodeFrom (within : Option Opening) : Bytes → Decoding
  | [] => ⟨[], if within.isSome then .incomplete else .nothing⟩
  | b :: bytes => match step within b with
    | .reject => ⟨[], .invalid⟩
    | .more o => decodeFrom (some o) bytes
    | .emit s =>
      let d := decodeFrom none bytes
      ⟨s :: d.scalars, d.rest⟩

def decode (bytes : Bytes) : Decoding := decodeFrom none bytes

def text? (bytes : Bytes) : Option Text :=
  let d := decode bytes
  if d.rest = .nothing then some (text d.scalars) else none

def replacement : Char := '\uFFFD'

def lossyFrom (within : Option Opening) : Bytes → Text
  | [] => if within.isSome then [replacement] else []
  | b :: bytes => match step within b with
    | .emit s => s.char :: lossyFrom none bytes
    | .more o => lossyFrom (some o) bytes
    | .reject =>
      if within.isNone then replacement :: lossyFrom none bytes
      else replacement :: match lead b with
        | .emit s => s.char :: lossyFrom none bytes
        | .more o => lossyFrom (some o) bytes
        | .reject => replacement :: lossyFrom none bytes

def lossy (bytes : Bytes) : Text := lossyFrom none bytes

end Utf8
end Readahead
