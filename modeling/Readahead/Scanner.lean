import Readahead.Buffer
import Readahead.Progress

/-! A scanner: a buffer, what lies ready ahead of it, and how far it has come. The reader beneath is
not part of it; what is here never asks for more bytes.

A scanner over bytes has the window itself ahead. One over scalars has a stock of them, decoded
from the front of the window; their bytes stay in the window until the scalars are consumed.
Whatever moves the window by bytes gives the stock up.

A scanner is set up by its capacity. The default has room for ten scalar values of the longest
spelling, and a capacity of nought stands for it.

The two kinds of scanner are the byte cursor and the char cursor, whose ring of decoded code points
is the stock. `consume` is the last part of advance, `consumeBytes` that of consume_bytes where the
bytes are no UTF-8, and `deliver` that of a raw read. -/
namespace Readahead

structure Stock where
  scalars : List Utf8.Scalar
  span : Nat
  deriving DecidableEq, Repr

namespace Stock

def empty : Stock := ⟨[], 0⟩

def count (s : Stock) : Nat := s.scalars.length

def uncovered (s : Stock) (window : Bytes) : Bytes := window.drop s.span

def extend (s : Stock) (d : Utf8.Decoding) : Stock := ⟨s.scalars ++ d.scalars, s.span + d.span⟩

def drop (s : Stock) (n : Nat) : Stock :=
  ⟨s.scalars.drop n, s.span - Utf8.width (s.scalars.take n)⟩

structure Covers (s : Stock) (window : Bytes) : Prop where
  inside : s.span ≤ window.length
  total : Utf8.width s.scalars = s.span
  widths : ∀ x ∈ s.scalars, x.width = (Utf8.spell x.char).length
  spelled : Utf8.encode (Utf8.text s.scalars) = window.take s.span

end Stock

inductive Item where
  | byte (b : UInt8)
  | scalar (c : Char)
  deriving DecidableEq, Repr

namespace Item

def code : Item → Nat
  | .byte b => b.toNat
  | .scalar c => c.toNat

def spelling : Item → Bytes
  | .byte b => [b]
  | .scalar c => Utf8.spell c

end Item

inductive Grain where
  | bytes
  | scalars
  deriving DecidableEq, Repr

inductive Ahead where
  | bytes
  | scalars (stock : Stock)
  deriving DecidableEq, Repr

namespace Ahead

def fresh : Grain → Ahead
  | .bytes => .bytes
  | .scalars => .scalars .empty

def grain : Ahead → Grain
  | .bytes => .bytes
  | .scalars _ => .scalars

def items (window : Bytes) : Ahead → List Item
  | .bytes => window.map .byte
  | .scalars stock => stock.scalars.map fun s => .scalar s.char

def extent (n : Nat) : Ahead → Nat
  | .bytes => n
  | .scalars stock => Utf8.width (stock.scalars.take n)

def drop (n : Nat) : Ahead → Ahead
  | .bytes => .bytes
  | .scalars stock => .scalars (stock.drop n)

def record (window : Bytes) (n : Nat) (p : Progress) : Ahead → Progress
  | .bytes => p.recordBytes (window.take n)
  | .scalars stock => (stock.scalars.take n).foldl .recordScalar p

def clear : Ahead → Ahead
  | .bytes => .bytes
  | .scalars _ => .scalars .empty

end Ahead

structure Scanner where
  buffer : Buffer
  ahead : Ahead
  progress : Progress
  deriving DecidableEq, Repr

def defaultCapacity : Nat := 40

structure Settings where
  capacity : Nat
  deriving DecidableEq, Repr

namespace Settings

def standard : Settings := ⟨defaultCapacity⟩

def granted (s : Settings) : Nat := if s.capacity = 0 then defaultCapacity else s.capacity

end Settings

namespace Scanner

def fresh (grain : Grain) (capacity : Nat) : Scanner := ⟨.fresh capacity, .fresh grain, .start⟩

def window (s : Scanner) : Bytes := s.buffer.window

def capacity (s : Scanner) : Nat := s.buffer.capacity

def place (s : Scanner) : Position := s.progress.place

def line (s : Scanner) : Bytes := s.progress.line

def items (s : Scanner) : List Item := s.ahead.items s.window

def consume (s : Scanner) (n : Nat) : Scanner :=
  ⟨s.buffer.drop (s.ahead.extent n), s.ahead.drop n,
    s.ahead.record s.window n s.progress⟩

/-- Consumes bytes as bytes, one column each, whatever the scanner steps by. -/
def consumeBytes (s : Scanner) (bytes : Bytes) : Scanner :=
  ⟨s.buffer.drop bytes.length, s.ahead.clear, s.progress.recordBytes bytes⟩

def deliver (s : Scanner) (n : Nat) (heard : Option Answer) : Answer × Scanner :=
  let (answer, buffer) := s.buffer.deliver n heard
  match answer with
  | .served bytes => (answer, ⟨buffer, s.ahead.clear, s.progress.pass bytes.length⟩)
  | .failed _ => (answer, ⟨buffer, s.ahead.clear, s.progress⟩)

end Scanner
end Readahead
