import Readahead.Feed

/-! Filling a stock: scalar values are decoded from the window as it grows, and the reader beneath
is asked only while what lies ready cannot settle the request.

A pass leaves the start of a sequence for later. Bytes that are no UTF-8 are a fault but stay where
they are. Each round asks for one byte more than the window holds, so that an open sequence can
end. No scalar takes less than a byte, so more of them than the capacity are refused unread.

`gather` is ensure_chars, `fill` its loop, `pass` is decode_more, and `lacking` is the shortfall. -/
namespace Readahead

structure Lookahead where
  stock : Stock
  feed : Feed
  offset : Nat
  deriving DecidableEq, Repr

namespace Lookahead

def window (l : Lookahead) : Bytes := l.feed.buffer.window

def front (l : Lookahead) : Nat := l.offset + l.stock.span

def pass (l : Lookahead) : Run Lookahead (Except Fault Unit) :=
  let pending := l.stock.uncovered l.window
  if pending.isEmpty then .still (.ok ()) l
  else
    let d := Utf8.decode pending
    let found := { l with stock := l.stock.extend d }
    let done := Note.decoded d.scalars.length d.span
    if d.rest = .invalid then
      .noting (.error (.invalid found.front)) found [done, .malformed found.front]
    else .noting (.ok ()) found [done]

def lacking (n : Nat) (fault : Fault) (l : Lookahead) : Fault :=
  if !fault.isEnd then fault
  else if l.stock.span < l.feed.buffer.filled then .truncated l.front
  else if l.stock.count = 0 then .nothingLeft
  else .tooFew n l.stock.count

def overfull (n : Nat) (l : Lookahead) : Run Lookahead Fault :=
  if l.stock.count = 0 then .noting .stuck l [.full]
  else .still (.tooLarge n l.feed.buffer.capacity) l

def settle (n : Nat) (l : Lookahead) (next : Lookahead → Run Lookahead (Except Fault Unit)) :
    Run Lookahead (Except Fault Unit) :=
  l.pass.andThen fun verdict l =>
    if n ≤ l.stock.count then .still (.ok ()) l
    else match verdict with
      | .error fault => .still (.error fault) l
      | .ok _ => next l

def fill (n : Nat) : Nat → Lookahead → Run Lookahead (Except Fault Unit)
  | 0, l => .still (.error .stuck) l
  | fuel + 1, l =>
    if n ≤ l.stock.count then .still (.ok ()) l
    else l.settle n fun l =>
      if l.feed.buffer.capacity < l.feed.buffer.filled + 1 then (l.overfull n).map .error
      else
        (l.feed.gather (l.feed.buffer.filled + 1)).andThen fun verdict feed =>
          let l := { l with feed := feed }
          match verdict with
          | .ok _ => fill n fuel l
          | .error fault => l.settle n fun l => .still (.error (l.lacking n fault)) l

def gather (n : Nat) (l : Lookahead) : Run Lookahead (Except Fault Unit) :=
  if l.feed.buffer.capacity < n then .still (.error (.tooLarge n l.feed.buffer.capacity)) l
  else fill n (l.feed.buffer.capacity + 1) l

end Lookahead
end Readahead
