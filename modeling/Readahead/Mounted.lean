import Readahead.Lookahead

/-! A scanner mounted on a reader, and what can be asked of it: to look ahead, to consume, and to
test what comes next. A request that fails consumes nothing.

A scanner over bytes looks for the encoding of a text, one over scalars compares scalar by scalar.
The latter takes bytes that are UTF-8 as the text they encode, and any other as mere bytes.

`look` is try_peek_at, `skip` is advance, `next` is current, `atEnd` is is_done, `take` draws on
units, `meets` and `meetsBytes` are has_prefix and has_prefix_bytes, `accept` and `acceptBytes` are
consume and consume_bytes, and `retire` is into_unused. -/
namespace Readahead

structure Mounted where
  scanner : Scanner
  below : Reader
  deriving DecidableEq, Repr

namespace Mounted

def feed (m : Mounted) : Feed := ⟨m.scanner.buffer, m.below⟩

def withFeed (m : Mounted) (f : Feed) : Mounted := ⟨{ m.scanner with buffer := f.buffer }, f.below⟩

def lookahead (m : Mounted) (stock : Stock) : Lookahead := ⟨stock, m.feed, m.scanner.place.offset⟩

def withLookahead (m : Mounted) (l : Lookahead) : Mounted :=
  ⟨{ m.scanner with buffer := l.feed.buffer, ahead := .scalars l.stock }, l.feed.below⟩

def reachBytes (n : Nat) (m : Mounted) : Run Mounted (Except Fault Unit) :=
  (m.feed.gather n).within m.withFeed

def reach (n : Nat) (m : Mounted) : Run Mounted (Except Fault Unit) :=
  match m.scanner.ahead with
  | .bytes => m.reachBytes n
  | .scalars stock => ((m.lookahead stock).gather n).within m.withLookahead

def look (n : Nat) (m : Mounted) : Run Mounted (Except Fault Item) :=
  if n = 0 then .still (.error .zeroPosition) m
  else (m.reach n).andThen fun verdict m =>
    .still (verdict.bind fun _ => (m.scanner.items[n - 1]?).elim (.error .nothingLeft) .ok) m

def skip (n : Nat) (m : Mounted) : Run Mounted (Except Fault Unit) :=
  if n = 0 then .still (.ok ()) m
  else (m.reach n).andThen fun verdict m => match verdict with
    | .error fault => .still (.error fault) m
    | .ok _ => .still (.ok ()) { m with scanner := m.scanner.consume n }

def next (m : Mounted) : Run Mounted (Option Item) :=
  (m.look 1).andThen fun seen m => match seen with
    | .error _ => .still none m
    | .ok item => (m.skip 1).map fun verdict => verdict.toOption.map fun _ => item

def atEnd (m : Mounted) : Run Mounted Bool := (m.look 1).map fun seen => !seen.isOk

def take : Nat → Mounted → Run Mounted (List Item)
  | 0, m => .still [] m
  | n + 1, m => m.next.andThen fun got m => match got with
    | none => .still [] m
    | some item => (take n m).map (item :: ·)

def meetsBytes (bytes : Bytes) (m : Mounted) : Run Mounted Bool :=
  if bytes.isEmpty then .still true m
  else (m.reachBytes bytes.length).andThen fun verdict m =>
    .still (verdict.isOk && bytes.isPrefixOf m.scanner.window) m

def meets (text : Utf8.Text) (m : Mounted) : Run Mounted Bool :=
  match m.scanner.ahead.grain with
  | .bytes => m.meetsBytes (Utf8.encode text)
  | .scalars =>
    if text.isEmpty then .still true m
    else (m.reach text.length).andThen fun verdict m =>
      .still (verdict.isOk && (text.map Item.scalar).isPrefixOf m.scanner.items) m

def skipIf (n : Nat) (test : Run Mounted Bool) : Run Mounted Bool :=
  test.andThen fun passed m => if passed then (m.skip n).map Except.isOk else .still false m

def accept (text : Utf8.Text) (m : Mounted) : Run Mounted Bool :=
  match m.scanner.ahead.grain with
  | .bytes => skipIf (Utf8.encode text).length (m.meets text)
  | .scalars => skipIf text.length (m.meets text)

def acceptBytes (bytes : Bytes) (m : Mounted) : Run Mounted Bool :=
  match m.scanner.ahead.grain with
  | .bytes => skipIf bytes.length (m.meetsBytes bytes)
  | .scalars => match Utf8.text? bytes with
    | some text => m.accept text
    | none => (m.meetsBytes bytes).andThen fun passed m =>
      .still passed (if passed then { m with scanner := m.scanner.consumeBytes bytes } else m)

def retire (m : Mounted) : Reader := .remainder m.scanner.window m.below

end Mounted
end Readahead
