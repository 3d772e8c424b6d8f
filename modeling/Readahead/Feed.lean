import Readahead.Run

/-! Refilling a buffer from the reader that feeds it until the window holds enough bytes. A refill
offers all the free storage, and tries interrupted reads again. A window that stays too small is a
fault, and the fault that finds the data ended and nothing waiting gives up the storage. A stream
that does nothing but interrupt is reported as such.

`gather` is ensure, `refill` its loop, and `lacking` its shortfall. -/
namespace Readahead

structure Feed where
  buffer : Buffer
  below : Reader
  deriving DecidableEq, Repr

namespace Feed

def refill (n : Nat) : Nat → Feed → Run Feed Unit
  | 0, f => .still () f
  | fuel + 1, f =>
    if f.buffer.stop < n ∧ f.buffer.phase = .flowing then
      (f.below.pull f.buffer.room).andThen fun answer below =>
        let (buffer, notes) := f.buffer.absorb answer
        (Run.noting () (Feed.mk buffer below) notes).andThen fun _ => refill n fuel
    else .still () f

def lacking (n : Nat) (f : Feed) : Run Feed Fault :=
  match f.buffer.phase with
  | .broken kind => .still (.stream kind) f
  | .flowing => .still (.stream .interrupted) f
  | .ended | .spent =>
    if f.buffer.filled = 0 then
      .noting .nothingLeft { f with buffer := f.buffer.giveUp } [.spent]
    else .still (.tooFew n f.buffer.filled) f

def gather (n : Nat) (f : Feed) : Run Feed (Except Fault Unit) :=
  if f.buffer.phase = .spent then .still (.error .nothingLeft) f
  else if f.buffer.capacity < n then .still (.error (.tooLarge n f.buffer.capacity)) f
  else if n ≤ f.buffer.filled then .still (.ok ()) f
  else
    (refill n (n + f.below.interruptions) { f with buffer := f.buffer.toFront }).andThen fun _ f =>
      if n ≤ f.buffer.stop then .still (.ok ()) f
      else (lacking n f).map .error

end Feed
end Readahead
