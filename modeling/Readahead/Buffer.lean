import Readahead.Fault
import Readahead.Note
import Readahead.Script

/-! The fixed storage between a scanner and the reader beneath it. The window is what was taken from
that reader and not yet consumed; everything above this module speaks of the window only.

The phase is how the reader beneath stands as far as the buffer has heard. A passing failure is
forgotten, any other is remembered by its kind alone. A buffer is spent, and gives its storage up,
once the data has ended and the window is empty.

The phases stand for open, ended, failed and released. `toFront` is compact, `giveUp` is release,
`absorb` takes in one read of a refill, and read_through is `demand` and then `deliver`. -/
namespace Readahead

inductive Phase where
  | flowing
  | ended
  | broken (kind : FailureKind)
  | spent
  deriving DecidableEq, Repr

structure Buffer where
  storage : Bytes
  capacity : Nat
  start : Nat
  stop : Nat
  phase : Phase
  deriving DecidableEq, Repr

namespace Buffer

def fresh (capacity : Nat) : Buffer := ⟨List.replicate capacity 0, capacity, 0, 0, .flowing⟩

def window (b : Buffer) : Bytes := (b.storage.take b.stop).drop b.start

def filled (b : Buffer) : Nat := b.stop - b.start

def room (b : Buffer) : Nat := b.storage.length - b.stop

structure Sound (b : Buffer) : Prop where
  ordered : b.start ≤ b.stop
  bounded : b.stop ≤ b.capacity
  positive : 0 < b.capacity
  stored : b.phase ≠ .spent → b.storage.length = b.capacity
  emptied : b.phase = .spent → b.storage = [] ∧ b.start = 0 ∧ b.stop = 0
  lasting : b.phase ≠ .broken .interrupted

def toFront (b : Buffer) : Buffer :=
  { b with storage := b.window ++ b.storage.drop b.filled, start := 0, stop := b.filled }

def append (b : Buffer) (bytes : Bytes) : Buffer :=
  { b with
    storage := b.storage.take b.stop ++ bytes ++ b.storage.drop (b.stop + bytes.length)
    stop := b.stop + bytes.length }

def drop (b : Buffer) (n : Nat) : Buffer := { b with start := b.start + n }

def giveUp (b : Buffer) : Buffer :=
  { b with storage := [], start := 0, stop := 0, phase := .spent }

def turn (b : Buffer) (phase : Phase) : Buffer := { b with phase := phase }

def phaseAfter (b : Buffer) (f : Failure) : Phase := if f.Passing then b.phase else .broken f.kind

def absorb (b : Buffer) : Answer → Buffer × List Note
  | .served [] => (b.turn .ended, [.ended b.stop])
  | .served (x :: bytes) => (b.append (x :: bytes), [.refilled (x :: bytes).length b.stop])
  | .failed f => (b.turn (b.phaseAfter f), if f.Passing then [] else [.broken f])

def demand (b : Buffer) (n : Nat) : Option Nat :=
  if b.filled < n ∧ b.phase = .flowing then some (n - b.filled) else none

/-- Answers a raw read of `n` bytes from the window and from what was heard beneath, if it was
asked. Bytes already copied come first: they hide a failure until the next read. -/
def deliver (b : Buffer) (n : Nat) (heard : Option Answer) : Answer × Buffer :=
  let copied := b.window.take n
  let left := b.drop copied.length
  match heard with
  | some (.served []) => (.served copied, left.turn .ended)
  | some (.served (x :: bytes)) => (.served (copied ++ x :: bytes), left)
  | some (.failed f) =>
    (if copied.isEmpty then .failed f else .served copied, left.turn (b.phaseAfter f))
  | none => match b.phase with
    | .broken kind =>
      (if copied.isEmpty ∧ 0 < n then .failed (.ofKind kind) else .served copied, left)
    | _ => (.served copied, left)

end Buffer
end Readahead
