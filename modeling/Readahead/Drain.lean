import Readahead.Run

/-! Reading more than one read gives: a fixed number of bytes, or all there are. Interrupted reads
are tried again. Bytes read before a failure are lost if a fixed number was asked for, and kept
otherwise.

`exactly` is read_exact, `drain` reads to the end with a buffer of one size. -/
namespace Readahead.Reader

def tooShort : Failure := ⟨.unexpectedEnd, some "failed to fill whole buffer"⟩

def exactlyFrom : Nat → Nat → Bytes → Reader → Run Reader (Except Failure Bytes)
  | 0, _, _, r => .still (.error (.ofKind .interrupted)) r
  | fuel + 1, left, got, r =>
    if left = 0 then .still (.ok got) r
    else (r.pull left).andThen fun answer r => match answer with
      | .served [] => .still (.error tooShort) r
      | .served (b :: bytes) =>
        exactlyFrom fuel (left - (b :: bytes).length) (got ++ b :: bytes) r
      | .failed f => if f.Passing then exactlyFrom fuel left got r else .still (.error f) r

def exactly (n : Nat) (r : Reader) : Run Reader (Except Failure Bytes) :=
  exactlyFrom (n + r.interruptions + 1) n [] r

structure Drained where
  bytes : Bytes
  failure : Option Failure
  deriving DecidableEq, Repr

def drainFrom (n : Nat) : Nat → Reader → Run Reader Drained
  | 0, r => .still ⟨[], some (.ofKind .interrupted)⟩ r
  | fuel + 1, r => (r.pull n).andThen fun answer r => match answer with
    | .served [] => .still ⟨[], none⟩ r
    | .served (b :: bytes) =>
      (drainFrom n fuel r).map fun d => { d with bytes := b :: bytes ++ d.bytes }
    | .failed f => if f.Passing then drainFrom n fuel r else .still ⟨[], some f⟩ r

def drain (n : Nat) (r : Reader) : Run Reader Drained :=
  drainFrom n (r.held + r.interruptions + 1) r

end Readahead.Reader
