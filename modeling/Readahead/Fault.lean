import Readahead.Failure

/-! Why a scanner could not serve a request. No fault is final: the scanner stays usable.

Look-ahead counts from one, so position nought is a fault of its own; `tooLarge` asks for more than
the buffer can ever hold. `tooFew` and `nothingLeft` come when the data has ended. `invalid` and
`truncated` name the byte of the input where a sequence begins that is no UTF-8 or is cut off by
the end. `stuck` is a full buffer without one whole scalar value.

In this order the faults are ZeroLookahead, LookaheadTooLarge, Insufficient, Exhausted, InvalidUtf8,
TruncatedUtf8, Stalled and Io. -/
namespace Readahead

inductive Fault where
  | zeroPosition
  | tooLarge (asked capacity : Nat)
  | tooFew (asked left : Nat)
  | nothingLeft
  | invalid (offset : Nat)
  | truncated (offset : Nat)
  | stuck
  | stream (kind : FailureKind)
  deriving DecidableEq, Repr

namespace Fault

def ofFailure (f : Failure) : Fault := .stream f.kind

def message : Fault → String
  | .zeroPosition => "look-ahead positions start at 1"
  | .tooLarge asked capacity =>
    "look-ahead of " ++ toString asked ++ " exceeds the scratch buffer capacity of " ++
      toString capacity ++ " bytes"
  | .tooFew asked left =>
    "end of stream: requested " ++ toString asked ++ " units but only " ++
      toString left ++ " remain"
  | .nothingLeft => "end of stream"
  | .invalid offset => "invalid UTF-8 sequence at byte " ++ toString offset
  | .truncated offset => "truncated UTF-8 sequence at byte " ++ toString offset
  | .stuck => "scratch buffer stalled without a complete code point"
  | .stream kind => "stream error: " ++ kind.text

def isEnd : Fault → Bool
  | .nothingLeft | .tooFew _ _ => true
  | _ => false

def isMalformed : Fault → Bool
  | .invalid _ | .truncated _ => true
  | _ => false

end Fault
end Readahead
