import Readahead.Failure

/-! What a scanner reports about its own work while it serves a request: the bytes a refill brought
and those that waited before it, how the stream ended, that the storage was given up, what a decode
pass found, and why one found no more. -/
namespace Readahead

inductive Note where
  | refilled (brought waiting : Nat)
  | ended (waiting : Nat)
  | broken (failure : Failure)
  | spent
  | decoded (count bytes : Nat)
  | malformed (offset : Nat)
  | full
  deriving DecidableEq, Repr

namespace Note

inductive Level where
  | trace
  | debug
  deriving DecidableEq, Repr

def level : Note → Level
  | .refilled _ _ | .decoded _ _ => .trace
  | _ => .debug

def text : Note → String
  | .refilled brought waiting =>
    "refill: " ++ toString brought ++ " bytes after " ++ toString waiting ++ " retained"
  | .ended waiting => "stream ended with " ++ toString waiting ++ " bytes buffered"
  | .broken failure => "stream failed: " ++ failure.message
  | .spent => "scratch buffer released"
  | .decoded count bytes =>
    "decoded " ++ toString count ++ " code points from " ++ toString bytes ++ " bytes"
  | .malformed offset => "invalid UTF-8 at byte " ++ toString offset
  | .full => "scratch buffer full of an incomplete sequence"

end Note
end Readahead
