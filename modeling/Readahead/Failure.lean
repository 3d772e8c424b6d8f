/-! Failures of a stream: a kind out of a fixed list, and a text of its own if it was made with one.
An interruption passes: the read did nothing, and the same read may be tried again. -/
namespace Readahead

inductive FailureKind where
  | notFound
  | permissionDenied
  | connectionRefused
  | connectionReset
  | connectionAborted
  | notConnected
  | addressInUse
  | brokenPipe
  | alreadyExists
  | wouldBlock
  | invalidInput
  | invalidData
  | timedOut
  | writeZero
  | interrupted
  | unsupported
  | unexpectedEnd
  | outOfMemory
  | other
  deriving DecidableEq, Repr

def FailureKind.text : FailureKind → String
  | .notFound => "entity not found"
  | .permissionDenied => "permission denied"
  | .connectionRefused => "connection refused"
  | .connectionReset => "connection reset"
  | .connectionAborted => "connection aborted"
  | .notConnected => "not connected"
  | .addressInUse => "address in use"
  | .brokenPipe => "broken pipe"
  | .alreadyExists => "entity already exists"
  | .wouldBlock => "operation would block"
  | .invalidInput => "invalid input parameter"
  | .invalidData => "invalid data"
  | .timedOut => "timed out"
  | .writeZero => "write zero"
  | .interrupted => "operation interrupted"
  | .unsupported => "unsupported"
  | .unexpectedEnd => "unexpected end of file"
  | .outOfMemory => "out of memory"
  | .other => "other error"

structure Failure where
  kind : FailureKind
  ownText : Option String
  deriving DecidableEq, Repr

namespace Failure

def ofKind (kind : FailureKind) : Failure := ⟨kind, none⟩

def message (f : Failure) : String := f.ownText.getD f.kind.text

def Passing (f : Failure) : Prop := f.kind = .interrupted
instance (f : Failure) : Decidable f.Passing := by unfold Passing; infer_instance

end Failure
end Readahead
