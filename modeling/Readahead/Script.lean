import Readahead.Utf8
import Readahead.Failure

/-! A scripted stream. It answers reads from a list of events, never joins two of them in one
answer, and once they are used up it fails in one fixed way or reports the end of data. An answer
without bytes to a read with room is the end of data, and an empty data event is one such answer
that later reads get past. -/
namespace Readahead

inductive Answer where
  | served (bytes : Bytes)
  | failed (failure : Failure)
  deriving DecidableEq, Repr

structure Exchange where
  offered : Nat
  answer : Answer
  deriving DecidableEq, Repr

inductive ScriptEvent where
  | data (bytes : Bytes)
  | failure (failure : Failure)
  deriving DecidableEq, Repr

namespace ScriptEvent

def size : ScriptEvent → Nat
  | .data bytes => bytes.length
  | .failure _ => 0

def interrupts : ScriptEvent → Bool
  | .data _ => false
  | .failure f => decide f.Passing

end ScriptEvent

structure Script where
  pending : List ScriptEvent
  chunk : Option Nat
  tail : Option Failure
  deriving DecidableEq, Repr

namespace Script

def limit (s : Script) (offered : Nat) : Nat := min (s.chunk.getD offered) offered

def unread : Bytes → List ScriptEvent → List ScriptEvent
  | [], rest => rest
  | b :: bytes, rest => .data (b :: bytes) :: rest

def read (s : Script) (offered : Nat) : Answer × Script :=
  if offered = 0 then (.served [], s) else
  match s.pending with
  | [] => match s.tail with
    | none => (.served [], s)
    | some f => (.failed f, s)
  | .failure f :: rest => (.failed f, { s with pending := rest })
  | .data bytes :: rest =>
    (.served (bytes.take (s.limit offered)),
      { s with pending := unread (bytes.drop (s.limit offered)) rest })

def heldIn : List ScriptEvent → Nat
  | [] => 0
  | event :: rest => event.size + heldIn rest

def held (s : Script) : Nat := heldIn s.pending

/- Only the listed interruptions are counted, not one that is repeated for ever at the end. -/
def interruptions (s : Script) : Nat := s.pending.countP ScriptEvent.interrupts

end Script
end Readahead
