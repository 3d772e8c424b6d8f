import Readahead.Reader

/-! The front of a reader: every byte it will deliver before it first ends or fails, and which of
the two comes then. Interruptions are passed over. A scanner that has heard of an end beneath it
delivers its window and no more, even where the stream would go on. A stream that serves nought
bytes at a time ends wherever bytes are left. -/
namespace Readahead

inductive Finish where
  | ended
  | failed (kind : FailureKind)
  deriving DecidableEq, Repr

structure Front where
  bytes : Bytes
  finish : Finish
  deriving DecidableEq, Repr

def Front.behind (bytes : Bytes) (f : Front) : Front := ⟨bytes ++ f.bytes, f.finish⟩

namespace Script

def frontFrom (chunk : Option Nat) (tail : Option Failure) : List ScriptEvent → Front
  | [] => ⟨[], tail.elim .ended fun f => .failed f.kind⟩
  | .failure f :: rest =>
    if f.Passing then frontFrom chunk tail rest else ⟨[], .failed f.kind⟩
  | .data bytes :: rest =>
    if bytes.isEmpty ∨ chunk = some 0 then ⟨[], .ended⟩
    else (frontFrom chunk tail rest).behind bytes

def front (s : Script) : Front := frontFrom s.chunk s.tail s.pending

end Script

def Buffer.front (b : Buffer) (below : Front) : Front :=
  match b.phase with
  | .flowing => below.behind b.window
  | .broken kind => ⟨b.window, .failed kind⟩
  | .ended | .spent => ⟨b.window, .ended⟩

namespace Reader

def front : Reader → Front
  | .script s => s.front
  | .remainder pending below => below.front.behind pending
  | .scanner s below => s.buffer.front below.front

end Reader
end Readahead
