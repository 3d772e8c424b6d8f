import Readahead.Scanner

/-! Readers stacked on one another. At the bottom is a scripted stream. A scanner reads from the
reader beneath it and can itself be read; so can what a retired scanner left, which is the bytes it
had taken and not consumed, then the reader it stood on.

A read causes at most one more in each layer beneath. The reply lists them, outermost first.

`remainder` is the Unused of a retired cursor, and a read of a scanner is its raw read. -/
namespace Readahead

inductive Reader where
  | script (s : Script)
  | scanner (s : Scanner) (below : Reader)
  | remainder (pending : Bytes) (below : Reader)
  deriving DecidableEq, Repr

structure Reply where
  answer : Answer
  reader : Reader
  beneath : List Exchange
  deriving DecidableEq, Repr

namespace Reader

def read : Reader → Nat → Reply
  | .script s, n =>
    let (answer, rest) := s.read n
    ⟨answer, .script rest, []⟩
  | .scanner s below, n => match s.buffer.demand n with
    | none =>
      let (answer, left) := s.deliver n none
      ⟨answer, .scanner left below, []⟩
    | some m =>
      let reply := below.read m
      let (answer, left) := s.deliver n (some reply.answer)
      ⟨answer, .scanner left reply.reader, ⟨m, reply.answer⟩ :: reply.beneath⟩
  | .remainder [] below, n =>
    let reply := below.read n
    ⟨reply.answer, .remainder [] reply.reader, ⟨n, reply.answer⟩ :: reply.beneath⟩
  | .remainder (b :: pending) below, n =>
    ⟨.served ((b :: pending).take n), .remainder ((b :: pending).drop n) below, []⟩

def depth : Reader → Nat
  | .script _ => 0
  | .scanner _ below => below.depth + 1
  | .remainder _ below => below.depth + 1

def below? : Reader → Option Reader
  | .script _ => none
  | .scanner _ below => some below
  | .remainder _ below => some below

def held : Reader → Nat
  | .script s => s.held
  | .scanner s below => s.window.length + below.held
  | .remainder pending below => pending.length + below.held

def interruptions : Reader → Nat
  | .script s => s.interruptions
  | .scanner _ below => below.interruptions
  | .remainder _ below => below.interruptions

def Sound : Reader → Prop
  | .script _ => True
  | .scanner s below => s.buffer.Sound ∧ below.Sound
  | .remainder _ below => below.Sound

end Reader
end Readahead
