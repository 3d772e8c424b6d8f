import Readahead.Reader

/-! Runs: a result, the state after it, and in order what happened on the way. What can happen is a
pull, which is one read of the reader beneath with the reads it caused further down, or a note. -/
namespace Readahead

inductive Event where
  | pull (own : Exchange) (beneath : List Exchange)
  | note (note : Note)
  deriving DecidableEq, Repr

namespace Event

/- The read that reached the reader `depth` layers beneath the one pulled, if any did. -/
def atDepth (depth : Nat) : Event → Option Exchange
  | .pull own beneath => (own :: beneath)[depth]?
  | .note _ => none

def note? : Event → Option Note
  | .pull _ _ => none
  | .note n => some n

end Event

structure Run (σ α : Type) where
  result : α
  state : σ
  trace : List Event

namespace Run

variable {σ τ α β : Type}

def still (result : α) (state : σ) : Run σ α := ⟨result, state, []⟩

def noting (result : α) (state : σ) (notes : List Note) : Run σ α :=
  ⟨result, state, notes.map .note⟩

def andThen (r : Run σ α) (next : α → σ → Run τ β) : Run τ β :=
  let s := next r.result r.state
  ⟨s.result, s.state, r.trace ++ s.trace⟩

def map (f : α → β) (r : Run σ α) : Run σ β := ⟨f r.result, r.state, r.trace⟩

def within (f : σ → τ) (r : Run σ α) : Run τ α := ⟨r.result, f r.state, r.trace⟩

end Run

def Reader.pull (r : Reader) (n : Nat) : Run Reader Answer :=
  let reply := r.read n
  ⟨reply.answer, reply.reader, [.pull ⟨n, reply.answer⟩ reply.beneath]⟩

end Readahead
