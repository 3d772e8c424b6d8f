import Readahead.Buffer.Window
import Readahead.Front

/-! A read with room takes its answer off the front, in any stack of sound buffers: bytes served are
the first of it, an answer without bytes or a lasting failure is the finish of an empty one, and an
interruption leaves it as it was. -/
namespace Readahead

def Front.Answers (before after : Front) : Answer → Prop
  | .served [] => before = ⟨[], .ended⟩
  | .served (b :: bytes) => before = after.behind (b :: bytes)
  | .failed f => if f.Passing then after = before else before = ⟨[], .failed f.kind⟩

theorem behindNothing (f : Front) : f.behind [] = f := rfl

theorem behindTwice (f : Front) (first second : Bytes) :
    (f.behind second).behind first = f.behind (first ++ second) := by simp [Front.behind]

theorem Script.unreadFront {chunk : Option Nat} {tail : Option Failure} (moving : chunk ≠ some 0)
    (bytes : Bytes) (rest : List ScriptEvent) :
    frontFrom chunk tail (unread bytes rest) = (frontFrom chunk tail rest).behind bytes := by
  cases bytes <;> simp [unread, frontFrom, behindNothing, moving]

theorem Script.readAnswers (s : Script) {n : Nat} (room : 0 < n) :
    s.front.Answers (s.read n).2.front (s.read n).1 := by
  obtain ⟨pending, chunk, tail⟩ := s
  unfold Script.read
  rw [if_neg (by omega)]
  cases pending with
  | nil =>
    cases tail with
    | none => rfl
    | some f => by_cases passing : f.Passing <;> simp [Front.Answers, front, frontFrom, passing]
  | cons event rest =>
    cases event with
    | failure f =>
      by_cases passing : f.Passing <;> simp [Front.Answers, front, frontFrom, passing]
    | data bytes =>
      simp only [limit]
      by_cases still : chunk = some 0
      · simp [still, Front.Answers, front, frontFrom]
      · have positive : 0 < min (chunk.getD n) n := by
          cases chunk with
          | none => simpa using room
          | some c => simp at still ⊢; omega
        cases bytes with
        | nil => simp [Front.Answers, front, frontFrom]
        | cons b bytes =>
          obtain ⟨k, size⟩ : ∃ k, min (chunk.getD n) n = k + 1 :=
            ⟨_, (Nat.sub_add_cancel positive).symm⟩
          rw [size]
          simp only [List.take_succ_cons, List.drop_succ_cons, Front.Answers, front,
            unreadFront still, behindTwice, List.cons_append, List.take_append_drop]
          simp [frontFrom, still]

theorem scannerFront (s : Scanner) (below : Reader) :
    (Reader.scanner s below).front = s.buffer.front below.front := rfl

theorem deliverBuffer (s : Scanner) (n : Nat) (heard : Option Answer) :
    (s.deliver n heard).1 = (s.buffer.deliver n heard).1 ∧
      (s.deliver n heard).2.buffer = (s.buffer.deliver n heard).2 := by
  unfold Scanner.deliver
  simp only
  split <;> exact ⟨rfl, rfl⟩

theorem Buffer.heardAnswers {b : Buffer} {n m : Nat} (sound : b.Sound) (asked : b.demand n = some m)
    {before after : Front} {answer : Answer} (told : before.Answers after answer) :
    (b.front before).Answers ((b.deliver n (some answer)).2.front after)
      (b.deliver n (some answer)).1 := by
  have size := windowLength sound
  unfold demand at asked
  split at asked <;> try contradiction
  rename_i need
  obtain ⟨short, flowing⟩ := need
  have whole : b.window.take n = b.window := List.take_of_length_le (by omega)
  have left : (b.drop b.window.length).window = [] := by rw [dropWindow, List.drop_length]
  unfold deliver
  simp only [whole]
  cases answer with
  | served bytes =>
    cases bytes with
    | nil =>
      simp only [Front.Answers] at told
      subst told
      simp only [front, turnPhase, turnWindow, left, flowing]
      cases b.window <;> simp [Front.Answers, Front.behind]
    | cons y bytes =>
      simp only [Front.Answers] at told
      subst told
      simp only [front, dropPhase, left, flowing, behindTwice, behindNothing]
      cases b.window <;> rfl
  | failed f =>
    simp only [Front.Answers] at told
    simp only [front, turnPhase, turnWindow, left, flowing, phaseAfter]
    split at told
    · rename_i passing
      subst told
      cases held : b.window <;> simp [Front.Answers, passing, behindNothing]
    · rename_i lasting
      subst told
      cases held : b.window <;> simp [Front.Answers, lasting, Front.behind]

theorem Buffer.dropFront (b : Buffer) (n : Nat) (below : Front) :
    ((b.drop n).front below).behind (b.window.take n) = b.front below := by
  have parts := List.take_append_drop n b.window
  cases phase : b.phase <;> simp only [front, dropPhase, phase, dropWindow, behindTwice] <;>
    simp only [Front.behind, parts]

theorem Buffer.quietAnswers {b : Buffer} {n : Nat} (sound : b.Sound) (room : 0 < n)
    (asked : b.demand n = none) (below : Front) :
    (b.front below).Answers ((b.deliver n none).2.front below) (b.deliver n none).1 := by
  have size := windowLength sound
  unfold demand at asked
  split at asked <;> try contradiction
  rename_i settled
  have same : b.window.take (b.window.take n).length = b.window.take n := by
    simp [List.take_eq_take_iff]
  have parts := b.dropFront (b.window.take n).length below
  rw [same] at parts
  unfold deliver
  simp only
  cases held : b.window.take n with
  | cons x rest =>
    rw [held] at parts
    rw [← parts]
    cases b.phase <;> rfl
  | nil =>
    have empty : b.window = [] := by
      cases window : b.window with
      | nil => rfl
      | cons y rest => rw [window] at held; cases n <;> simp at held room
    cases phase : b.phase with
    | flowing => rw [empty] at size; exact absurd ⟨by simp at size; omega, phase⟩ settled
    | ended => simp [Front.Answers, front, phase, empty]
    | spent => simp [Front.Answers, front, phase, empty]
    | broken kind =>
      have other : ¬(Failure.ofKind kind).Passing := by
        intro passing
        exact sound.lasting (by rw [phase]; exact congrArg Phase.broken passing)
      simp only [List.isEmpty_nil, room, and_self, if_true, Front.Answers, other, if_false, front,
        phase, empty]
      rfl

theorem Reader.readAnswers (r : Reader) {n : Nat} (room : 0 < n) (sound : r.Sound) :
    r.front.Answers (r.read n).reader.front (r.read n).answer := by
  induction r generalizing n with
  | script s => exact s.readAnswers room
  | scanner s below ih =>
    unfold Reader.read
    cases asked : s.buffer.demand n with
    | none =>
      simp only
      rw [scannerFront, scannerFront, (deliverBuffer s n none).1, (deliverBuffer s n none).2]
      exact Buffer.quietAnswers sound.1 room asked below.front
    | some m =>
      simp only
      rw [scannerFront, scannerFront, (deliverBuffer s n _).1, (deliverBuffer s n _).2]
      refine Buffer.heardAnswers sound.1 asked (ih ?_ sound.2)
      unfold Buffer.demand at asked
      split at asked
      · cases Option.some.inj asked; omega
      · simp at asked
  | remainder pending below ih =>
    cases pending with
    | nil =>
      have told := ih room sound
      simp only [Reader.read, Reader.front, behindNothing]
      exact told
    | cons b pending =>
      obtain ⟨k, size⟩ : ∃ k, n = k + 1 := ⟨n - 1, by omega⟩
      subst size
      simp [Reader.read, Reader.front, Front.Answers, behindTwice]

end Readahead
