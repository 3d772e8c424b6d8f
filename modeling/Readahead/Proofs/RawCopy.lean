import Readahead.Proofs.EndHeardOnce

/-! One raw read of a scanner. What the window covers is given from there, and nothing is read
beneath. Else all of the window is given, and the reader beneath is read once for what is missing,
if it flows. Bytes that were copied come first, and hide a failure heard with them. -/
namespace Readahead

def Phase.bare : Phase → Answer
  | .broken kind => .failed (.ofKind kind)
  | _ => .served []

def Answer.behind (copied : Bytes) : Answer → Answer
  | .served bytes => .served (copied ++ bytes)
  | .failed f => if copied = [] then .failed f else .served copied

theorem Answer.behindNothing (answer : Answer) : answer.behind [] = answer := by
  cases answer <;> rfl

theorem Answer.behindFailed {answer : Answer} {copied : Bytes} {f : Failure}
    (told : answer.behind copied = .failed f) : answer = .failed f := by
  cases answer with
  | served bytes => contradiction
  | failed g =>
    simp only [behind] at told
    split at told
    · exact told
    · contradiction

namespace Buffer

variable {b : Buffer} {n : Nat}

theorem heardDeliver (few : b.window.length < n) (answer : Answer) :
    (b.deliver n (some answer)).1 = answer.behind b.window := by
  unfold deliver
  rw [List.take_of_length_le (Nat.le_of_lt few)]
  cases answer with
  | served bytes =>
    cases bytes with
    | nil => exact congrArg Answer.served (List.append_nil _).symm
    | cons x bytes => rfl
  | failed f => simp only [Answer.behind, List.isEmpty_iff]

theorem quietDeliver (few : b.window.length < n) :
    (b.deliver n none).1 = b.phase.bare.behind b.window := by
  unfold deliver
  rw [List.take_of_length_le (Nat.le_of_lt few)]
  have room : 0 < n := Nat.zero_lt_of_lt few
  cases phase : b.phase with
  | broken kind => simp only [Phase.bare, Answer.behind, List.isEmpty_iff, room, and_true]
  | flowing | ended | spent => exact congrArg Answer.served (List.append_nil _).symm

theorem coveredDeliver (enough : n ≤ b.window.length) :
    (b.deliver n none).1 = .served (b.window.take n) := by
  unfold deliver
  simp only
  split
  · refine if_neg fun none => ?_
    have size := congrArg List.length (List.isEmpty_iff.mp none.1)
    rw [List.length_take, Nat.min_eq_left enough] at size
    exact Nat.ne_of_gt none.2 size
  · rfl

theorem failureWindow {heard : Option Answer} {f : Failure}
    (told : (b.deliver n heard).1 = .failed f) : (b.deliver n heard).2.window = b.window := by
  have none : b.window.take n = [] := by
    unfold deliver at told
    simp only at told
    split at told
    · contradiction
    · contradiction
    · split at told
      · exact List.isEmpty_iff.mp (by assumption)
      · contradiction
    · split at told
      · split at told
        · rename_i empty
          exact List.isEmpty_iff.mp empty.1
        · contradiction
      · contradiction
  rw [deliverWindow, none]
  rfl

theorem leftWindow (b : Buffer) (n : Nat) (heard : Option Answer) :
    (b.deliver n heard).2.window = b.window.drop n := by
  rw [deliverWindow, List.length_take]
  by_cases enough : n ≤ b.window.length
  · rw [Nat.min_eq_left enough]
  · rw [Nat.min_eq_right (by omega), List.drop_length, List.drop_of_length_le (by omega)]

end Buffer

theorem deliverLeaves (s : Scanner) (n : Nat) (heard : Option Answer) :
    (s.deliver n heard).2.window = s.window.drop n ∧
      (∀ bytes, (s.deliver n heard).1 = .served bytes →
        (s.deliver n heard).2.progress = s.progress.pass bytes.length) ∧
      ∀ f, (s.deliver n heard).1 = .failed f →
        (s.deliver n heard).2.progress = s.progress ∧ (s.deliver n heard).2.window = s.window := by
  obtain ⟨answer, buffer⟩ := deliverBuffer s n heard
  have progress := deliverProgress s n heard
  unfold Scanner.window
  rw [buffer]
  refine ⟨s.buffer.leftWindow n heard, fun bytes told => ?_, fun f told => ?_⟩
  · rw [progress, told]
    rfl
  · rw [progress, told]
    exact ⟨rfl, Buffer.failureWindow (answer.symm.trans told)⟩

namespace Mounted

variable {m k : Mounted} {n : Nat}

structure Copies (m : Mounted) (n : Nat) (reply : Reply) (k : Mounted) : Prop where
  top : reply.reader = k.reader
  covered : n ≤ m.scanner.window.length → reply.answer = .served (m.scanner.window.take n) ∧
    reply.beneath = [] ∧ k.below = m.below ∧ k.scanner.buffer.phase = m.scanner.buffer.phase
  settled : m.scanner.window.length < n → m.scanner.buffer.phase ≠ .flowing →
    reply.answer = m.scanner.buffer.phase.bare.behind m.scanner.window ∧
      reply.beneath = [] ∧ k.below = m.below ∧ k.scanner.buffer.phase = m.scanner.buffer.phase
  asked : m.scanner.window.length < n → m.scanner.buffer.phase = .flowing →
    let missing := n - m.scanner.window.length
    let told := m.below.read missing
    reply.answer = told.answer.behind m.scanner.window ∧
      reply.beneath = ⟨missing, told.answer⟩ :: told.beneath ∧ k.below = told.reader ∧
      k.scanner.buffer.phase = told.answer.phase
  window : k.scanner.window = m.scanner.window.drop n
  served : ∀ bytes, reply.answer = .served bytes →
    k.scanner.progress = m.scanner.progress.pass bytes.length
  failed : ∀ f, reply.answer = .failed f →
    k.scanner.progress = m.scanner.progress ∧ k.scanner.window = m.scanner.window

theorem readQuiet (asked : m.scanner.buffer.demand n = none) : m.reader.read n =
    ⟨(m.scanner.deliver n none).1, .scanner (m.scanner.deliver n none).2 m.below, []⟩ := by
  simp only [reader, Reader.read, asked]

theorem readAsked {more : Nat} (asked : m.scanner.buffer.demand n = some more) :
    let told := m.below.read more
    m.reader.read n = ⟨(m.scanner.deliver n (some told.answer)).1,
      .scanner (m.scanner.deliver n (some told.answer)).2 told.reader,
      ⟨more, told.answer⟩ :: told.beneath⟩ := by
  simp only [reader, Reader.read, asked]

theorem quietCopies (fit : m.Fit) (asked : m.scanner.buffer.demand n = none) :
    m.Copies n (m.reader.read n) ⟨(m.scanner.deliver n none).2, m.below⟩ := by
  obtain ⟨answer, buffer⟩ := deliverBuffer m.scanner n none
  obtain ⟨window, served, failed⟩ := deliverLeaves m.scanner n none
  have same : (m.scanner.deliver n none).2.buffer.phase = m.scanner.buffer.phase := by
    rw [buffer, quietPhase]
  rw [readQuiet asked]
  refine ⟨rfl, fun enough => ⟨answer.trans (Buffer.coveredDeliver enough), rfl, rfl, same⟩,
    fun few settled => ⟨answer.trans (Buffer.quietDeliver few), rfl, rfl, same⟩,
    fun few flowing => ?_, window, served, failed⟩
  have short : m.scanner.buffer.filled < n := by
    rw [← Buffer.windowLength fit.scanner.buffer]
    exact few
  rw [Buffer.demand, if_pos ⟨short, flowing⟩] at asked
  contradiction

theorem askedCopies (fit : m.Fit) {more : Nat} (asked : m.scanner.buffer.demand n = some more) :
    m.Copies n (m.reader.read n)
      ⟨(m.scanner.deliver n (some (m.below.read more).answer)).2, (m.below.read more).reader⟩ := by
  obtain ⟨short, flowing, missing⟩ := Buffer.demandFlowing asked
  rw [← Buffer.windowLength fit.scanner.buffer] at short missing
  obtain ⟨answer, buffer⟩ := deliverBuffer m.scanner n (some (m.below.read more).answer)
  obtain ⟨window, served, failed⟩ := deliverLeaves m.scanner n (some (m.below.read more).answer)
  rw [readAsked asked]
  refine ⟨rfl, fun enough => absurd short (Nat.not_lt.mpr enough),
    fun few settled => absurd flowing settled, fun few flowing => ?_, window, served, failed⟩
  have turned : (m.scanner.deliver n (some (m.below.read more).answer)).2.buffer.phase =
      (m.below.read more).answer.phase := by
    rw [buffer, heardPhase, Buffer.absorbPhase flowing]
  rw [Scanner.window, ← missing]
  exact ⟨answer.trans (Buffer.heardDeliver short _), rfl, rfl, turned⟩

theorem readCopies (fit : m.Fit) (n : Nat) : ∃ k : Mounted,
    Chain Act m ((m.reader.pull n).trace.filterMap Event.under) k ∧
      m.Copies n (m.reader.read n) k := by
  have reply : (m.reader.pull n).trace =
      [.pull ⟨n, (m.reader.read n).answer⟩ (m.reader.read n).beneath] := rfl
  rw [reply]
  cases asked : m.scanner.buffer.demand n with
  | none =>
    refine ⟨_, ?_, quietCopies fit asked⟩
    rw [readQuiet asked]
    exact Chain.one (.copy asked)
  | some more =>
    refine ⟨_, ?_, askedCopies fit asked⟩
    rw [readAsked asked]
    exact Chain.one (.read asked)

theorem copiesPass {reply : Reply} (copies : m.Copies n reply k) :
    k.scanner.progress = m.scanner.progress.pass reply.answer.bytes.length := by
  cases told : reply.answer with
  | served bytes => exact copies.served bytes told
  | failed f => exact (copies.failed f told).1

theorem copiesFit (fit : m.Fit) (copies : m.Copies n (m.reader.read n) k) : k.Fit := by
  have top : m.reader.Fit := ⟨fit.scanner, fit.below⟩
  have further := readFit top n
  rw [copies.top] at further
  exact ⟨further.1, further.2⟩

end Mounted
end Readahead
