import Readahead.Proofs.DoneForGood
import Readahead.Proofs.BytesSupplied

/-! What a raw read of a scanner comes to, and a failure that it hides behind the bytes it copied.
The scanner remembers the failure, and tells of it whenever it is read from or wants more bytes. -/
namespace Readahead

theorem Phase.bareFailed {p : Phase} {kind : FailureKind}
    (failed : p.bare = .failed (.ofKind kind)) : p = .broken kind := by
  cases p with
  | broken same =>
    cases Answer.failed.inj failed
    rfl
  | flowing | ended | spent => contradiction

namespace Mounted

variable {m k : Mounted} {n : Nat}

/-- Whatever is asked and read from here on, a read with room is answered by this kind of failure,
and so is every request for more bytes that could be held. -/
def Reports (k : Mounted) (kind : FailureKind) : Prop :=
  ∀ requests, (∀ request ∈ requests, Session.Own request) → ∃ l : Mounted,
    Session.last k.reader requests = l.reader ∧
      (∀ n, 0 < n → (l.reader.read n).answer = .failed (.ofKind kind)) ∧
      ∀ n, 0 < n → n ≤ l.scanner.capacity →
        (l.feed.gather n).result = .error (.stream kind) ∧
          (l.look n).result = .error (.stream kind)

section Broken

variable {kind : FailureKind}

theorem brokenFront (closed : m.Closed) (broken : m.scanner.buffer.phase = .broken kind) :
    m.front = ⟨[], .failed kind⟩ := by
  rw [front, Buffer.front, broken]
  exact congrArg (Front.mk · _) closed.empty

theorem brokenGather (closed : m.Closed) (broken : m.scanner.buffer.phase = .broken kind)
    (positive : 0 < n) (fits : n ≤ m.scanner.capacity) :
    (m.feed.gather n).result = .error (.stream kind) := by
  have live : m.feed.buffer.phase ≠ .spent := by
    intro spent
    exact Phase.noConfusion (broken.symm.trans spent)
  have large : ¬m.feed.buffer.capacity < n := Nat.not_lt.mpr fits
  have front : m.feed.front = ⟨[], .failed kind⟩ := brokenFront closed broken
  rw [Feed.gatherResult (feedFit closed.fit), if_neg live, if_neg large, front]
  exact if_neg (Nat.not_le.mpr positive)

theorem brokenLook (closed : m.Closed) (broken : m.scanner.buffer.phase = .broken kind)
    (positive : 0 < n) (fits : n ≤ m.scanner.capacity) :
    (m.look n).result = .error (.stream kind) := by
  have front : m.prospect.front = ⟨[], .failed kind⟩ := brokenFront closed broken
  have sight : m.prospect.sight = [] := by rw [Prospect.sight, front, List.take_nil]
  have live : m.prospect.spent = false := by simp [prospect, broken]
  have large : ¬m.prospect.capacity < n := Nat.not_lt.mpr fits
  have room : ¬m.prospect.capacity ≤ 0 := Nat.not_le.mpr (Nat.lt_of_lt_of_le positive fits)
  rw [(lookYields closed.fit n).result, Prospect.lookRefused (Nat.ne_of_gt positive),
    closedItems closed]
  refine ⟨positive, ?_⟩
  unfold Prospect.refusal
  cases m.prospect.grain with
  | bytes =>
    simp only [live, large, if_false, front]
    rfl
  | scalars =>
    simp only [large, if_false, front, sight, List.drop_nil, Front.refusal, List.length_nil, room]
    rfl

theorem brokenReports (closed : m.Closed) (broken : m.scanner.buffer.phase = .broken kind) :
    m.Reports kind := by
  intro requests own
  obtain ⟨-, -, l, final, rests⟩ := Session.requestsRest closed own
  have bare := rests.bare
  rw [broken] at bare
  have still := Phase.bareFailed bare
  refine ⟨l, final, fun n room => ?_, fun n positive fits =>
    ⟨brokenGather rests.closed still positive fits, brokenLook rests.closed still positive fits⟩⟩
  rw [(closedRead rests.closed n).1, if_neg (Nat.ne_of_gt room)]
  exact bare

end Broken

theorem rawReadTold (reachable : Session.Reachable m.reader) (n : Nat) :
    ∃ k : Mounted, m.Copies n (m.reader.read n) k ∧
      (m.scanner.window.length < n → m.scanner.buffer.phase = .flowing →
        ∀ f, (m.below.read (n - m.scanner.window.length)).answer = .failed f → ¬f.Passing →
          k.Reports f.kind) := by
  have fit := readerFit (Session.reachableFit reachable)
  obtain ⟨k, -, copies⟩ := readCopies fit n
  refine ⟨k, copies, fun few flowing f told lasting => ?_⟩
  have heard := (copies.asked few flowing).2.2.2
  rw [told, Answer.phase, if_neg lasting] at heard
  have empty : k.scanner.window = [] :=
    copies.window.trans (List.drop_of_length_le (Nat.le_of_lt few))
  refine brokenReports ⟨copiesFit fit copies, ?_, empty⟩ heard
  rw [heard]
  exact Phase.noConfusion

theorem rawReadToldDivided :
    let m : Mounted := (Mounted.look 3 ⟨.fresh .bytes 4, .script .divided⟩).state
    Session.Reachable m.reader ∧ (m.reader.read 5).answer = .served [0xC3, 0xA9, 0xE2] ∧
      ∃ k : Mounted, m.Copies 5 (m.reader.read 5) k ∧ k.Reports .brokenPipe := by
  intro m
  have reachable := (dividedLooked .bytes 3).1
  obtain ⟨k, copies, reports⟩ := rawReadTold reachable 5
  exact ⟨reachable, by decide +kernel, k, copies,
    reports (by decide +kernel) (by decide +kernel) (.ofKind .brokenPipe) (by decide +kernel)
      (by decide)⟩

end Mounted
end Readahead
