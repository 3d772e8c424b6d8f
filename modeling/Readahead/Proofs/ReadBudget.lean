import Readahead.Proofs.Halting
import Readahead.Proofs.ReadsNeeded

/-! What a request costs. Every answer from beneath that is not an interruption fills some of the
free part of the buffer or is the last one asked for, and whoever consumes what was shown or found
reads nothing on the way. So no request is answered more often than there were bytes free, and
unless the reader beneath interrupts for ever every request comes to an end. -/
namespace Readahead

def Answer.tells : Answer → Bool
  | .served _ => true
  | .failed f => !decide f.Passing

def Exchange.tells (e : Exchange) : Bool := e.answer.tells

def Buffer.vacant (b : Buffer) : Nat :=
  if b.phase = .flowing then b.capacity - b.window.length else 0

theorem Buffer.vacantSettled {b : Buffer} (settled : b.phase ≠ .flowing) : b.vacant = 0 :=
  if_neg settled

theorem Buffer.absorbVacant {b : Buffer} (sound : b.Sound) (flowing : b.phase = .flowing)
    (room : b.window.length < b.capacity) (answer : Answer) :
    (if answer.tells then 1 else 0) + (b.absorb answer).1.vacant ≤ b.vacant := by
  have phase := absorbPhase flowing answer
  have before : b.vacant = b.capacity - b.window.length := if_pos flowing
  cases answer with
  | served bytes =>
    cases bytes with
    | nil =>
      rw [vacantSettled (by rw [phase]; exact Phase.noConfusion)]
      simp only [Answer.tells, if_true]
      omega
    | cons x bytes =>
      have window : (b.append (x :: bytes)).window = b.window ++ x :: bytes := appendWindow sound
      have after : (b.append (x :: bytes)).vacant =
          b.capacity - (b.append (x :: bytes)).window.length := if_pos flowing
      simp only [Answer.tells, absorb, after, window, List.length_append, List.length_cons, if_true]
      omega
  | failed f =>
    by_cases passing : f.Passing
    · have same : (b.absorb (.failed f)).1 = b := by
        simp only [absorb, turn, phaseAfter, if_pos passing]
      rw [same]
      simp [Answer.tells, passing]
    · rw [vacantSettled (by rw [phase, Answer.phase, if_neg passing]; exact Phase.noConfusion)]
      simp only [Answer.tells, passing]
      simp
      omega

namespace Feed

variable {f g : Feed} {n : Nat}

theorem onceReads (f : Feed) : f.once.trace.filterMap (Event.atDepth 0) =
    [⟨f.buffer.room, (f.below.read f.buffer.room).answer⟩] := by
  rw [once, Run.andThenTrace, List.filterMap_append]
  exact congrArg (_ :: ·) (notesUnread _ 0)

theorem stepPays {events : List Event} (fit : f.Fit) (step : Step f events g) :
    (events.filterMap (Event.atDepth 0)).countP Exchange.tells + g.buffer.vacant ≤
      f.buffer.vacant := by
  cases step with
  | shift =>
    have window := Buffer.toFrontWindow fit.buffer
    simp only [Buffer.vacant, window]
    exact Nat.le_of_eq (Nat.zero_add _)
  | refill flowing atFront room =>
    have size := Buffer.windowLength fit.buffer
    rw [Buffer.filled, atFront] at size
    rw [onceReads, List.countP_singleton, onceState]
    exact Buffer.absorbVacant fit.buffer flowing (by omega) _
  | giveUp past empty => exact Nat.zero_le _

end Feed

namespace Mounted

def Looks (m : Mounted) (reads : List Exchange) : Prop :=
  ∃ events k, Chain Step m events k ∧ events.filterMap (Event.atDepth 0) = reads

variable {m k : Mounted}

theorem stepPays {events : List Event} (fit : m.Fit) (step : Step m events k) :
    (events.filterMap (Event.atDepth 0)).countP Exchange.tells + k.scanner.buffer.vacant ≤
      m.scanner.buffer.vacant := by
  cases step with
  | feed step => exact Feed.stepPays (feedFit fit) step
  | scan grained step =>
    cases step with
    | feed step => exact Feed.stepPays (feedFit fit) step
    | pass more =>
      rename_i stock
      have same : (m.lookahead stock).pass.state.feed = m.feed := (passQuiet _ 0).2
      rw [Lookahead.passUnread, withLookahead, same]
      exact Nat.le_of_eq (Nat.zero_add _)
    | full crowded none => exact Nat.le_of_eq (Nat.zero_add _)

theorem chainPays {events : List Event} (chain : Chain Step m events k) (fit : m.Fit) :
    (events.filterMap (Event.atDepth 0)).countP Exchange.tells + k.scanner.buffer.vacant ≤
      m.scanner.buffer.vacant := by
  induction chain with
  | rest m => exact Nat.le_of_eq (Nat.zero_add _)
  | next head tail ih =>
    have first := stepPays fit head
    have later := ih (stepExtends fit head).1
    rw [List.filterMap_append, List.countP_append]
    omega

theorem looksWithin {reads : List Exchange} (fit : m.Fit) (looks : m.Looks reads) :
    reads.countP Exchange.tells ≤ m.scanner.capacity - m.scanner.window.length := by
  obtain ⟨events, k, chain, rfl⟩ := looks
  have pays := chainPays chain fit
  have free : m.scanner.buffer.vacant ≤ m.scanner.capacity - m.scanner.window.length := by
    unfold Buffer.vacant
    split
    · exact Nat.le_refl _
    · exact Nat.zero_le _
  omega

theorem looksNothing (m : Mounted) : m.Looks [] := ⟨[], m, .rest m, rfl⟩

theorem reachLooks (n : Nat) (m : Mounted) : m.Looks (m.reach n).reads :=
  ⟨_, _, reachChain n m, rfl⟩

theorem lookLooks (n : Nat) (m : Mounted) : m.Looks (m.look n).reads := by
  obtain rfl | positive := Nat.eq_zero_or_pos n
  · exact looksNothing m
  · rw [Run.reads, lookTrace positive]
    exact reachLooks n m

theorem skipLooks (n : Nat) (m : Mounted) : m.Looks (m.skip n).reads := by
  obtain rfl | positive := Nat.eq_zero_or_pos n
  · exact looksNothing m
  · rw [Run.reads, skipTrace positive]
    exact reachLooks n m

theorem meetsBytesLooks (bytes : Bytes) (m : Mounted) : m.Looks (m.meetsBytes bytes).reads := by
  unfold meetsBytes
  split
  · exact looksNothing m
  · rw [Run.reads, Run.andThenTrace, Run.still, List.append_nil]
    exact ⟨_, _, reachBytesChain bytes.length m, rfl⟩

theorem meetsLooks (text : Utf8.Text) (m : Mounted) : m.Looks (m.meets text).reads := by
  unfold meets
  split
  · exact meetsBytesLooks _ m
  split
  · exact looksNothing m
  · rw [Run.reads, Run.andThenTrace, Run.still, List.append_nil]
    exact reachLooks text.length m

theorem acceptBytesLooks (fit : m.Fit) (bytes : Bytes) : m.Looks (m.acceptBytes bytes).reads := by
  rw [acceptBytesReads fit]
  split
  · exact meetsLooks _ m
  · exact meetsBytesLooks bytes m

theorem serveLooks (fit : m.Fit) {query : Query} (single : ∀ n, query ≠ .take n) :
    m.Looks (m.serve query).reads := by
  cases query with
  | peek => exact lookLooks 1 m
  | peekAt n => exact lookLooks n m
  | look n => exact lookLooks n m
  | next =>
    change m.Looks m.next.reads
    rw [nextReads fit]
    exact lookLooks 1 m
  | skip n => exact skipLooks n m
  | atEnd => exact lookLooks 1 m
  | take n => exact absurd rfl (single n)
  | meets text => exact meetsLooks text m
  | meetsBytes bytes => exact meetsBytesLooks bytes m
  | accept text =>
    change m.Looks (m.accept text).reads
    rw [acceptReads fit]
    exact meetsLooks text m
  | acceptBytes bytes => exact acceptBytesLooks fit bytes
  | lineText => exact looksNothing m
  | place => exact looksNothing m

/- For one request, whatever it asks. What it comes to on its way are states in which it still looks
ahead; all items at once are as many requests. -/
theorem budgetKept (reachable : Session.Reachable m.reader) :
    (∀ query, (∀ n, query ≠ .take n) →
      (m.serve query).reads.countP Exchange.tells ≤
        m.scanner.capacity - m.scanner.window.length) ∧
      ∀ front, m.Obtains front → ∀ events k, Chain Step m events k → k.Halts := by
  have fit := readerFit (Session.reachableFit reachable)
  refine ⟨fun query single => looksWithin fit (serveLooks fit single),
    fun front obtains events k chain => ?_⟩
  have patient := obtainsPatient fit obtains
  rw [obtainsFront fit obtains, ← (chainExtends chain fit).front] at patient
  exact fitHalts (chainFit chain fit) patient

theorem budgetKeptDivided :
    let m : Mounted := (Mounted.look 1 ⟨.fresh .scalars 4, .script .divided⟩).state
    let front : Front := ⟨[0xC3, 0xA9, 0xE2], .failed .brokenPipe⟩
    Session.Reachable m.reader ∧ (∀ n, Query.look 2 ≠ .take n) ∧ m.scanner.window.length = 2 ∧
      (m.serve (.look 2)).reads.countP Exchange.tells = 2 ∧
      (m.serve (.look 2)).reads.countP Exchange.tells ≤
        m.scanner.capacity - m.scanner.window.length ∧
      m.Obtains front ∧ m.Halts := by
  intro m front
  obtain ⟨reachable, obtains⟩ := dividedLooked .scalars 1
  have single : ∀ n, Query.look 2 ≠ .take n := fun _ => Query.noConfusion
  obtain ⟨within, halts⟩ := budgetKept reachable
  exact ⟨reachable, single, by decide +kernel, by decide +kernel, within _ single, obtains,
    halts front obtains [] m (.rest m)⟩

end Mounted
end Readahead
