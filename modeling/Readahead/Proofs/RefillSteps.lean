import Readahead.Feed
import Readahead.Proofs.Chain
import Readahead.Proofs.StackInvariant

/-! What a feed does to gather bytes, step by step: it moves the window to the front, refills behind
it while the reader beneath still flows, and gives the storage up once nothing is left. No step
changes the front, and the window only grows. -/
namespace Readahead

namespace Buffer

theorem absorbSound {b : Buffer} {answer : Answer} (sound : b.Sound) (flowing : b.phase = .flowing)
    (fits : ∀ bytes, answer = .served bytes → bytes.length ≤ b.room) :
    (b.absorb answer).1.Sound := by
  have live : b.phase ≠ .spent := by rw [flowing]; simp
  cases answer with
  | served bytes =>
    cases bytes with
    | nil => exact turnSound sound live (by simp) (by simp)
    | cons x bytes => exact appendSound sound live (fits _ rfl)
  | failed f =>
    have kept := afterKept sound live f
    exact turnSound sound live kept.1 kept.2

theorem absorbWindow {b : Buffer} (sound : b.Sound) (answer : Answer) :
    b.window <+: (b.absorb answer).1.window := by
  cases answer with
  | served bytes =>
    cases bytes with
    | nil => exact List.prefix_refl _
    | cons x bytes =>
      have grown : (b.append (x :: bytes)).window = b.window ++ x :: bytes := appendWindow sound
      exact ⟨x :: bytes, grown.symm⟩
  | failed f => exact List.prefix_refl _

theorem absorbFront {b : Buffer} {answer : Answer} {before after : Front} (sound : b.Sound)
    (flowing : b.phase = .flowing) (told : before.Answers after answer) :
    (b.absorb answer).1.front after = b.front before := by
  cases answer with
  | served bytes =>
    cases bytes with
    | nil =>
      simp only [Front.Answers] at told
      subst told
      simp [absorb, front, flowing, Front.behind]
    | cons x bytes =>
      simp only [Front.Answers] at told
      subst told
      have phase : (b.append (x :: bytes)).phase = .flowing := flowing
      simp only [absorb, front, phase, flowing, appendWindow sound, behindTwice]
  | failed f =>
    simp only [Front.Answers] at told
    split at told
    · rename_i passing
      subst told
      simp [absorb, front, phaseAfter, passing, flowing]
    · rename_i lasting
      subst told
      simp [absorb, front, phaseAfter, lasting, flowing, Front.behind]

theorem absorbStart (b : Buffer) (answer : Answer) :
    (b.absorb answer).1.start = b.start ∧ (b.absorb answer).1.capacity = b.capacity := by
  cases answer with
  | served bytes => cases bytes <;> exact ⟨rfl, rfl⟩
  | failed f => exact ⟨rfl, rfl⟩

theorem absorbLive {b : Buffer} (flowing : b.phase = .flowing) (answer : Answer) :
    (b.absorb answer).1.phase ≠ .spent := by
  cases answer with
  | served bytes => cases bytes <;> simp [absorb, append, turn, flowing]
  | failed f =>
    simp only [absorb, turn, phaseAfter, flowing]
    split <;> simp

theorem frontWindow (b : Buffer) (below : Front) : b.window <+: (b.front below).bytes := by
  unfold Buffer.front
  cases b.phase with
  | flowing => exact List.prefix_append _ _
  | ended => exact List.prefix_refl _
  | broken kind => exact List.prefix_refl _
  | spent => exact List.prefix_refl _

theorem frontSettled {b : Buffer} (settled : b.phase ≠ .flowing) (below : Front) :
    (b.front below).bytes = b.window := by
  unfold Buffer.front
  cases phase : b.phase with
  | flowing => exact absurd phase settled
  | ended | broken kind | spent => rfl

end Buffer

namespace Feed

structure Fit (f : Feed) : Prop where
  buffer : f.buffer.Sound
  below : f.below.Fit

def front (f : Feed) : Front := f.buffer.front f.below.front

def once (f : Feed) : Run Feed Unit :=
  (f.below.pull f.buffer.room).andThen fun answer below =>
    let (buffer, notes) := f.buffer.absorb answer
    .noting () ⟨buffer, below⟩ notes

inductive Step : Feed → List Event → Feed → Prop where
  | shift {f : Feed} : Step f [] { f with buffer := f.buffer.toFront }
  | refill {f : Feed} (flowing : f.buffer.phase = .flowing) (atFront : f.buffer.start = 0)
      (room : f.buffer.stop < f.buffer.capacity) : Step f f.once.trace f.once.state
  | giveUp {f : Feed} (past : f.buffer.phase = .ended) (empty : f.buffer.filled = 0) :
      Step f [.note .spent] { f with buffer := f.buffer.giveUp }

structure Extends (before after : Feed) : Prop where
  front : after.front = before.front
  capacity : after.buffer.capacity = before.buffer.capacity
  window : before.buffer.window <+: after.buffer.window

theorem extendsSame (f : Feed) : f.Extends f := ⟨rfl, rfl, List.prefix_refl _⟩

theorem extendsTwice {f g h : Feed} (first : f.Extends g) (second : g.Extends h) : f.Extends h :=
  ⟨second.front.trans first.front, second.capacity.trans first.capacity,
    first.window.trans second.window⟩

theorem onceState (f : Feed) : f.once.state =
    ⟨(f.buffer.absorb (f.below.read f.buffer.room).answer).1,
      (f.below.read f.buffer.room).reader⟩ := rfl

theorem roomPositive {b : Buffer} (sound : b.Sound) (flowing : b.phase = .flowing)
    (room : b.stop < b.capacity) : 0 < b.room := by
  have stored := sound.stored (by rw [flowing]; simp)
  simp only [Buffer.room]
  omega

theorem stepExtends {f g : Feed} {events : List Event} (fit : f.Fit) (step : Step f events g) :
    g.Fit ∧ f.Extends g := by
  cases step with
  | shift =>
    have window := Buffer.toFrontWindow fit.buffer
    refine ⟨⟨Buffer.toFrontSound fit.buffer, fit.below⟩, ?_, rfl, ?_⟩
    · simp only [front, Buffer.front, window]
      rfl
    · simp only [window]
      exact List.prefix_refl _
  | refill flowing atFront room =>
    have sound := fitSound fit.below
    have told := Reader.readAnswers f.below (roomPositive fit.buffer flowing room) sound
    rw [onceState]
    refine ⟨⟨Buffer.absorbSound fit.buffer flowing fun bytes told => readServes sound told,
      readFit fit.below _⟩, Buffer.absorbFront fit.buffer flowing told,
      (Buffer.absorbStart _ _).2, Buffer.absorbWindow fit.buffer _⟩
  | giveUp past empty =>
    have window : f.buffer.window = [] := by
      have size := Buffer.windowLength fit.buffer
      rw [empty] at size
      exact List.length_eq_zero_iff.mp size
    refine ⟨⟨Buffer.giveUpSound fit.buffer.positive, fit.below⟩, ?_, rfl, ?_⟩
    · simp only [front, Buffer.front, past, window]
      rfl
    · rw [window]
      exact List.nil_prefix

theorem chainFit {f g : Feed} {events : List Event} (chain : Chain Step f events g) (fit : f.Fit) :
    g.Fit :=
  chain.keeps Fit (fun _ _ _ fit step => (stepExtends fit step).1) fit

theorem chainExtends {f g : Feed} {events : List Event} (chain : Chain Step f events g)
    (fit : f.Fit) : f.Extends g :=
  chain.relates Fit Extends (fun _ _ _ fit step => stepExtends fit step) extendsSame
    (fun _ _ _ => extendsTwice) fit

theorem refillOnce {n : Nat} {f : Feed} (fuel : Nat) (short : f.buffer.stop < n)
    (flowing : f.buffer.phase = .flowing) :
    (refill n (fuel + 1) f).trace = f.once.trace ++ (refill n fuel f.once.state).trace ∧
      (refill n (fuel + 1) f).state = (refill n fuel f.once.state).state := by
  rw [refill, if_pos ⟨short, flowing⟩]
  refine ⟨?_, rfl⟩
  simp only [Run.andThenTrace, once, Run.andThenState, List.append_assoc]

theorem refillStops {n fuel : Nat} {f : Feed}
    (done : ¬(f.buffer.stop < n ∧ f.buffer.phase = .flowing)) : refill n fuel f = .still () f := by
  cases fuel with
  | zero => rfl
  | succ fuel => rw [refill, if_neg done]

theorem refillChain {n fuel : Nat} {f : Feed} (atFront : f.buffer.start = 0)
    (within : n ≤ f.buffer.capacity) :
    Chain Step f (refill n fuel f).trace (refill n fuel f).state := by
  induction fuel generalizing f with
  | zero => exact .rest f
  | succ fuel ih =>
    by_cases more : f.buffer.stop < n ∧ f.buffer.phase = .flowing
    · obtain ⟨trace, state⟩ := refillOnce fuel more.1 more.2
      have kept := Buffer.absorbStart f.buffer (f.below.read f.buffer.room).answer
      rw [trace, state]
      refine .next (.refill more.2 atFront (by omega)) (ih ?_ ?_)
      · exact kept.1.trans atFront
      · rw [onceState, kept.2]
        exact within
    · rw [refillStops more]
      exact .rest f

theorem onceLive {f : Feed} (flowing : f.buffer.phase = .flowing) :
    f.once.state.buffer.phase ≠ .spent := Buffer.absorbLive flowing _

theorem refillKeeps {n fuel : Nat} {f : Feed} (live : f.buffer.phase ≠ .spent) :
    (refill n fuel f).state.buffer.phase ≠ .spent ∧
      (refill n fuel f).state.buffer.start = f.buffer.start := by
  induction fuel generalizing f with
  | zero => exact ⟨live, rfl⟩
  | succ fuel ih =>
    by_cases more : f.buffer.stop < n ∧ f.buffer.phase = .flowing
    · rw [(refillOnce fuel more.1 more.2).2]
      obtain ⟨later, start⟩ := ih (onceLive more.2)
      exact ⟨later, start.trans (Buffer.absorbStart _ _).1⟩
    · rw [refillStops more]
      exact ⟨live, rfl⟩

end Feed
end Readahead
