import Readahead.Proofs.RefillSteps

/-! What comes of a request for bytes. Refilling ends with the window long enough or with all of the
front in it, so the answer depends on the front and on the capacity alone, but for a spent buffer,
which says that nothing is left before it looks at the size of the request. -/
namespace Readahead
namespace Feed

def Dry (f : Feed) : Prop := f.buffer.phase = .flowing → f.below.front = .stuck

def owed (n : Nat) (f : Feed) : Nat := n - f.buffer.stop + f.below.interruptions

theorem onceProgress {n : Nat} {f : Feed} (fit : f.Fit) (short : f.buffer.stop < n)
    (room : 0 < f.buffer.room) :
    f.once.state.buffer.phase ≠ .flowing ∨ f.once.state.below.front = .stuck ∨
      (f.once.state.owed n < f.owed n ∧ f.below.front ≠ .stuck) := by
  have sound := fitSound fit.below
  have told := Reader.readAnswers f.below room sound
  obtain ⟨fewer, strictly⟩ := readWears sound f.buffer.room
  rw [onceState]
  simp only [owed]
  cases answer : (f.below.read f.buffer.room).answer with
  | served bytes =>
    rw [answer] at told
    cases bytes with
    | nil => exact .inl (by simp [Buffer.absorb, Buffer.turn])
    | cons x bytes =>
      refine .inr (.inr ⟨?_, fun stuck => ?_⟩)
      · simp only [Buffer.absorb, Buffer.append, List.length_cons]
        omega
      · simp only [Front.Answers, stuck, Front.stuck, Front.behind] at told
        simp at told
  | failed g =>
    rw [answer] at told
    by_cases passing : g.Passing
    · simp only [Front.Answers, passing, if_true] at told
      rw [told]
      by_cases stuck : f.below.front = .stuck
      · exact .inr (.inl stuck)
      · refine .inr (.inr ⟨?_, stuck⟩)
        have less := (strictly g answer passing).resolve_right stuck
        simp only [Buffer.absorb, Buffer.turn]
        omega
    · exact .inl (by simp [Buffer.absorb, Buffer.turn, Buffer.phaseAfter, passing])

theorem refillEnds {n fuel : Nat} {f : Feed} (fit : f.Fit) (atFront : f.buffer.start = 0)
    (within : n ≤ f.buffer.capacity) (enough : f.owed n ≤ fuel ∨ f.below.front = .stuck) :
    n ≤ (refill n fuel f).state.buffer.stop ∨ (refill n fuel f).state.Dry := by
  induction fuel generalizing f with
  | zero =>
    rcases enough with none | stuck
    · simp only [owed] at none
      refine .inl ?_
      simp only [refill, Run.still]
      omega
    · exact .inr fun _ => stuck
  | succ fuel ih =>
    by_cases done : ¬(f.buffer.stop < n ∧ f.buffer.phase = .flowing)
    · rw [refillStops done]
      by_cases reached : n ≤ f.buffer.stop
      · exact .inl reached
      · exact .inr fun flowing => absurd ⟨by omega, flowing⟩ done
    · obtain ⟨short, flowing⟩ := Decidable.not_not.mp done
      have room : f.buffer.stop < f.buffer.capacity := by omega
      have further := (stepExtends fit (.refill flowing atFront room)).1
      have kept := Buffer.absorbStart f.buffer (f.below.read f.buffer.room).answer
      rw [(refillOnce fuel short flowing).2]
      rcases onceProgress fit short (roomPositive fit.buffer flowing room) with
        past | stuck | ⟨less, unstuck⟩
      · rw [refillStops fun more => past more.2]
        exact .inr fun flowing => absurd flowing past
      · exact ih further (kept.1.trans atFront) (by rw [onceState, kept.2]; exact within)
          (.inr stuck)
      · have left := enough.resolve_right unstuck
        exact ih further (kept.1.trans atFront) (by rw [onceState, kept.2]; exact within)
          (.inl (by omega))

end Feed

def Front.shortage (f : Front) (asked : Nat) : Fault :=
  match f.finish with
  | .failed kind => .stream kind
  | .ended => if f.bytes.length = 0 then .nothingLeft else .tooFew asked f.bytes.length

namespace Feed

inductive Settles (f : Feed) (n : Nat) : Except Fault Unit → Feed → Prop where
  | spent (past : f.buffer.phase = .spent) : Settles f n (.error .nothingLeft) f
  | large (live : f.buffer.phase ≠ .spent) (large : f.buffer.capacity < n) :
      Settles f n (.error (.tooLarge n f.buffer.capacity)) f
  | reached {g : Feed} (live : g.buffer.phase ≠ .spent) (fits : n ≤ f.buffer.capacity)
      (held : n ≤ g.buffer.window.length) : Settles f n (.ok ()) g
  | short {g : Feed} (fits : n ≤ f.buffer.capacity) (short : f.front.bytes.length < n)
      (whole : g.buffer.window = f.front.bytes)
      (given : g.buffer.phase = .spent ↔ f.front = ⟨[], .ended⟩) :
      Settles f n (.error (f.front.shortage n)) g

theorem dryFront {f : Feed} (live : f.buffer.phase ≠ .spent) (dry : f.Dry) :
    f.front.bytes = f.buffer.window ∧
      (f.front.finish = .ended ↔ f.buffer.phase = .ended) ∧
      ∀ kind, f.buffer.phase = .broken kind → f.front.finish = .failed kind := by
  unfold front Buffer.front
  cases phase : f.buffer.phase with
  | flowing => simp [dry phase, Front.stuck, Front.behind]
  | ended => simp
  | broken kind => simp
  | spent => exact absurd phase live

theorem dryInterrupted {f : Feed} (dry : f.Dry) (flowing : f.buffer.phase = .flowing) :
    f.front.finish = .failed .interrupted := by
  rw [front, Buffer.front, flowing, dry flowing]
  rfl

theorem lackingSettles {f : Feed} {n : Nat} (fit : f.Fit) (live : f.buffer.phase ≠ .spent)
    (dry : f.Dry) :
    (lacking n f).result = f.front.shortage n ∧
      ((lacking n f).state.buffer.phase = .spent ↔ f.front = ⟨[], .ended⟩) := by
  obtain ⟨bytes, ended, broken⟩ := dryFront live dry
  have size := Buffer.windowLength fit.buffer
  have same : f.front = ⟨f.buffer.window, f.front.finish⟩ := by rw [← bytes]
  unfold lacking Front.shortage
  rw [bytes, size, same]
  cases phase : f.buffer.phase with
  | flowing =>
    have finish : f.front.finish = .failed .interrupted := by
      simp [front, Buffer.front, phase, dry phase, Front.stuck, Front.behind]
    simp [finish, Run.still, phase]
  | ended =>
    rw [ended.mpr phase]
    simp only
    split
    · rename_i empty
      rw [empty] at size
      simp [Run.noting, Buffer.giveUp, List.length_eq_zero_iff.mp size]
    · rename_i filled
      refine ⟨rfl, ?_⟩
      simp only [Run.still, phase]
      refine ⟨fun same => by simp at same, fun same => ?_⟩
      rw [(Front.mk.inj same).1] at size
      exact absurd size.symm filled
  | broken kind => simp [broken kind phase, Run.still, phase]
  | spent => exact absurd phase live

theorem lackingWindow {f : Feed} (fit : f.Fit) (n : Nat) :
    (lacking n f).state.buffer.window = f.buffer.window := by
  have size := Buffer.windowLength fit.buffer
  unfold lacking
  split
  · rfl
  · rfl
  all_goals
    split
    · rename_i empty
      rw [empty] at size
      rw [List.length_eq_zero_iff.mp size]
      rfl
    · rfl

theorem lackingChain {f : Feed} (live : f.buffer.phase ≠ .spent) (n : Nat) :
    Chain Step f (lacking n f).trace (lacking n f).state := by
  unfold lacking
  cases phase : f.buffer.phase with
  | flowing => exact .rest f
  | ended =>
    simp only
    split
    · rename_i empty
      exact Chain.one (.giveUp phase empty)
    · exact .rest f
  | broken kind => exact .rest f
  | spent => exact absurd phase live

def filledUp (n : Nat) (f : Feed) : Feed :=
  (refill n (n + f.below.interruptions) { f with buffer := f.buffer.toFront }).state

theorem filledUpChain {f : Feed} (within : ¬f.buffer.capacity < n) :
    Chain Step f (refill n (n + f.below.interruptions) { f with buffer := f.buffer.toFront }).trace
      (filledUp n f) :=
  .next .shift (refillChain rfl (by simp only [Buffer.toFront]; omega))

theorem filledUpEnds {n : Nat} {f : Feed} (fit : f.Fit) (within : ¬f.buffer.capacity < n) :
    n ≤ (filledUp n f).buffer.stop ∨ (filledUp n f).Dry := by
  refine refillEnds (stepExtends fit .shift).1 rfl ?_ (.inl ?_)
  · simp only [Buffer.toFront]
    omega
  · simp only [owed]
    omega

theorem filledUpKeeps {n : Nat} {f : Feed} (live : f.buffer.phase ≠ .spent) :
    (filledUp n f).buffer.phase ≠ .spent ∧ (filledUp n f).buffer.start = 0 := refillKeeps live

theorem gatherChain (n : Nat) (f : Feed) : Chain Step f (f.gather n).trace (f.gather n).state := by
  unfold gather
  split
  · exact .rest f
  rename_i live
  split
  · exact .rest f
  rename_i within
  split
  · exact .rest f
  rw [Run.andThenTrace, Run.andThenState]
  refine (filledUpChain within).append ?_
  split
  · exact .rest _
  · exact lackingChain (filledUpKeeps live).1 n

theorem gatherSettles {n : Nat} {f : Feed} (fit : f.Fit) :
    f.Settles n (f.gather n).result (f.gather n).state := by
  have size := Buffer.windowLength fit.buffer
  unfold gather
  split
  · rename_i past
    exact .spent past
  rename_i live
  split
  · rename_i large
    exact .large live large
  rename_i within
  have fits : n ≤ f.buffer.capacity := by omega
  split
  · rename_i held
    rw [← size] at held
    exact .reached live fits held
  change f.Settles n (if n ≤ (filledUp n f).buffer.stop then _ else _ : Run _ _).result
    (if n ≤ (filledUp n f).buffer.stop then _ else _ : Run _ _).state
  have chain := filledUpChain (n := n) within
  have upFit := chainFit chain fit
  have upSize := Buffer.windowLength upFit.buffer
  have same := (chainExtends chain fit).front
  obtain ⟨upLive, start⟩ := filledUpKeeps (n := n) live
  rw [Buffer.filled, start, Nat.sub_zero] at upSize
  split
  · rename_i reached
    rw [← upSize] at reached
    exact .reached upLive fits reached
  · rename_i unreached
    have dry := (filledUpEnds fit within).resolve_left unreached
    obtain ⟨result, given⟩ := lackingSettles (n := n) upFit upLive dry
    have whole := (dryFront upLive dry).1
    rw [same] at result given whole
    have short : f.front.bytes.length < n := by rw [whole, upSize]; omega
    have settled := Settles.short fits short ((lackingWindow upFit n).trans whole.symm) given
    rw [← result] at settled
    exact settled

theorem spentFront {f : Feed} (fit : f.Fit) (spent : f.buffer.phase = .spent) :
    f.front = ⟨[], .ended⟩ := by
  simp only [front, Buffer.front, spent, Buffer.spentWindow fit.buffer spent]

theorem settlesHeld {n : Nat} {f g : Feed} (settled : f.Settles n (.ok ()) g) :
    n ≤ g.buffer.window.length := by
  cases settled with
  | reached live fits held => exact held

theorem settlesFault {n : Nat} {f g : Feed} {fault : Fault} (fit : f.Fit) (positive : 0 < n)
    (fits : n ≤ f.buffer.capacity) (settled : f.Settles n (.error fault) g) :
    fault = f.front.shortage n ∧ g.buffer.window = f.front.bytes ∧ f.front.bytes.length < n := by
  cases settled with
  | spent past =>
    rw [spentFront fit past, Buffer.spentWindow fit.buffer past]
    exact ⟨rfl, rfl, positive⟩
  | large live large => omega
  | short fits short whole given => exact ⟨rfl, whole, short⟩

theorem gatherResult {n : Nat} {f : Feed} (fit : f.Fit) : (f.gather n).result =
    if f.buffer.phase = .spent then .error .nothingLeft
    else if f.buffer.capacity < n then .error (.tooLarge n f.buffer.capacity)
    else if n ≤ f.front.bytes.length then .ok () else .error (f.front.shortage n) := by
  have settled := gatherSettles (n := n) fit
  have extended := chainExtends (gatherChain n f) fit
  by_cases past : f.buffer.phase = .spent
  · rw [if_pos past, gather, if_pos past]
    rfl
  rw [if_neg past]
  generalize (f.gather n).result = result, (f.gather n).state = g at settled extended ⊢
  cases settled with
  | spent spent => exact absurd spent past
  | large live large => rw [if_pos large]
  | reached live fits held =>
    have within : g.buffer.window <+: g.front.bytes := Buffer.frontWindow _ _
    rw [extended.front] at within
    rw [if_neg (Nat.not_lt.mpr fits), if_pos (Nat.le_trans held within.length_le)]
  | short fits short whole given =>
    rw [if_neg (Nat.not_lt.mpr fits), if_neg (Nat.not_le.mpr short)]

end Feed
end Readahead
