import Readahead.Proofs.ReadsByFront

/-! The loops come to an end by themselves, unless the reader beneath interrupts for ever. The state
they end in fails their own test for going on, what they give is never what want of fuel would give,
and more fuel would change nothing. -/
namespace Readahead

namespace Feed

variable {f : Feed} {n : Nat}

theorem refillMore {fuel : Nat}
    (done : ¬((refill n fuel f).state.buffer.stop < n ∧
      (refill n fuel f).state.buffer.phase = .flowing)) (more : Nat) :
    refill n (fuel + more) f = refill n fuel f := by
  induction fuel generalizing f with
  | zero => exact (refillStops done).trans (refillStops done).symm
  | succ fuel ih =>
    by_cases short : f.buffer.stop < n ∧ f.buffer.phase = .flowing
    · have again fuel : refill n (fuel + 1) f = f.once.andThen fun _ => refill n fuel := by
        rw [refill, if_pos short]
        simp only [Run.andThen, once, List.append_assoc]
      rw [(refillOnce fuel short.1 short.2).2] at done
      rw [Nat.add_right_comm, again, again]
      exact Run.andThenSame (ih done)
    · rw [refillStops short, refillStops short]

structure Ends (n : Nat) (f : Feed) : Prop where
  leaves : ¬((filledUp n f).buffer.stop < n ∧ (filledUp n f).buffer.phase = .flowing)
  more : ∀ more, refill n (n + f.below.interruptions + more) { f with buffer := f.buffer.toFront } =
    refill n (n + f.below.interruptions) { f with buffer := f.buffer.toFront }

theorem patientEnds (fit : f.Fit) (patient : f.front.finish ≠ .failed .interrupted)
    (fits : n ≤ f.buffer.capacity) : f.Ends n := by
  have leaves : ¬((filledUp n f).buffer.stop < n ∧ (filledUp n f).buffer.phase = .flowing) := by
    intro short
    have within : ¬f.buffer.capacity < n := Nat.not_lt.mpr fits
    have dry := (filledUpEnds fit within).resolve_left (Nat.not_le.mpr short.1)
    have front := (chainExtends (filledUpChain within) fit).front
    -- A refill that stops short and still flows met nothing but interruptions.
    refine patient ?_
    rw [← front]
    exact dryInterrupted dry short.2
  exact ⟨leaves, refillMore leaves⟩

theorem grantedShort (fit : f.Fit) (granted : (f.gather (f.buffer.filled + 1)).result = .ok ()) :
    f.buffer.window.length < f.front.bytes.length := by
  have size := Buffer.windowLength fit.buffer
  have settled := gatherSettles (n := f.buffer.filled + 1) fit
  rw [granted] at settled
  have held := settlesHeld settled
  have within := (Buffer.frontWindow (f.gather (f.buffer.filled + 1)).state.buffer
    (f.gather (f.buffer.filled + 1)).state.below.front).length_le
  have front := (chainExtends (gatherChain (f.buffer.filled + 1) f) fit).front
  rw [← front, size]
  exact Nat.lt_of_lt_of_le held within

end Feed

namespace Lookahead

variable {l : Lookahead} {n : Nat}

/-- The loop that fills the stock goes round once more: a pass does not settle the request, there is
room, and one byte more can be had. -/
structure Goes (n : Nat) (l : Lookahead) : Prop where
  short : l.pass.state.stock.count < n
  sound : l.pass.result = .ok ()
  room : l.feed.buffer.filled + 1 ≤ l.feed.buffer.capacity
  granted : (l.feed.gather (l.feed.buffer.filled + 1)).result = .ok ()

theorem goesShort (fit : l.Fit) (goes : l.Goes n) : (Utf8.decode l.window).scalars.length < n := by
  have short := goes.short
  rw [passState fit.stock] at short
  exact short

theorem goesSound (fit : l.Fit) (goes : l.Goes n) : (Utf8.decode l.window).rest ≠ .invalid := by
  intro invalid
  have sound := goes.sound
  rw [passResult fit.stock, if_pos invalid] at sound
  contradiction

theorem countDecoded (fit : l.Fit) : l.stock.count ≤ (Utf8.decode l.window).scalars.length := by
  rw [Stock.coversDecode fit.stock, List.length_append]
  exact Nat.le_add_right _ _

theorem settleLeaves {next : Lookahead → Run Lookahead (Except Fault Unit)} (fit : l.Fit)
    (later : ¬(next l.scanned).state.Goes n) : ¬(l.settle n next).state.Goes n := by
  unfold settle
  rw [Run.andThenState, passState fit.stock, passResult fit.stock]
  split
  · rename_i held
    exact fun goes => Nat.not_le.mpr (goesShort (scannedFit fit) goes) held
  by_cases invalid : (Utf8.decode l.window).rest = .invalid
  · rw [if_pos invalid]
    exact fun goes => goesSound (scannedFit fit) goes invalid
  · rw [if_neg invalid]
    exact later

theorem fillLeaves {fuel : Nat} (fit : l.Fit)
    (enough : l.feed.buffer.capacity < l.window.length + fuel) : ¬(fill n fuel l).state.Goes n := by
  induction fuel generalizing l with
  | zero =>
    have bounded := Buffer.windowBounded fit.feed.buffer
    exact absurd enough (Nat.not_lt.mpr bounded)
  | succ fuel ih =>
    unfold fill
    split
    · rename_i held
      exact fun goes =>
        Nat.not_le.mpr (goesShort fit goes) (Nat.le_trans held (countDecoded fit))
    refine settleLeaves fit ?_
    split
    · rename_i crowded
      intro goes
      have room := goes.room
      rw [Run.map, overfullState] at room
      exact Nat.not_le.mpr crowded room
    rename_i free
    have chain := Feed.gatherChain (l.feed.buffer.filled + 1) l.feed
    have settled := Feed.gatherSettles (n := l.feed.buffer.filled + 1) fit.feed
    change ¬Goes n ((l.feed.gather (l.feed.buffer.filled + 1)).andThen _).state
    generalize l.feed.gather (l.feed.buffer.filled + 1) = asked at chain settled ⊢
    obtain ⟨result, f, trace⟩ := asked
    have further := chainFit (fedChain l.scanned chain) (scannedFit fit)
    cases result with
    | ok _ =>
      -- Each round makes the window longer, and it cannot outgrow the capacity.
      exact ih further (grantedLonger fit chain settled enough)
    | error fault =>
      refine settleLeaves further fun goes => ?_
      -- All of the front is in the window, so the same request would be refused again.
      have whole :=
        (Feed.settlesFault fit.feed (Nat.succ_pos _) (Nat.le_of_not_lt free) settled).2.1
      have short := Feed.grantedShort further.feed goes.granted
      have front := (Feed.chainExtends chain fit.feed).front
      change f.buffer.window.length < f.front.bytes.length at short
      rw [whole, front] at short
      exact Nat.lt_irrefl _ short

theorem settleSame {next other : Lookahead → Run Lookahead (Except Fault Unit)} (fit : l.Fit)
    (same : next l.scanned = other l.scanned) : l.settle n next = l.settle n other := by
  unfold settle
  refine Run.andThenSame ?_
  rw [passState fit.stock]
  simp only [same]

theorem fillMore {fuel : Nat} (fit : l.Fit)
    (enough : l.feed.buffer.capacity < l.window.length + fuel) (more : Nat) :
    fill n (fuel + more) l = fill n fuel l := by
  induction fuel generalizing l with
  | zero =>
    have bounded := Buffer.windowBounded fit.feed.buffer
    exact absurd enough (Nat.not_lt.mpr bounded)
  | succ fuel ih =>
    rw [Nat.add_right_comm, fill, fill]
    split
    · rfl
    refine settleSame fit ?_
    split
    · rfl
    have chain := Feed.gatherChain (l.feed.buffer.filled + 1) l.feed
    have settled := Feed.gatherSettles (n := l.feed.buffer.filled + 1) fit.feed
    change (l.feed.gather (l.feed.buffer.filled + 1)).andThen _ =
      (l.feed.gather (l.feed.buffer.filled + 1)).andThen _
    generalize l.feed.gather (l.feed.buffer.filled + 1) = asked at chain settled ⊢
    obtain ⟨result, f, trace⟩ := asked
    refine Run.andThenSame ?_
    cases result with
    | ok _ =>
      have further := chainFit (fedChain l.scanned chain) (scannedFit fit)
      exact ih further (grantedLonger fit chain settled enough)
    | error fault => rfl

structure Ends (n : Nat) (l : Lookahead) : Prop where
  leaves : ¬(fill n (l.feed.buffer.capacity + 1) l).state.Goes n
  more : ∀ more, fill n (l.feed.buffer.capacity + 1 + more) l =
    fill n (l.feed.buffer.capacity + 1) l

theorem fitEnds (fit : l.Fit) (n : Nat) : l.Ends n :=
  ⟨fillLeaves fit (by omega), fillMore fit (by omega)⟩

end Lookahead

namespace Mounted

structure Halts (m : Mounted) : Prop where
  refills : ∀ n, n ≤ m.scanner.capacity → m.feed.Ends n
  fills : ∀ stock, m.scanner.ahead = .scalars stock → ∀ n, (m.lookahead stock).Ends n

theorem fitHalts {m : Mounted} (fit : m.Fit) (patient : m.front.finish ≠ .failed .interrupted) :
    m.Halts :=
  ⟨fun _ fits => Feed.patientEnds (feedFit fit) patient fits,
    fun _ grained => Lookahead.fitEnds (lookaheadFit fit grained)⟩

end Mounted

namespace Reader

variable {r : Reader}

theorem exactlyFromHalts {fuel left : Nat} (got : Bytes) (fit : r.Fit)
    (patient : r.front.finish ≠ .failed .interrupted) (enough : left + r.interruptions < fuel) :
    (∀ f, (exactlyFrom fuel left got r).result = .error f → ¬f.Passing) ∧
      ∀ more, exactlyFrom (fuel + more) left got r = exactlyFrom fuel left got r := by
  induction fuel generalizing left got r with
  | zero => exact absurd enough (Nat.not_lt_zero _)
  | succ fuel ih =>
    simp only [Nat.add_right_comm fuel 1]
    unfold exactlyFrom
    by_cases none : left = 0
    · simp only [if_pos none]
      exact ⟨fun f failed => by contradiction, fun _ => trivial⟩
    have out := readTurnsOut fit patient (Nat.pos_of_ne_zero none)
    have further := readFit fit left
    simp only [if_neg none, pull, Run.andThen]
    cases answer : (r.read left).answer with
    | served bytes =>
      rw [answer] at out
      cases out with
      | ended bare =>
        refine ⟨fun f failed => ?_, fun _ => rfl⟩
        obtain rfl := Except.error.inj failed
        decide
      | @served b bytes front few fewer =>
        have less : left - (b :: bytes).length + (r.read left).reader.interruptions < fuel := by
          simp only [List.length_cons] at few ⊢
          omega
        rw [front] at patient
        obtain ⟨leaves, more⟩ := ih (got ++ b :: bytes) further patient less
        exact ⟨leaves, fun k => by simp only [more k]⟩
    | failed g =>
      rw [answer] at out
      cases out with
      | failed bare lasting =>
        simp only [if_neg lasting]
        refine ⟨fun f failed => ?_, fun _ => trivial⟩
        obtain rfl := Except.error.inj failed
        exact lasting
      | again passing same fewer =>
        have less : left + (r.read left).reader.interruptions < fuel := by omega
        rw [← same] at patient
        obtain ⟨leaves, more⟩ := ih got further patient less
        simp only [if_pos passing]
        exact ⟨leaves, fun k => by simp only [more k]⟩

theorem drainFromHalts {n fuel : Nat} (fit : r.Fit)
    (patient : r.front.finish ≠ .failed .interrupted)
    (enough : r.front.bytes.length + r.interruptions < fuel) :
    (∀ f, (drainFrom n fuel r).result.failure = some f → ¬f.Passing) ∧
      ∀ more, drainFrom n (fuel + more) r = drainFrom n fuel r := by
  induction fuel generalizing r with
  | zero => exact absurd enough (Nat.not_lt_zero _)
  | succ fuel ih =>
    simp only [Nat.add_right_comm fuel 1]
    unfold drainFrom
    simp only [pull, Run.andThen]
    obtain rfl | room := Nat.eq_zero_or_pos n
    · rw [(readNothing r).1]
      exact ⟨fun f failed => by contradiction, fun _ => rfl⟩
    have out := readTurnsOut fit patient room
    have further := readFit fit n
    cases answer : (r.read n).answer with
    | served bytes =>
      rw [answer] at out
      cases out with
      | ended bare => exact ⟨fun f failed => by contradiction, fun _ => rfl⟩
      | served front few fewer =>
        have size := congrArg (List.length ∘ Front.bytes) front
        simp only [Function.comp, Front.behind, List.length_append, List.length_cons] at size
        rw [front] at patient
        obtain ⟨leaves, more⟩ := ih further patient (by omega)
        exact ⟨leaves, fun k => by simp only [more k]⟩
    | failed g =>
      rw [answer] at out
      cases out with
      | failed bare lasting =>
        simp only [if_neg lasting]
        refine ⟨fun f failed => ?_, fun _ => trivial⟩
        obtain rfl := Option.some.inj failed
        exact lasting
      | again passing same fewer =>
        rw [← same] at patient
        obtain ⟨leaves, more⟩ := ih further patient (by rw [same]; omega)
        simp only [if_pos passing]
        exact ⟨leaves, fun k => by simp only [more k]⟩

/-- The loops of reads stop at an answer. Want of fuel would be an interruption. -/
structure Halts (r : Reader) : Prop where
  exactly : ∀ n f, (r.exactly n).result = .error f → ¬f.Passing
  exactlyMore : ∀ n more, exactlyFrom (n + r.interruptions + 1 + more) n [] r = r.exactly n
  drain : ∀ n f, (r.drain n).result.failure = some f → ¬f.Passing
  drainMore : ∀ n more, drainFrom n (r.held + r.interruptions + 1 + more) r = r.drain n

theorem patientHalts (fit : r.Fit) (patient : r.front.finish ≠ .failed .interrupted) :
    r.Halts := by
  have held : r.front.bytes.length + r.interruptions < r.held + r.interruptions + 1 :=
    Nat.lt_succ_of_le (Nat.add_le_add_right (frontHeld r) _)
  have exactly n := exactlyFromHalts [] fit patient (Nat.lt_succ_self (n + r.interruptions))
  have drain n := @drainFromHalts r n _ fit patient held
  exact ⟨fun n => (exactly n).1, fun n => (exactly n).2, fun n => (drain n).1,
    fun n => (drain n).2⟩

end Reader
end Readahead
