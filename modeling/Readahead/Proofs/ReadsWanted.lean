import Readahead.Proofs.EndHeardOnce

/-! A scanner that looks ahead reads on only where it has to. The reader beneath has not ended or
failed, the request fits the capacity, and what is in the window does not settle it: it holds too
few bytes, or it has room for more, is the start of a text, and has too few scalars. -/
namespace Readahead

def Needing {σ : Type} (step : σ → List Event → σ → Prop) (wants : σ → Prop) (s : σ)
    (events : List Event) (t : σ) : Prop :=
  step s events t ∧ (events.filterMap (Event.atDepth 0) ≠ [] → wants s)

section Needing

variable {σ : Type} {step : σ → List Event → σ → Prop} {wants : σ → Prop} {s t : σ}
  {events : List Event}

theorem unreadNeeds (chain : Chain step s events t)
    (unread : events.filterMap (Event.atDepth 0) = []) : Chain (Needing step wants) s events t := by
  induction chain with
  | rest s => exact .rest s
  | next head tail ih =>
    rw [List.filterMap_append, List.append_eq_nil_iff] at unread
    exact .next ⟨head, fun read => absurd unread.1 read⟩ (ih unread.2)

theorem needsUnread (kept : σ → Prop) (chain : Chain (Needing step wants) s events t)
    (each : ∀ s t events, kept s → step s events t → kept t ∧ (wants t → wants s))
    (start : kept s) (unwanted : ¬wants s) : events.filterMap (Event.atDepth 0) = [] := by
  induction chain with
  | rest s => rfl
  | next head tail ih =>
    obtain ⟨further, before⟩ := each _ _ _ start head.1
    have first := Decidable.of_not_not fun read => unwanted (head.2 read)
    rw [List.filterMap_append, first, ih further fun wanted => unwanted (before wanted)]
    rfl

end Needing

namespace Feed

structure Wants (n : Nat) (f : Feed) : Prop where
  fits : n ≤ f.buffer.capacity
  flowing : f.buffer.phase = .flowing
  short : f.buffer.window.length < n

variable {f : Feed}

theorem refillNeeds {n fuel : Nat} (fit : f.Fit) (atFront : f.buffer.start = 0)
    (fits : n ≤ f.buffer.capacity) :
    Chain (Needing Step (Wants n)) f (refill n fuel f).trace (refill n fuel f).state := by
  induction fuel generalizing f with
  | zero => exact .rest f
  | succ fuel ih =>
    by_cases more : f.buffer.stop < n ∧ f.buffer.phase = .flowing
    · have kept := Buffer.absorbStart f.buffer (f.below.read f.buffer.room).answer
      have step : Step f f.once.trace f.once.state := .refill more.2 atFront (by omega)
      have short : f.buffer.window.length < n := by
        rw [Buffer.windowLength fit.buffer, Buffer.filled, atFront]
        exact more.1
      rw [(refillOnce fuel more.1 more.2).1, (refillOnce fuel more.1 more.2).2]
      refine .next ⟨step, fun _ => ⟨fits, more.2, short⟩⟩ (ih (stepExtends fit step).1 ?_ ?_)
      · exact kept.1.trans atFront
      · rw [onceState, kept.2]
        exact fits
    · rw [refillStops more]
      exact .rest f

theorem lackingUnread (n : Nat) (f : Feed) :
    (lacking n f).trace.filterMap (Event.atDepth 0) = [] := by
  unfold lacking
  split
  · rfl
  · rfl
  all_goals split <;> rfl

theorem gatherNeeds (n : Nat) (fit : f.Fit) :
    Chain (Needing Step (Wants n)) f (f.gather n).trace (f.gather n).state := by
  unfold gather
  split
  · exact .rest f
  rename_i live
  split
  · exact .rest f
  rename_i within
  split
  · exact .rest f
  rw [Run.andThenTrace, Run.andThenState]
  have shifted : Chain (Needing Step (Wants n)) f [] { f with buffer := f.buffer.toFront } :=
    unreadNeeds (Chain.one .shift) rfl
  have fits : n ≤ f.buffer.toFront.capacity := Nat.le_of_not_lt within
  refine (shifted.append (refillNeeds (stepExtends fit .shift).1 rfl fits)).append ?_
  split
  · exact .rest _
  · exact unreadNeeds (lackingChain (filledUpKeeps live).1 n) (lackingUnread n _)

theorem gatherUnread {n : Nat} (fit : f.Fit) (unwanted : ¬f.Wants n) :
    (f.gather n).trace.filterMap (Event.atDepth 0) = [] := by
  refine needsUnread Fit (gatherNeeds n fit) (fun s t events fit step => ?_) fit unwanted
  obtain ⟨further, extended⟩ := stepExtends fit step
  refine ⟨further, fun wants => ⟨extended.capacity ▸ wants.fits, ?_, ?_⟩⟩
  · exact Phase.leadsFlowing
      (fun settled => (Phase.turnsSettled settled (stepTurns fit step)).1) wants.flowing
  · exact Nat.lt_of_le_of_lt extended.window.length_le wants.short

end Feed

namespace Lookahead

structure Wants (n : Nat) (l : Lookahead) : Prop where
  fits : n ≤ l.feed.buffer.capacity
  flowing : l.feed.buffer.phase = .flowing
  room : l.window.length < l.feed.buffer.capacity
  short : (Utf8.decode l.window).scalars.length < n
  sound : (Utf8.decode l.window).rest ≠ .invalid

variable {l : Lookahead}

theorem passUnread (l : Lookahead) : l.pass.trace.filterMap (Event.atDepth 0) = [] := by
  obtain ⟨notes, trace, _⟩ := passNotes l
  rw [trace]
  exact notesUnread notes 0

theorem settleNeeds {n : Nat} {next : Lookahead → Run Lookahead (Except Fault Unit)} (fit : l.Fit)
    (later : (Utf8.decode l.window).scalars.length < n → (Utf8.decode l.window).rest ≠ .invalid →
      Chain (Needing Step (Wants n)) l.scanned (next l.scanned).trace (next l.scanned).state) :
    Chain (Needing Step (Wants n)) l (l.settle n next).trace (l.settle n next).state := by
  have passed : Chain (Needing Step (Wants n)) l l.pass.trace l.pass.state :=
    unreadNeeds (passChain l) (passUnread l)
  unfold settle
  rw [Run.andThenTrace, Run.andThenState]
  refine passed.append ?_
  rw [passState fit.stock, passResult fit.stock]
  split
  · exact .rest _
  rename_i short
  by_cases invalid : (Utf8.decode l.window).rest = .invalid
  · rw [if_pos invalid]
    exact .rest _
  · rw [if_neg invalid]
    exact later (Nat.lt_of_not_le short) invalid

theorem overfullUnread (n : Nat) (l : Lookahead) :
    (l.overfull n).trace.filterMap (Event.atDepth 0) = [] := by
  unfold overfull
  split <;> rfl

theorem fedNeeds {n : Nat} {g : Feed} {events : List Event} (fit : l.Fit)
    (fits : n ≤ l.feed.buffer.capacity) (short : (Utf8.decode l.window).scalars.length < n)
    (sound : (Utf8.decode l.window).rest ≠ .invalid)
    (free : ¬l.feed.buffer.capacity < l.feed.buffer.filled + 1)
    (chain : Chain (Needing Feed.Step (Feed.Wants (l.feed.buffer.filled + 1))) l.feed events g) :
    Chain (Needing Step (Wants n)) l events (l.fed g) := by
  have size : l.window.length = l.feed.buffer.filled := Buffer.windowLength fit.feed.buffer
  refine chain.lift l.fed (fun f => f.Fit ∧ l.feed.Extends f) (fun f h events kept step => ?_)
    ⟨fit.feed, Feed.extendsSame _⟩
  obtain ⟨further, extended⟩ := Feed.stepExtends kept.1 step.1
  refine ⟨⟨further, Feed.extendsTwice kept.2 extended⟩, .feed step.1, fun read => ?_⟩
  obtain ⟨_, flowing, same⟩ := step.2 read
  -- The window only grows, and it is still no longer than it was.
  rw [← size] at same free
  have window : (l.fed f).window = l.window :=
    (kept.2.window.eq_of_length_le (Nat.le_of_lt_succ same)).symm
  have capacity : (l.fed f).feed.buffer.capacity = l.feed.buffer.capacity := kept.2.capacity
  exact ⟨by rw [capacity]; exact fits, flowing, by rw [window, capacity]; omega,
    by rw [window]; exact short, by rw [window]; exact sound⟩

theorem fillNeeds {n : Nat} (fuel : Nat) (fit : l.Fit) (fits : n ≤ l.feed.buffer.capacity) :
    Chain (Needing Step (Wants n)) l (fill n fuel l).trace (fill n fuel l).state := by
  induction fuel generalizing l with
  | zero => exact .rest l
  | succ fuel ih =>
    unfold fill
    split
    · exact .rest l
    refine settleNeeds fit fun short sound => ?_
    split
    · rename_i crowded
      have full : l.scanned.feed.buffer.capacity ≤ l.scanned.feed.buffer.filled := by omega
      exact unreadNeeds (overfullChain n full) (overfullUnread n _)
    rename_i free
    have chain := Feed.gatherChain (l.scanned.feed.buffer.filled + 1) l.scanned.feed
    have capacity := (Feed.chainExtends chain fit.feed).capacity
    have further := chainFit (fedChain l.scanned chain) (scannedFit fit)
    rw [Run.andThenTrace, Run.andThenState]
    refine (fedNeeds (scannedFit fit) fits short sound free
      (Feed.gatherNeeds _ fit.feed)).append ?_
    split
    · exact ih further (Nat.le_trans fits (Nat.le_of_eq capacity.symm))
    · exact settleNeeds further fun _ _ => .rest _

theorem gatherNeeds (n : Nat) (fit : l.Fit) :
    Chain (Needing Step (Wants n)) l (l.gather n).trace (l.gather n).state := by
  unfold gather
  split
  · exact .rest l
  · exact fillNeeds _ fit (by omega)

end Lookahead

def Scanner.Lacks (n : Nat) (s : Scanner) : Prop :=
  match s.ahead.grain with
  | .bytes => s.window.length < n
  | .scalars => s.window.length < s.capacity ∧ (Utf8.decode s.window).scalars.length < n ∧
      (Utf8.decode s.window).rest ≠ .invalid

namespace Mounted

structure Wants (n : Nat) (m : Mounted) : Prop where
  fits : n ≤ m.scanner.capacity
  flowing : m.scanner.buffer.phase = .flowing
  lacks : m.scanner.Lacks n

variable {m k : Mounted}

theorem reachBytesNeeds (n : Nat) (fit : m.Fit) :
    Chain (Needing Step fun k => k.feed.Wants n) m (m.reachBytes n).trace (m.reachBytes n).state :=
  (Feed.gatherNeeds n (feedFit fit)).lift m.withFeed (fun _ => True)
    (fun _ _ _ _ step => ⟨trivial, .feed (m := m.withFeed _) step.1, step.2⟩) trivial

theorem reachNeeds (n : Nat) (fit : m.Fit) :
    Chain (Needing Step (Wants n)) m (m.reach n).trace (m.reach n).state := by
  unfold reach
  cases grained : m.scanner.ahead with
  | bytes =>
    refine (Feed.gatherNeeds n (feedFit fit)).lift m.withFeed (fun _ => True)
      (fun f g events _ step => ⟨trivial, .feed step.1, fun read => ?_⟩) trivial
    obtain ⟨fits, flowing, short⟩ := step.2 read
    refine ⟨fits, flowing, ?_⟩
    rw [Scanner.Lacks, withFeed, grained]
    exact short
  | scalars stock =>
    have each : ∀ l k events, l.offset = m.scanner.place.offset →
        Needing Lookahead.Step (Lookahead.Wants n) l events k →
        k.offset = m.scanner.place.offset ∧
          Needing Step (Wants n) (m.withLookahead l) events (m.withLookahead k) := by
      intro l k events same step
      refine ⟨(Lookahead.stepOffset step.1).trans same, scanStep same step.1, fun read => ?_⟩
      obtain ⟨fits, flowing, room, short, sound⟩ := step.2 read
      exact ⟨fits, flowing, room, short, sound⟩
    have chain := (Lookahead.gatherNeeds n (lookaheadFit fit grained)).lift m.withLookahead _ each
      rfl
    rw [withLookaheadSame grained] at chain
    exact chain

theorem wantsBefore {n : Nat} (extended : m.Extends k)
    (flowing : k.scanner.buffer.phase = .flowing → m.scanner.buffer.phase = .flowing)
    (wants : k.Wants n) : m.Wants n := by
  obtain ⟨rest, more⟩ := extended.window
  have longer := extended.window.length_le
  refine ⟨extended.capacity ▸ wants.fits, flowing wants.flowing, ?_⟩
  have lacks := wants.lacks
  unfold Scanner.Lacks at lacks ⊢
  rw [extended.grain] at lacks
  generalize m.scanner.ahead.grain = grain at lacks
  cases grain with
  | bytes => exact Nat.lt_of_le_of_lt longer lacks
  | scalars =>
    obtain ⟨room, short, sound⟩ := lacks
    rw [extended.capacity] at room
    rw [← more] at short sound
    refine ⟨Nat.lt_of_le_of_lt longer room, Nat.lt_of_le_of_lt ?_ short, fun invalid => ?_⟩
    · rw [Utf8.decodeCut, List.length_append]
      exact Nat.le_add_right _ _
    · have same : Utf8.decode (m.scanner.window ++ rest) = Utf8.decode m.scanner.window :=
        Utf8.refusalStays rest invalid
      rw [same] at sound
      exact sound invalid

theorem stepFlowing {events : List Event} (fit : m.Fit) (step : Step m events k)
    (flowing : k.scanner.buffer.phase = .flowing) : m.scanner.buffer.phase = .flowing :=
  Phase.leadsFlowing (fun settled => (Phase.turnsSettled settled (stepTurns fit step)).1) flowing

theorem reachUnread {n : Nat} (fit : m.Fit) (unwanted : ¬m.Wants n) :
    (m.reach n).trace.filterMap (Event.atDepth 0) = [] := by
  refine needsUnread Fit (reachNeeds n fit) (fun s t events fit step => ?_) fit unwanted
  obtain ⟨further, extended⟩ := stepExtends fit step
  exact ⟨further, wantsBefore extended (stepFlowing fit step)⟩

theorem lookTrace {n : Nat} (positive : 0 < n) : (m.look n).trace = (m.reach n).trace := by
  rw [look, if_neg (Nat.ne_of_gt positive), Run.andThenTrace]
  exact List.append_nil _

theorem skipTrace {n : Nat} (positive : 0 < n) : (m.skip n).trace = (m.reach n).trace := by
  rw [skip, if_neg (Nat.ne_of_gt positive), Run.andThenTrace]
  cases (m.reach n).result <;> exact List.append_nil _

theorem lookUnread {n : Nat} (fit : m.Fit) (unwanted : ¬m.Wants n) :
    (m.look n).trace.filterMap (Event.atDepth 0) = [] := by
  obtain rfl | positive := Nat.eq_zero_or_pos n
  · rfl
  · rw [lookTrace positive]
    exact reachUnread fit unwanted

theorem skipUnread {n : Nat} (fit : m.Fit) (unwanted : ¬m.Wants n) :
    (m.skip n).trace.filterMap (Event.atDepth 0) = [] := by
  obtain rfl | positive := Nat.eq_zero_or_pos n
  · rfl
  · rw [skipTrace positive]
    exact reachUnread fit unwanted

end Mounted
end Readahead
