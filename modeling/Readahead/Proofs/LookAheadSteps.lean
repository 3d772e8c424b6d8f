import Readahead.Mounted
import Readahead.Proofs.GatherScalars

/-! What a mounted scanner does while it looks ahead, step by step. Nothing of it is consumed: the
front, the capacity and the place stay, and the window only grows. -/
namespace Readahead
namespace Mounted

structure Fit (m : Mounted) : Prop where
  scanner : m.scanner.Fit
  below : m.below.Fit

def front (m : Mounted) : Front := m.scanner.buffer.front m.below.front

inductive Step : Mounted → List Event → Mounted → Prop where
  | feed {m : Mounted} {events : List Event} {f : Feed} (step : Feed.Step m.feed events f) :
      Step m events (m.withFeed f)
  | scan {m : Mounted} {stock : Stock} {events : List Event} {l : Lookahead}
      (grained : m.scanner.ahead = .scalars stock)
      (step : Lookahead.Step (m.lookahead stock) events l) : Step m events (m.withLookahead l)

structure Extends (before after : Mounted) : Prop where
  front : after.front = before.front
  capacity : after.scanner.capacity = before.scanner.capacity
  window : before.scanner.window <+: after.scanner.window
  progress : after.scanner.progress = before.scanner.progress
  grain : after.scanner.ahead.grain = before.scanner.ahead.grain

variable {m : Mounted}

theorem extendsSame (m : Mounted) : m.Extends m := ⟨rfl, rfl, List.prefix_refl _, rfl, rfl⟩

theorem extendsTwice {k l m : Mounted} (first : k.Extends l) (second : l.Extends m) :
    k.Extends m :=
  ⟨second.front.trans first.front, second.capacity.trans first.capacity,
    first.window.trans second.window, second.progress.trans first.progress,
    second.grain.trans first.grain⟩

theorem spellsGrown {ahead : Ahead} {window more : Bytes} (spells : ahead.Spells window)
    (grown : window <+: more) : ahead.Spells more := by
  cases ahead with
  | bytes => trivial
  | scalars stock => exact Stock.coversGrown spells grown

theorem feedFit (fit : m.Fit) : m.feed.Fit := ⟨fit.scanner.buffer, fit.below⟩

theorem lookaheadFit {stock : Stock} (fit : m.Fit) (grained : m.scanner.ahead = .scalars stock) :
    (m.lookahead stock).Fit := by
  have spells := fit.scanner.ahead
  rw [grained] at spells
  exact ⟨feedFit fit, spells⟩

theorem stepExtends {n : Mounted} {events : List Event} (fit : m.Fit) (step : Step m events n) :
    n.Fit ∧ m.Extends n := by
  cases step with
  | feed step =>
    obtain ⟨further, extended⟩ := Feed.stepExtends (feedFit fit) step
    exact ⟨⟨⟨further.buffer, spellsGrown fit.scanner.ahead extended.window⟩, further.below⟩,
      extended.front, extended.capacity, extended.window, rfl, rfl⟩
  | scan grained step =>
    obtain ⟨further, extended⟩ := Lookahead.stepExtends (lookaheadFit fit grained) step
    refine ⟨⟨⟨further.feed.buffer, further.stock⟩, further.feed.below⟩, extended.feed.front,
      extended.feed.capacity, extended.feed.window, rfl, ?_⟩
    rw [grained]
    rfl

theorem chainFit {n : Mounted} {events : List Event} (chain : Chain Step m events n)
    (fit : m.Fit) : n.Fit :=
  chain.keeps Fit (fun _ _ _ fit step => (stepExtends fit step).1) fit

theorem chainExtends {n : Mounted} {events : List Event} (chain : Chain Step m events n)
    (fit : m.Fit) : m.Extends n :=
  chain.relates Fit Extends (fun _ _ _ fit step => stepExtends fit step) extendsSame
    (fun _ _ _ => extendsTwice) fit

theorem reachBytesChain (n : Nat) (m : Mounted) :
    Chain Step m (m.reachBytes n).trace (m.reachBytes n).state :=
  (Feed.gatherChain n m.feed).lift m.withFeed (fun _ => True)
    (fun _ _ _ _ step => ⟨trivial, Step.feed (m := m.withFeed _) step⟩) trivial

theorem withLookaheadSame {stock : Stock} (grained : m.scanner.ahead = .scalars stock) :
    m.withLookahead (m.lookahead stock) = m := by
  rw [withLookahead, lookahead, ← grained]
  rfl

theorem scanStep {l k : Lookahead} {events : List Event}
    (same : l.offset = m.scanner.place.offset) (step : Lookahead.Step l events k) :
    Step (m.withLookahead l) events (m.withLookahead k) := by
  have part : (m.withLookahead l).lookahead l.stock = l := by
    simp only [lookahead, withLookahead, feed, Scanner.place] at same ⊢
    rw [← same]
  exact .scan rfl (by rw [part]; exact step)

theorem reachChain (n : Nat) (m : Mounted) : Chain Step m (m.reach n).trace (m.reach n).state := by
  unfold reach
  split
  · exact reachBytesChain n m
  · rename_i stock grained
    have chain : Chain Step (m.withLookahead (m.lookahead stock)) _ (m.withLookahead _) :=
      (Lookahead.gatherChain n (m.lookahead stock)).lift m.withLookahead
        (fun l => l.offset = m.scanner.place.offset)
        (fun l k events same step =>
          ⟨(Lookahead.stepOffset step).trans same, scanStep same step⟩) rfl
    rw [withLookaheadSame grained] at chain
    exact chain

end Mounted
end Readahead
