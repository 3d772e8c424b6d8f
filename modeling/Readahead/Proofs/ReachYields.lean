import Readahead.Proofs.UnitsConsumed
import Readahead.Proofs.Prospect
import Readahead.Proofs.SteadyStreams

/-! A mounted scanner answers as its prospect does. Whatever lies in the buffer, whatever was
decoded before and however the bytes arrive, each query gives the answer, takes the bytes and leaves
the prospect that the machine without a buffer says. -/
namespace Readahead

theorem Feed.settlesSpent {f g : Feed} {n : Nat} {result : Except Fault Unit} (fit : f.Fit)
    (positive : 0 < n) (extended : f.Extends g) (settled : f.Settles n result g) :
    g.buffer.phase = .spent ↔
      f.buffer.phase = .spent ∨ n ≤ f.buffer.capacity ∧ f.front = ⟨[], .ended⟩ := by
  cases settled with
  | spent past => simp [past]
  | large live large =>
    have beyond : ¬n ≤ f.buffer.capacity := by omega
    simp [live, beyond]
  | reached live fits held =>
    have some : f.front ≠ ⟨[], .ended⟩ := by
      intro none
      have window : g.buffer.window <+: g.front.bytes := Buffer.frontWindow _ _
      rw [extended.front, none] at window
      rw [List.prefix_nil.mp window] at held
      exact Nat.not_lt.mpr held positive
    have before : f.buffer.phase ≠ .spent := fun spent => some (spentFront fit spent)
    simp [live, before, some]
  | short fits short whole given =>
    rw [given]
    exact ⟨fun none => .inr ⟨fits, none⟩, fun either => either.elim (spentFront fit) And.right⟩

namespace Mounted

def prospect (m : Mounted) : Prospect :=
  ⟨m.scanner.ahead.grain, m.scanner.capacity, m.front, m.scanner.progress,
    decide (m.scanner.ahead.grain = .bytes ∧ m.scanner.buffer.phase = .spent)⟩

theorem freshProspect (grain : Grain) (capacity : Nat) (below : Reader) :
    (Mounted.mk (.fresh grain capacity) below).prospect =
      ⟨grain, capacity, below.front, .start, false⟩ := by
  have front : (Mounted.mk (.fresh grain capacity) below).front = below.front := by
    change below.front.behind (Buffer.fresh capacity).window = below.front
    rw [Buffer.freshWindow, behindNothing]
  rw [prospect, front]
  cases grain <;> rfl

structure Yields {α : Type} (m : Mounted) (r : Run Mounted α) (t : Turn α) : Prop where
  fit : r.state.Fit
  result : r.result = t.result
  left : r.state.prospect = t.left
  moves : m.reader.Moves (hands t.taken r.trace) r.state.reader
  steady : m.reader.Steady → r.state.reader.Steady

section Yields

variable {α β : Type} {m : Mounted} {r : Run Mounted α} {t : Turn α}

theorem yieldsStill (fit : m.Fit) {p : Prospect} (same : m.prospect = p) (result : α) :
    m.Yields (.still result m) (.still result p) := by
  refine ⟨fit, rfl, same, Reader.movesStill (fun depth => ?_) _, id⟩
  cases depth <;> rfl

theorem yieldsThen {next : α → Mounted → Run Mounted β} {after : α → Prospect → Turn β}
    (first : m.Yields r t)
    (later : r.state.Yields (next t.result r.state) (after t.result t.left)) :
    m.Yields (r.andThen next) (t.andThen after) := by
  rw [← first.result] at later
  have moves := Reader.movesTwice first.moves later.moves
  refine ⟨later.fit, ?_, ?_, Reader.movesSame moves fun depth => ?_, later.steady ∘ first.steady⟩
  · rw [Run.andThenResult, later.result, first.result]
    rfl
  · rw [Run.andThenState, later.left, first.result]
    rfl
  · rw [Run.andThenTrace, Turn.andThen, ← first.result]
    cases depth with
    | zero => rfl
    | succ depth => exact (handedAppend _ _ depth).symm

theorem yieldsMap (f : α → β) (first : m.Yields r t) : m.Yields (r.map f) (t.map f) :=
  ⟨first.fit, congrArg f first.result, first.left, first.moves, first.steady⟩

theorem yieldsTold {g : α → Mounted → β} {answer : β} (first : m.Yields r t)
    (told : g r.result r.state = answer) :
    m.Yields (r.andThen fun result k => .still (g result k) k) ⟨answer, t.taken, t.left⟩ := by
  refine ⟨first.fit, told, first.left, ?_, first.steady⟩
  rw [Run.andThenTrace, Run.still, List.append_nil]
  exact first.moves

end Yields

variable {m : Mounted}

theorem chainYields {α : Type} {k : Mounted} {events : List Event} {n : Nat} (fit : m.Fit)
    (chain : Chain Step m events k) (left : k.prospect = m.prospect.tried n) (result : α) :
    m.Yields ⟨result, k, events⟩ (.still result (m.prospect.tried n)) :=
  ⟨chainFit chain fit, rfl, left, chainMoves chain fit, chainSteady chain fit⟩

theorem extendsProspect {k : Mounted} (extended : m.Extends k) {n : Nat}
    (spent : m.scanner.ahead.grain = .bytes → (k.scanner.buffer.phase = .spent ↔
      m.scanner.buffer.phase = .spent ∨ n ≤ m.scanner.capacity ∧ m.front = ⟨[], .ended⟩)) :
    k.prospect = m.prospect.tried n := by
  simp only [prospect, Prospect.tried, extended.front, extended.capacity, extended.progress,
    extended.grain, Prospect.mk.injEq, true_and]
  by_cases grain : m.scanner.ahead.grain = .bytes
  · simp [grain, spent grain]
  · simp [grain]

theorem windowSight (fit : m.Fit) : m.scanner.window <+: m.prospect.sight :=
  List.prefix_take_iff.mpr ⟨Buffer.frontWindow _ _, Buffer.windowBounded fit.scanner.buffer⟩

theorem itemsSight (fit : m.Fit) : m.scanner.items <+: m.prospect.items := by
  unfold Scanner.items Prospect.items prospect
  cases grained : m.scanner.ahead with
  | bytes => exact (windowSight fit).map _
  | scalars stock =>
    obtain ⟨rest, more⟩ := Lookahead.sightDecode (lookaheadFit fit grained)
    change _ <+: (Utf8.text (Utf8.decode (m.lookahead stock).sight).scalars).map Item.scalar
    rw [more, Utf8.text, List.map_append, List.map_append, List.map_map]
    exact List.prefix_append _ _

theorem reachBytesLeft (fit : m.Fit) {n : Nat} (positive : 0 < n) :
    (m.reachBytes n).state.prospect = m.prospect.tried n := by
  have extended := chainExtends (reachBytesChain n m) fit
  refine extendsProspect extended fun _ => ?_
  exact Feed.settlesSpent (feedFit fit) positive
    (Feed.chainExtends (Feed.gatherChain n m.feed) (feedFit fit))
    (Feed.gatherSettles (feedFit fit))

theorem reachBytesYields (fit : m.Fit) {n : Nat} (positive : 0 < n) :
    m.Yields (m.reachBytes n) (.still (m.reachBytes n).result (m.prospect.tried n)) :=
  chainYields fit (reachBytesChain n m) (reachBytesLeft fit positive) _

theorem reachBytesHeld (fit : m.Fit) {n : Nat} (ok : (m.reachBytes n).result = .ok ()) :
    n ≤ (m.reachBytes n).state.scanner.window.length := by
  have settled := Feed.gatherSettles (n := n) (feedFit fit)
  change (m.feed.gather n).result = _ at ok
  rw [ok] at settled
  exact Feed.settlesHeld settled

theorem reachBytesTells (fit : m.Fit) {n : Nat} (positive : 0 < n) :
    (m.reachBytes n).result = if n ≤ m.prospect.sight.length then .ok () else .error
      (if m.scanner.buffer.phase = .spent then .nothingLeft
        else if m.scanner.capacity < n then .tooLarge n m.scanner.capacity
        else m.front.shortage n) := by
  have result : (m.reachBytes n).result =
      if m.scanner.buffer.phase = .spent then .error .nothingLeft
      else if m.scanner.capacity < n then .error (.tooLarge n m.scanner.capacity)
      else if n ≤ m.front.bytes.length then .ok () else .error (m.front.shortage n) :=
    Feed.gatherResult (feedFit fit)
  have sight : m.prospect.sight.length = min m.scanner.capacity m.front.bytes.length :=
    List.length_take
  rw [result, sight]
  by_cases spent : m.scanner.buffer.phase = .spent
  · have none : m.front.bytes = [] := congrArg Front.bytes (Feed.spentFront (feedFit fit) spent)
    rw [if_pos spent, if_pos spent, none, List.length_nil, Nat.min_zero,
      if_neg (Nat.not_le.mpr positive)]
  rw [if_neg spent, if_neg spent]
  by_cases large : m.scanner.capacity < n
  · rw [if_pos large, if_pos large, if_neg (by omega)]
  · rw [if_neg large, if_neg large]
    by_cases within : n ≤ m.front.bytes.length
    · rw [if_pos within, if_pos (Nat.le_min.mpr ⟨Nat.not_lt.mp large, within⟩)]
    · rw [if_neg within, if_neg fun both => within (Nat.le_min.mp both).2]

theorem reachBytesSees (fit : m.Fit) {n : Nat} (positive : 0 < n) :
    (m.reachBytes n).result = .ok () ↔ n ≤ m.prospect.sight.length := by
  rw [reachBytesTells fit positive]
  split
  · rename_i within
    exact ⟨fun _ => within, fun _ => rfl⟩
  · rename_i short
    exact ⟨fun told => by contradiction, fun within => absurd within short⟩

theorem reachBytesResult (fit : m.Fit) (grained : m.scanner.ahead = .bytes) {n : Nat}
    (positive : 0 < n) : (m.reachBytes n).result = (m.prospect.reach n).result := by
  have grain : m.prospect.grain = .bytes := congrArg Ahead.grain grained
  have size : m.prospect.items.length = m.prospect.sight.length := by
    rw [Prospect.items, grain]
    exact List.length_map _
  have spent : m.prospect.spent = true ↔ m.scanner.buffer.phase = .spent := by
    simp [prospect, grained, Ahead.grain]
  rw [reachBytesTells fit positive]
  simp only [Prospect.reach, Turn.still, size, Prospect.refusal, grain, spent]
  rfl

theorem reachScalarsResult (fit : m.Fit) {stock : Stock}
    (grained : m.scanner.ahead = .scalars stock) (n : Nat) :
    (m.reach n).result = (m.prospect.reach n).result := by
  have fits := lookaheadFit fit grained
  have grain : m.prospect.grain = .scalars := congrArg Ahead.grain grained
  have size : m.prospect.items.length =
      (Utf8.decode (m.lookahead stock).sight).scalars.length := by
    rw [Prospect.items, grain, Grain.items, List.length_map, Utf8.text, List.length_map]
    rfl
  have least := Nat.le_trans m.prospect.itemsWithin m.prospect.sightWithin.1
  unfold reach
  rw [grained]
  change ((m.lookahead stock).gather n).result = _
  rw [Lookahead.gatherResult fits, Lookahead.verdict]
  simp only [Prospect.reach, Turn.still, Prospect.refusal, grain]
  rw [size] at least ⊢
  by_cases large : m.prospect.capacity < n
  · rw [if_pos (by exact large), if_neg (by omega), if_pos large]
    rfl
  · rw [if_neg (by exact large), if_neg large]
    rfl

theorem reachYields (fit : m.Fit) {n : Nat} (positive : 0 < n) :
    m.Yields (m.reach n) (m.prospect.reach n) := by
  have chain := reachChain n m
  cases grained : m.scanner.ahead with
  | bytes =>
    have same : m.reach n = m.reachBytes n := by rw [reach, grained]
    rw [same] at chain ⊢
    have yields := chainYields fit chain (reachBytesLeft fit positive) (m.reachBytes n).result
    rw [reachBytesResult fit grained positive] at yields
    exact ⟨yields.fit, reachBytesResult fit grained positive, yields.left, yields.moves,
      yields.steady⟩
  | scalars stock =>
    have left : (m.reach n).state.prospect = m.prospect.tried n :=
      extendsProspect (chainExtends chain fit) fun bytes => by rw [grained] at bytes; contradiction
    exact ⟨chainFit chain fit, reachScalarsResult fit grained n, left, chainMoves chain fit,
      chainSteady chain fit⟩

theorem reachReady (fit : m.Fit) {n : Nat} (ok : (m.reach n).result = .ok ()) :
    n ≤ (m.reach n).state.scanner.items.length := by
  cases grained : m.scanner.ahead with
  | bytes =>
    have same : m.reach n = m.reachBytes n := by rw [reach, grained]
    have bytes : (m.reachBytes n).state.scanner.ahead = .bytes := grained
    rw [same] at ok ⊢
    rw [Scanner.items, bytes, Ahead.items, List.length_map]
    exact reachBytesHeld fit ok
  | scalars stock =>
    have same : m.reach n = ((m.lookahead stock).gather n).within m.withLookahead := by
      rw [reach, grained]
    rw [same] at ok ⊢
    have ready := Lookahead.gatherReady n (m.lookahead stock) ok
    change n ≤ (List.map _ _).length
    rw [List.length_map]
    exact ready

end Mounted
end Readahead
