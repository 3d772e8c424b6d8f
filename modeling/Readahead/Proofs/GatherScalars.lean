import Readahead.Proofs.FillSteps

/-! What comes of a request for scalars. Whenever the bytes arrive, the answer is told by the part
of the front that fits the capacity: the scalars it decodes to, what stands behind them, whether the
front goes on, and how it ends. -/
namespace Readahead

/- The fault when the capacity shows a text and a tail behind it, and the text is too short. -/
def Front.refusal (f : Front) (capacity offset : Nat) (text : Utf8.Text) (tail : Bytes)
    (n : Nat) : Fault :=
  if tail ≠ [] ∧ ¬Utf8.Opens tail then .invalid (offset + (Utf8.encode text).length)
  else if capacity ≤ f.bytes.length then if text = [] then .stuck else .tooLarge n capacity
  else match f.finish with
    | .failed kind => .stream kind
    | .ended =>
      if tail ≠ [] then .truncated (offset + (Utf8.encode text).length)
      else if text = [] then .nothingLeft
      else .tooFew n text.length

theorem shortageFailed {f : Front} {kind : FailureKind} {asked : Nat}
    (failed : f.finish = .failed kind) : f.shortage asked = .stream kind := by
  rw [Front.shortage, failed]

theorem shortageEnded {f : Front} {asked : Nat} (ended : f.finish = .ended) :
    (f.shortage asked).isEnd = true := by
  rw [Front.shortage, ended]
  simp only
  split <;> rfl

namespace Lookahead

def sight (l : Lookahead) : Bytes := l.feed.front.bytes.take l.feed.buffer.capacity

def verdict (n : Nat) (l : Lookahead) : Except Fault Unit :=
  let d := Utf8.decode l.sight
  if n ≤ d.scalars.length then .ok ()
  else .error (l.feed.front.refusal l.feed.buffer.capacity l.offset (Utf8.text d.scalars)
    (l.sight.drop d.span) n)

variable {l : Lookahead} {n : Nat}

theorem extendsSight {m : Lookahead} (extended : l.Extends m) : m.sight = l.sight := by
  simp only [sight, extended.feed.front, extended.feed.capacity]

theorem extendsVerdict {m : Lookahead} (extended : l.Extends m) (n : Nat) :
    m.verdict n = l.verdict n := by
  simp only [verdict, extendsSight extended, extended.feed.front, extended.feed.capacity,
    extended.offset]

theorem windowSight (fit : l.Fit) : l.window <+: l.sight :=
  List.prefix_take_iff.mpr
    ⟨Buffer.frontWindow _ _, Buffer.windowBounded fit.feed.buffer⟩

theorem sightDecode (fit : l.Fit) :
    ∃ rest, (Utf8.decode l.sight).scalars = l.stock.scalars ++ rest :=
  ⟨_, congrArg Utf8.Decoding.scalars
    (Stock.coversDecode (Stock.coversGrown fit.stock (windowSight fit)))⟩

theorem countWithin (fit : l.Fit) : l.stock.count ≤ (Utf8.decode l.sight).scalars.length := by
  obtain ⟨rest, more⟩ := sightDecode fit
  rw [more, List.length_append]
  exact Nat.le_add_right _ _

theorem verdictHeld (fit : l.Fit) (held : n ≤ l.stock.count) : l.verdict n = .ok () :=
  if_pos (Nat.le_trans held (countWithin fit))

theorem verdictInvalid (fit : l.Fit) (short : ¬n ≤ l.scanned.stock.count)
    (invalid : (Utf8.decode l.window).rest = .invalid) :
    l.verdict n = .error (.invalid (l.offset + (Utf8.decode l.window).span)) := by
  obtain ⟨rest, more⟩ := windowSight fit
  have same : Utf8.decode l.sight = Utf8.decode l.window := by
    rw [← more]
    exact Utf8.refusalStays rest invalid
  have refused := (Utf8.restTells l.sight).1.mp (by rw [same]; exact invalid)
  simp only [verdict]
  rw [if_neg (by rw [same]; exact short), Front.refusal, if_pos refused, Utf8.spanEncoded, same]

theorem verdictCrowded (fit : l.Fit) (short : ¬n ≤ l.scanned.stock.count)
    (sound : (Utf8.decode l.window).rest ≠ .invalid)
    (crowded : l.feed.buffer.capacity ≤ l.feed.buffer.filled) :
    l.verdict n = .error (l.scanned.overfull n).result := by
  have size := Buffer.windowLength fit.feed.buffer
  obtain ⟨rest, more⟩ := Buffer.frontWindow l.feed.buffer l.feed.below.front
  have bounded := Buffer.windowBounded fit.feed.buffer
  have length : l.feed.buffer.capacity ≤ l.feed.front.bytes.length := by
    rw [Feed.front, ← more, List.length_append]
    omega
  have same : l.sight = l.window := by
    rw [sight, Feed.front, ← more, List.take_append_of_le_length (by omega),
      List.take_of_length_le (by omega)]
    rfl
  have tells := (Utf8.restTells l.window).1
  change ¬n ≤ (Utf8.decode l.window).scalars.length at short
  simp only [verdict, same]
  rw [if_neg short, Front.refusal, if_neg (fun refused => sound (tells.mpr refused)),
    if_pos length]
  simp only [overfull, scanned, Stock.count, Stock.whole, List.length_eq_zero_iff, Utf8.text,
    List.map_eq_nil_iff]
  split <;> rfl

theorem verdictLacking {asked : Nat} (fit : l.Fit) (short : ¬n ≤ l.scanned.stock.count)
    (sound : (Utf8.decode l.window).rest ≠ .invalid) (whole : l.window = l.feed.front.bytes)
    (less : l.feed.front.bytes.length < l.feed.buffer.capacity) :
    l.verdict n = .error (l.scanned.lacking n (l.feed.front.shortage asked)) := by
  have size := Buffer.windowLength fit.feed.buffer
  have same : l.sight = l.window := by
    rw [sight, ← whole, List.take_of_length_le (by rw [whole]; omega)]
  have tells := (Utf8.restTells l.window).1
  change ¬n ≤ (Utf8.decode l.window).scalars.length at short
  simp only [verdict, same]
  rw [if_neg short, Front.refusal, if_neg (fun refused => sound (tells.mpr refused)),
    if_neg (by omega), Utf8.spanEncoded]
  have tail : l.window.drop (Utf8.decode l.window).span ≠ [] ↔
      (Utf8.decode l.window).span < l.feed.buffer.filled := by
    rw [← size, ne_eq, List.drop_eq_nil_iff, Nat.not_le]
    rfl
  simp only [lacking, tail]
  cases finish : l.feed.front.finish with
  | failed kind =>
    rw [shortageFailed finish]
    rfl
  | ended =>
    rw [shortageEnded finish]
    simp only [scanned, Stock.count, Stock.whole, List.length_eq_zero_iff, Utf8.text,
      List.map_eq_nil_iff, List.length_map, Bool.not_true, Bool.false_eq_true, if_false,
      Lookahead.front]

theorem settleResult {next : Lookahead → Run Lookahead (Except Fault Unit)} (fit : l.Fit)
    (later : ¬n ≤ l.scanned.stock.count → (Utf8.decode l.window).rest ≠ .invalid →
      (next l.scanned).result = l.verdict n) : (l.settle n next).result = l.verdict n := by
  unfold settle
  rw [Run.andThenResult, passState fit.stock, passResult fit.stock]
  split
  · rename_i held
    exact (verdictHeld (l := l.scanned) (scannedFit fit) held).symm
  · rename_i short
    by_cases invalid : (Utf8.decode l.window).rest = .invalid
    · rw [if_pos invalid, verdictInvalid fit short invalid]
      rfl
    · rw [if_neg invalid]
      exact later short invalid

theorem lackingResult {asked : Nat} {fault : Fault} (fit : l.Fit)
    (found : fault = l.feed.front.shortage asked) (whole : l.window = l.feed.front.bytes)
    (less : l.feed.front.bytes.length < l.feed.buffer.capacity) :
    (l.settle n fun m => .still (.error (m.lacking n fault)) m).result = l.verdict n := by
  refine settleResult fit fun short sound => ?_
  rw [found]
  exact (verdictLacking fit short sound whole less).symm

theorem grantedLonger {f : Feed} {events : List Event} {fuel : Nat} (fit : l.Fit)
    (chain : Chain Feed.Step l.feed events f)
    (settled : l.feed.Settles (l.feed.buffer.filled + 1) (.ok ()) f)
    (enough : l.feed.buffer.capacity < l.window.length + (fuel + 1)) :
    (l.scanned.fed f).feed.buffer.capacity < (l.scanned.fed f).window.length + fuel := by
  have size : l.window.length = l.feed.buffer.filled := Buffer.windowLength fit.feed.buffer
  have capacity : f.buffer.capacity = l.feed.buffer.capacity :=
    (Feed.chainExtends chain fit.feed).capacity
  have held : l.feed.buffer.filled + 1 ≤ f.buffer.window.length := Feed.settlesHeld settled
  simp only [window, fed, capacity] at enough size ⊢
  omega

theorem fillResult {fuel : Nat} (fit : l.Fit) (fits : n ≤ l.feed.buffer.capacity)
    (enough : l.feed.buffer.capacity < l.window.length + fuel) :
    (fill n fuel l).result = l.verdict n := by
  induction fuel generalizing l with
  | zero =>
    have bounded := Buffer.windowBounded fit.feed.buffer
    simp only [window] at enough
    omega
  | succ fuel ih =>
    have size := Buffer.windowLength fit.feed.buffer
    unfold fill
    split
    · rename_i held
      exact (verdictHeld fit held).symm
    refine settleResult fit fun short sound => ?_
    split
    · rename_i crowded
      rw [verdictCrowded fit short sound (by simp only [scanned] at crowded; omega)]
      rfl
    rename_i free
    simp only [scanned] at free
    -- A request for one byte more: the window grows, or holds all there is of the front. Either way
    -- the front is the same, and so is the verdict.
    have chain := Feed.gatherChain (l.feed.buffer.filled + 1) l.feed
    have settled := Feed.gatherSettles (n := l.feed.buffer.filled + 1) fit.feed
    change ((l.feed.gather (l.feed.buffer.filled + 1)).andThen _).result = _
    generalize l.feed.gather (l.feed.buffer.filled + 1) = asked at chain settled ⊢
    obtain ⟨result, f, trace⟩ := asked
    have extended := Feed.chainExtends chain fit.feed
    have further := chainFit (fedChain l.scanned chain) (scannedFit fit)
    have same : l.Extends (l.scanned.fed f) := ⟨extended, rfl⟩
    have capacity : f.buffer.capacity = l.feed.buffer.capacity := extended.capacity
    rw [← extendsVerdict same n]
    cases result with
    | ok _ =>
      change (fill n fuel (l.scanned.fed f)).result = _
      exact ih further (by rw [fed, capacity]; exact fits) (grantedLonger fit chain settled enough)
    | error fault =>
      obtain ⟨found, whole, less⟩ := Feed.settlesFault fit.feed (Nat.succ_pos _) (by omega) settled
      rw [← extended.front] at found whole less
      have room : l.feed.buffer.filled + 1 ≤ f.buffer.capacity := by omega
      exact lackingResult further found whole (Nat.lt_of_lt_of_le less room)

theorem gatherResult (fit : l.Fit) : (l.gather n).result =
    if l.feed.buffer.capacity < n then .error (.tooLarge n l.feed.buffer.capacity)
    else l.verdict n := by
  unfold gather
  split
  · rfl
  · exact fillResult fit (by omega) (by omega)

def Ready (n : Nat) (r : Run Lookahead (Except Fault Unit)) : Prop :=
  r.result = .ok () → n ≤ r.state.stock.count

theorem settleReady {next : Lookahead → Run Lookahead (Except Fault Unit)}
    (later : Ready n (next l.pass.state)) : Ready n (l.settle n next) := by
  change Ready n (if n ≤ l.pass.state.stock.count then _ else _)
  split
  · rename_i held
    exact fun _ => held
  · split
    · exact fun ready => by contradiction
    · exact later

theorem askedReady {α σ : Type} {asked : Run σ α}
    {next : α → σ → Run Lookahead (Except Fault Unit)}
    (later : Ready n (next asked.result asked.state)) : Ready n (asked.andThen next) := later

theorem fillReady (n fuel : Nat) (l : Lookahead) : Ready n (fill n fuel l) := by
  induction fuel generalizing l with
  | zero => exact fun ready => by contradiction
  | succ fuel ih =>
    unfold fill
    split
    · rename_i held
      exact fun _ => held
    refine settleReady ?_
    split
    · exact fun ready => by contradiction
    · refine askedReady ?_
      dsimp only
      split
      · exact ih _
      · exact settleReady fun ready => by contradiction

theorem gatherReady (n : Nat) (l : Lookahead) : Ready n (l.gather n) := by
  unfold gather
  split
  · exact fun ready => by contradiction
  · exact fillReady n _ l

end Lookahead
end Readahead
