import Readahead.Proofs.ByteConservation
import Readahead.Proofs.StockLikeness
import Readahead.Proofs.ReadsByFront

/-! The stock of a scanner is not to be seen. With and without it every request is answered alike,
the same reads reach the stream, and the stacks differ in nothing but their stocks afterwards. A raw
read of no bytes gives the stock up and does nothing else, so it can stand anywhere. -/
namespace Readahead

theorem clearGrain (ahead : Ahead) : ahead.clear.grain = ahead.grain := by
  cases ahead <;> rfl

theorem dropClear (ahead : Ahead) (n : Nat) : (ahead.drop n).clear = ahead.clear := by
  cases ahead <;> rfl

theorem Stock.readyDecode {s : Stock} {window : Bytes} (covers : s.Covers window) {n : Nat}
    (ready : n ≤ s.count) : s.scalars.take n = (Utf8.decode window).scalars.take n := by
  have whole := congrArg Utf8.Decoding.scalars (coversDecode covers)
  rw [whole, List.take_append_of_le_length ready]

namespace Scanner

variable {s t : Scanner}

theorem alikeBuffer (same : s.forget = t.forget) : s.buffer = t.buffer := (Scanner.mk.inj same).1

theorem alikeClear (same : s.forget = t.forget) : s.ahead.clear = t.ahead.clear :=
  (Scanner.mk.inj same).2.1

theorem alikeGrain (same : s.forget = t.forget) : s.ahead.grain = t.ahead.grain := by
  rw [← clearGrain, alikeClear same, clearGrain]

theorem readySame (fit : s.Fit) (fit' : t.Fit) (same : s.forget = t.forget) {n : Nat}
    (ready : n ≤ s.items.length) (ready' : n ≤ t.items.length) :
    s.items.take n = t.items.take n ∧ s.ahead.extent n = t.ahead.extent n := by
  have grain := alikeGrain same
  have window : s.window = t.window := congrArg Buffer.window (alikeBuffer same)
  have spells := fit.ahead
  have spells' := fit'.ahead
  unfold items at ready ready' ⊢
  cases grained : s.ahead with
  | bytes =>
    cases grained' : t.ahead with
    | bytes => exact ⟨by rw [window], rfl⟩
    | scalars stock' => rw [grained, grained'] at grain; contradiction
  | scalars stock =>
    cases grained' : t.ahead with
    | bytes => rw [grained, grained'] at grain; contradiction
    | scalars stock' =>
      rw [grained] at spells ready
      rw [grained'] at spells' ready'
      simp only [Ahead.items, List.length_map] at ready ready'
      have taken : stock.scalars.take n = stock'.scalars.take n := by
        rw [Stock.readyDecode spells ready, Stock.readyDecode spells' ready', window]
      simp only [Ahead.items, Ahead.extent, ← List.map_take, taken, and_self]

theorem consumeAlike (fit : s.Fit) (fit' : t.Fit) (same : s.forget = t.forget) {n : Nat}
    (ready : n ≤ s.items.length) (ready' : n ≤ t.items.length) :
    (s.consume n).forget = (t.consume n).forget := by
  obtain ⟨taken, extent⟩ := readySame fit fit' same ready ready'
  obtain ⟨buffer, clear, progress⟩ := Scanner.mk.inj same
  have units : s.units n = t.units n := congrArg (List.map Item.spelling) taken
  have recorded : s.ahead.record s.window n s.progress = t.ahead.record t.window n t.progress := by
    rw [recordsUnits fit, recordsUnits fit', units, progress]
  simp only [forget, consume, dropClear, recorded, extent, buffer, clear]

theorem consumeBytesAlike (same : s.forget = t.forget) (bytes : Bytes) :
    (s.consumeBytes bytes).forget = (t.consumeBytes bytes).forget := by
  obtain ⟨buffer, clear, progress⟩ := Scanner.mk.inj same
  simp only [forget, consumeBytes, buffer, clear, progress]

end Scanner

namespace Mounted

structure Alike (m k : Mounted) : Prop where
  left : m.Fit
  right : k.Fit
  scanner : m.scanner.forget = k.scanner.forget
  below : m.below.forget = k.below.forget

variable {m k : Mounted}

theorem alikeProspect (alike : m.Alike k) : m.prospect = k.prospect := by
  have buffer := Scanner.alikeBuffer alike.scanner
  have progress := (Scanner.mk.inj alike.scanner).2.2
  have front : m.front = k.front := by
    rw [Mounted.front, Mounted.front, buffer, ← Reader.frontForget, alike.below,
      Reader.frontForget]
  simp only [prospect, Scanner.capacity, Scanner.alikeGrain alike.scanner, buffer, front, progress]

theorem alikeFeed (alike : m.Alike k) : m.feed.forget = k.feed.forget := by
  simp only [feed, Feed.forget, Scanner.alikeBuffer alike.scanner, alike.below]

theorem reachBytesAlike (alike : m.Alike k) (n : Nat) :
    Run.Alike Alike (m.reachBytes n) (k.reachBytes n) := by
  obtain ⟨result, state, events⟩ := Feed.gatherAlike (alikeFeed alike) n
  obtain ⟨buffer, below⟩ := Feed.mk.inj state
  obtain ⟨_, clear, progress⟩ := Scanner.mk.inj alike.scanner
  refine ⟨result, ⟨chainFit (reachBytesChain n m) alike.left,
    chainFit (reachBytesChain n k) alike.right, ?_, below⟩, events⟩
  simp only [Scanner.forget, reachBytes, Run.within, withFeed, buffer, clear, progress]

theorem reachAlike (alike : m.Alike k) (n : Nat) : Run.Alike Alike (m.reach n) (k.reach n) := by
  have left := chainFit (reachChain n m) alike.left
  have right := chainFit (reachChain n k) alike.right
  have grain := Scanner.alikeGrain alike.scanner
  obtain ⟨_, _, progress⟩ := Scanner.mk.inj alike.scanner
  unfold reach at left right ⊢
  cases grained : m.scanner.ahead with
  | bytes =>
    cases grained' : k.scanner.ahead with
    | bytes => exact reachBytesAlike alike n
    | scalars stock' => rw [grained, grained'] at grain; contradiction
  | scalars stock =>
    cases grained' : k.scanner.ahead with
    | bytes => rw [grained, grained'] at grain; contradiction
    | scalars stock' =>
      rw [grained] at left
      rw [grained'] at right
      have offset : m.scanner.place.offset = k.scanner.place.offset := by
        rw [Scanner.place, Scanner.place, progress]
      have ahead : (m.lookahead stock).Alike (k.lookahead stock') :=
        ⟨lookaheadFit alike.left grained, lookaheadFit alike.right grained', alikeFeed alike, offset⟩
      obtain ⟨result, state, events⟩ := Lookahead.gatherAlike ahead n
      obtain ⟨buffer, below⟩ := Feed.mk.inj state.feed
      refine ⟨result, ⟨left, right, ?_, below⟩, events⟩
      simp only [Scanner.forget, Run.within, withLookahead, Ahead.clear, buffer, progress]

theorem yieldsAlike {α : Type} {r s : Run Mounted α} {t u : Turn α} (one : m.Yields r t)
    (other : k.Yields s u) (turns : t = u) : r.result = s.result := by
  rw [one.result, other.result, turns]

theorem lookAlike (alike : m.Alike k) (n : Nat) : Run.Alike Alike (m.look n) (k.look n) := by
  have told := yieldsAlike (lookYields alike.left n) (lookYields alike.right n)
    (by rw [alikeProspect alike])
  unfold look at told ⊢
  split
  · exact alikeStill rfl alike
  · rename_i positive
    simp only [if_neg positive] at told
    exact alikeTold (reachAlike alike n) told

theorem skipAlike (alike : m.Alike k) (n : Nat) : Run.Alike Alike (m.skip n) (k.skip n) := by
  have reached := reachAlike alike n
  unfold skip
  split
  · exact alikeStill rfl alike
  refine alikeThen reached ?_
  cases verdict : (m.reach n).result with
  | error fault => exact alikeStill rfl reached.state
  | ok _ =>
    have ready := reachReady alike.left verdict
    have ready' := reachReady alike.right (reached.result.symm.trans verdict)
    obtain ⟨left, right, scanner, below⟩ := reached.state
    refine alikeStill rfl ⟨⟨?_, left.below⟩, ⟨?_, right.below⟩, ?_, below⟩
    · exact (Scanner.consumeSpends left.scanner ready).fit
    · exact (Scanner.consumeSpends right.scanner ready').fit
    · exact Scanner.consumeAlike left.scanner right.scanner scanner ready ready'

theorem nextAlike (alike : m.Alike k) : Run.Alike Alike m.next k.next := by
  have looked := lookAlike alike 1
  refine alikeThen looked ?_
  cases (m.look 1).result with
  | error fault => exact alikeStill rfl looked.state
  | ok item => exact alikeMap _ (skipAlike looked.state 1)

theorem takeAlike (alike : m.Alike k) (n : Nat) : Run.Alike Alike (m.take n) (k.take n) := by
  induction n generalizing m k with
  | zero => exact alikeStill rfl alike
  | succ n ih =>
    have first := nextAlike alike
    refine alikeThen first ?_
    cases m.next.result with
    | none => exact alikeStill rfl first.state
    | some item => exact alikeMap _ (ih first.state)

theorem meetsBytesAlike (alike : m.Alike k) (bytes : Bytes) :
    Run.Alike Alike (m.meetsBytes bytes) (k.meetsBytes bytes) := by
  have told := yieldsAlike (meetsBytesYields alike.left bytes) (meetsBytesYields alike.right bytes)
    (by rw [alikeProspect alike])
  unfold meetsBytes at told ⊢
  split
  · exact alikeStill rfl alike
  · rename_i some
    simp only [if_neg some] at told
    exact alikeTold (reachBytesAlike alike bytes.length) told

theorem meetsAlike (alike : m.Alike k) (text : Utf8.Text) :
    Run.Alike Alike (m.meets text) (k.meets text) := by
  have told := yieldsAlike (meetsYields alike.left text) (meetsYields alike.right text)
    (by rw [alikeProspect alike])
  unfold meets at told ⊢
  rw [Scanner.alikeGrain alike.scanner] at told ⊢
  cases grain : k.scanner.ahead.grain with
  | bytes => exact meetsBytesAlike alike _
  | scalars =>
    rw [grain] at told
    dsimp only at told ⊢
    split
    · exact alikeStill rfl alike
    · rename_i some
      simp only [if_neg some] at told
      exact alikeTold (reachAlike alike text.length) told

theorem skipIfAlike {n : Nat} {test check : Run Mounted Bool} (tested : Run.Alike Alike test check) :
    Run.Alike Alike (skipIf n test) (skipIf n check) := by
  refine alikeThen tested ?_
  cases test.result with
  | false => exact alikeStill rfl tested.state
  | true => exact alikeMap _ (skipAlike tested.state n)

theorem acceptAlike (alike : m.Alike k) (text : Utf8.Text) :
    Run.Alike Alike (m.accept text) (k.accept text) := by
  have met := meetsAlike alike text
  unfold accept
  rw [Scanner.alikeGrain alike.scanner]
  cases k.scanner.ahead.grain with
  | bytes => exact skipIfAlike met
  | scalars => exact skipIfAlike met

theorem acceptBytesAlike (alike : m.Alike k) (bytes : Bytes) :
    Run.Alike Alike (m.acceptBytes bytes) (k.acceptBytes bytes) := by
  have met := meetsBytesAlike alike bytes
  unfold acceptBytes
  rw [Scanner.alikeGrain alike.scanner]
  cases k.scanner.ahead.grain with
  | bytes => exact skipIfAlike met
  | scalars =>
    cases Utf8.text? bytes with
    | some text => exact acceptAlike alike text
    | none =>
      refine alikeThen met ?_
      cases passed : (m.meetsBytes bytes).result with
      | false => exact alikeStill rfl met.state
      | true =>
        have seen := meetsBytesSeen passed
        have seen' := meetsBytesSeen (met.result.symm.trans passed)
        obtain ⟨left, right, scanner, below⟩ := met.state
        refine alikeStill rfl ⟨⟨?_, left.below⟩, ⟨?_, right.below⟩, ?_, below⟩
        · exact (Scanner.consumeBytesSpends left.scanner seen).fit
        · exact (Scanner.consumeBytesSpends right.scanner seen').fit
        · exact Scanner.consumeBytesAlike scanner bytes

theorem serveAlike (alike : m.Alike k) (query : Query) :
    Run.Alike Alike (m.serve query) (k.serve query) := by
  have progress := (Scanner.mk.inj alike.scanner).2.2
  cases query with
  | peek => exact alikeMap (fun seen => Finding.item seen.toOption) (lookAlike alike 1)
  | peekAt n => exact alikeMap (fun seen => Finding.item seen.toOption) (lookAlike alike n)
  | look n => exact alikeMap _ (lookAlike alike n)
  | next => exact alikeMap _ (nextAlike alike)
  | skip n => exact alikeMap _ (skipAlike alike n)
  | atEnd => exact alikeMap _ (alikeMap _ (lookAlike alike 1))
  | take n => exact alikeMap _ (takeAlike alike n)
  | meets text => exact alikeMap _ (meetsAlike alike text)
  | meetsBytes bytes => exact alikeMap _ (meetsBytesAlike alike bytes)
  | accept text => exact alikeMap _ (acceptAlike alike text)
  | acceptBytes bytes => exact alikeMap _ (acceptBytesAlike alike bytes)
  | lineText => exact alikeStill (by rw [Scanner.line, Scanner.line, progress]) alike
  | place => exact alikeStill (by rw [Scanner.place, Scanner.place, progress]) alike

end Mounted

namespace Reader

theorem forgetTwice (r : Reader) : r.forget.forget = r.forget := by
  induction r with
  | script s => rfl
  | scanner s below ih => simp only [forget, ih, Scanner.forget, clearTwice]
  | remainder pending below ih => simp only [forget, ih]

theorem readNothingForgets (r : Reader) : (r.read 0).reader.forget = r.forget := by
  induction r with
  | script s => rfl
  | scanner s below ih =>
    have asked : s.buffer.demand 0 = none := if_neg fun need => Nat.not_lt_zero _ need.1
    have buffer := (deliverBuffer s 0 none).2
    have answer := (deliverBuffer s 0 none).1
    have progress := deliverProgress s 0 none
    rw [deliverNothing] at buffer answer
    rw [answer] at progress
    simp only [read, asked, forget, Scanner.forget, deliverAhead, clearTwice, buffer, progress]
    rfl
  | remainder pending below ih =>
    cases pending with
    | nil => exact congrArg (Reader.remainder []) ih
    | cons b pending => rfl

end Reader

def Response.forget : Response → Response
  | .inner reader => .inner (reader.map Reader.forget)
  | response => response

def Outcome.without (hidden : Note → Bool) (o : Outcome) : Outcome :=
  ⟨o.response.forget, o.top.forget, o.reads, o.notes.filter fun note => !hidden note⟩

namespace Session

theorem readsOutside (events : List Event) (depth : Nat) :
    (outside events).filterMap (Event.atDepth depth) = events.filterMap (Event.atDepth depth) := by
  rw [outside, List.filterMap_filter]
  congr 1
  funext event
  cases event with
  | pull own beneath => rfl
  | note n => cases n <;> rfl

theorem notesOutside (events : List Event) : (outside events).filterMap Event.note? =
    (events.filterMap Event.note?).filter fun note => !note.ofPass := by
  rw [outside, List.filterMap_filter, List.filter_filterMap]
  congr 1
  funext event
  cases event with
  | pull own beneath => rfl
  | note n => cases n <;> rfl

theorem ofQueryAlike {below left : Reader} (beneath : below.forget = left.forget)
    {r s : Run Mounted Finding} (alike : Run.Alike Mounted.Alike r s) :
    (ofQuery below r).without Note.ofPass = (ofQuery left s).without Note.ofPass := by
  obtain ⟨result, state, events⟩ := alike
  have depth : below.depth = left.depth := by
    rw [← Reader.depthForget, beneath, Reader.depthForget]
  have reads := congrArg (List.filterMap (Event.atDepth left.depth)) events
  have notes := congrArg (List.filterMap Event.note?) events
  rw [readsOutside, readsOutside] at reads
  rw [notesOutside, notesOutside] at notes
  simp only [ofQuery, Outcome.without, Response.forget, Reader.forget, result, state.scanner,
    state.below, depth, reads, notes]

theorem ofReadsForgets (top : Reader) (r : Run Reader Response) (hidden : Note → Bool) :
    (ofReads top.forget (r.within Reader.forget)).without hidden =
      (ofReads top r).without hidden := by
  simp only [ofReads, Outcome.without, Run.within, Reader.forgetTwice, Reader.depthForget]

theorem performForgets (top : Reader) {request : Request}
    (other : ∀ query, request ≠ .ask query) (hidden : Note → Bool) :
    (perform top.forget request).without hidden = (perform top request).without hidden := by
  cases request with
  | ask query => exact absurd rfl (other query)
  | read n =>
    have pulled := ofReadsForgets top ((top.pull n).map .read) hidden
    rw [← Run.withinMap, ← Reader.pullForgets] at pulled
    exact pulled
  | exactly n =>
    have read := ofReadsForgets top ((top.exactly n).map .exactly) hidden
    rw [← Run.withinMap, ← Reader.exactlyForgets] at read
    exact read
  | drain n =>
    have read := ofReadsForgets top ((top.drain n).map .drained) hidden
    rw [← Run.withinMap, ← Reader.drainForgets] at read
    exact read
  | wrap grain settings =>
    simp only [perform, plain, start, Outcome.without, Reader.forget, Reader.forgetTwice]
  | inner =>
    cases top <;> simp only [perform, plain, Outcome.without, Response.forget, Reader.forget,
      Reader.below?, Reader.forgetTwice, Option.map_some, Option.map_none, Scanner.forget,
      clearTwice]
  | retire =>
    cases top <;> simp only [perform, plain, Outcome.without, Response.forget, Reader.forget,
      Mounted.retire, Scanner.window, Reader.forgetTwice, Scanner.forget]
  | split =>
    cases top <;> simp only [perform, plain, Outcome.without, Response.forget, Reader.forget,
      Reader.forgetTwice, Scanner.forget, clearTwice]

theorem performAlike {top other : Reader} (fit : top.Fit) (fit' : other.Fit)
    (same : top.forget = other.forget) (request : Request) :
    (perform top request).without Note.ofPass = (perform other request).without Note.ofPass := by
  by_cases asked : ∃ query, request = .ask query
  · obtain ⟨query, rfl⟩ := asked
    cases top with
    | script s =>
      cases other with
      | script t => exact congrArg (fun r => (plain .refused r).without Note.ofPass) same
      | scanner t left => contradiction
      | remainder pending left => contradiction
    | scanner s below =>
      cases other with
      | script t => contradiction
      | scanner t left =>
        obtain ⟨scanner, beneath⟩ := Reader.scanner.inj same
        have alike : (Mounted.mk s below).Alike ⟨t, left⟩ :=
          ⟨⟨fit.1, fit.2⟩, ⟨fit'.1, fit'.2⟩, scanner, beneath⟩
        exact ofQueryAlike beneath (Mounted.serveAlike alike query)
      | remainder pending left => contradiction
    | remainder pending below =>
      cases other with
      | script t => contradiction
      | scanner t left => contradiction
      | remainder rest left => exact congrArg (Outcome.mk .refused · [] []) same
  · have idle : ∀ query, request ≠ .ask query := fun query told => asked ⟨query, told⟩
    rw [← performForgets top idle, same, performForgets other idle]

theorem runAlike {top other : Reader} (fit : top.Fit) (fit' : other.Fit)
    (same : top.forget = other.forget) (requests : List Request) :
    (run top requests).map (·.without Note.ofPass) =
      (run other requests).map (·.without Note.ofPass) := by
  induction requests generalizing top other with
  | nil => rfl
  | cons request rest ih =>
    have first := performAlike fit fit' same request
    have tops : (perform top request).top.forget = (perform other request).top.forget :=
      congrArg Outcome.top first
    simp only [run, List.map_cons, first, ih (performFit fit request) (performFit fit' request) tops]

theorem runIdle {top : Reader} (fit : top.Fit) (earlier later : List Request) :
    ((run top (earlier ++ .read 0 :: later)).map (·.without Note.ofPass)).eraseIdx earlier.length =
      (run top (earlier ++ later)).map (·.without Note.ofPass) := by
  have here := lastFit fit earlier
  have rest := runAlike (performFit here (.read 0)) here
    (Reader.readNothingForgets (last top earlier)) later
  rw [runAppend, runAppend, List.map_append, List.map_append, List.eraseIdx_append_of_length_le,
    List.length_map, runLength, Nat.sub_self, run, List.map_cons, List.eraseIdx_cons_zero, rest]
  exact Nat.le_of_eq (by rw [List.length_map, runLength])

theorem forgetFit {s : Scanner} {below : Reader} (fit : (Reader.scanner s below).Fit) :
    (Reader.scanner s.forget below).Fit := ⟨⟨fit.1.buffer, clearSpells _ _⟩, fit.2⟩

/- Whatever a scanner is asked and whatever is read from it, its stock matters only to what the
passes report: how much they found, and an invalid sequence that they came upon again. -/
theorem stockUnseen {s : Scanner} {below : Reader} (reachable : Reachable (.scanner s below)) :
    (∀ requests, (run (.scanner s below) requests).map (·.without Note.ofPass) =
      (run (.scanner s.forget below) requests).map (·.without Note.ofPass)) ∧
    ∀ earlier later,
      ((run (.scanner s below) (earlier ++ .read 0 :: later)).map
          (·.without Note.ofPass)).eraseIdx earlier.length =
        (run (.scanner s below) (earlier ++ later)).map (·.without Note.ofPass) := by
  have fit := reachableFit reachable
  refine ⟨fun requests => ?_, runIdle fit⟩
  refine runAlike fit (forgetFit fit) ?_ requests
  simp only [Reader.forget, Scanner.forget, clearTwice]

def ready : Scanner :=
  ⟨⟨[0x61, 0xFF, 0, 0], 4, 0, 2, .flowing⟩, .scalars ⟨[⟨'a', 1⟩], 1⟩, .start⟩

def dry : Reader := .script ⟨[], none, none⟩

theorem readyReachable : Reachable (.scanner ready dry) := by
  have looked : (perform (start .scalars ⟨4⟩ (.script ⟨[.data [0x61, 0xFF]], none, none⟩))
      (.ask .peek)).top = .scanner ready dry := by decide
  rw [← looked]
  exact .performed (reachableStart (.stream _) _ _) _

theorem stockUnseenReady :
    Reachable (.scanner ready dry) ∧
      (∀ requests, (run (.scanner ready dry) requests).map (·.without Note.ofPass) =
        (run (.scanner ready.forget dry) requests).map (·.without Note.ofPass)) ∧
      ∀ earlier later,
        ((run (.scanner ready dry) (earlier ++ .read 0 :: later)).map
            (·.without Note.ofPass)).eraseIdx earlier.length =
          (run (.scanner ready dry) (earlier ++ later)).map (·.without Note.ofPass) :=
  ⟨readyReachable, stockUnseen readyReachable⟩

/- The stock saves the pass that would come upon the second byte and report it. -/
theorem invalidReportedAgain :
    ¬∀ (s : Scanner) (below : Reader) (requests : List Request), Reachable (.scanner s below) →
      (run (.scanner s below) requests).map (·.without Note.ofCount) =
        (run (.scanner s.forget below) requests).map (·.without Note.ofCount) := by
  intro unseen
  have same := unseen ready dry [.ask .peek] readyReachable
  have notes := congrArg (List.map Outcome.notes) same
  exact absurd notes (by decide)

end Session
end Readahead
