import Readahead.Proofs.FailureRecurs

/-! Reads are few. A scanner reads on only at moments at which the request fits the capacity, the
reader beneath may have more, and the window leaves the request open. What the scanner alone can
answer is answered unread, and to consume what was shown or found takes no read.

Nothing is said of the bytes that a test compares: it asks for all of them before it compares any,
so one that is bound to fail may read. -/
namespace Readahead

def Run.reads {σ α : Type} (r : Run σ α) : List Exchange := r.trace.filterMap (Event.atDepth 0)

/-- The window leaves a request for `n` items open: it holds too few bytes, or it has room for more,
and is a text that is too short, up to what may be the start of one more scalar. -/
def Scanner.Open (n : Nat) (s : Scanner) : Prop :=
  match s.ahead.grain with
  | .bytes => s.window.length < n
  | .scalars => s.window.length < s.capacity ∧ ∃ text tail,
      s.window = Utf8.encode text ++ tail ∧ text.length < n ∧ Utf8.Opens tail

namespace Mounted

/-- A moment of a run, after these events: the state the scanner has come to, with all it was handed
in its window, and that the read which comes next is of the reader beneath it. -/
structure Moment (m : Mounted) (before : List Event) (own : Exchange) (beneath : List Exchange)
    (k : Mounted) : Prop where
  steps : Chain Step m before k
  window : k.scanner.window = m.scanner.window ++ handed before 0
  read : (k.below.pull own.offered).trace = [.pull own beneath]

def ReadsWhile (m : Mounted) (wanted : Mounted → Prop) (events : List Event) : Prop :=
  ∀ before own beneath after, events = before ++ .pull own beneath :: after →
    ∃ k, m.Moment before own beneath k ∧ wanted k

structure Awaits (n : Nat) (m : Mounted) : Prop where
  fits : n ≤ m.scanner.capacity
  flowing : m.scanner.buffer.phase = .flowing
  undecided : m.scanner.Open n

def Settled {α : Type} (m : Mounted) (ask : Mounted → Run Mounted α) : Prop :=
  ∃ answer, ∀ below, Session.Reachable below → (ask ⟨m.scanner, below⟩).result = answer

variable {m k : Mounted} {n : Nat}

theorem wantsAwaits (wants : m.Wants n) : m.Awaits n := by
  refine ⟨wants.fits, wants.flowing, ?_⟩
  have lacks := wants.lacks
  unfold Scanner.Lacks at lacks
  unfold Scanner.Open
  split
  · rename_i grained
    rw [grained] at lacks
    exact lacks
  · rename_i grained
    rw [grained] at lacks
    obtain ⟨room, short, sound⟩ := lacks
    refine ⟨room, _, _, Utf8.decodeParts _, ?_, ?_⟩
    · rw [Utf8.text, List.length_map]
      exact short
    · exact Utf8.opensUnless fun shut => sound ((Utf8.restTells _).1.mpr shut)

theorem chainWindow {events : List Event} (chain : Chain Step m events k) (fit : m.Fit) :
    k.scanner.window = m.scanner.window ++ handed events 0 :=
  (movesWindow (chainMoves chain fit)).1.symm

theorem needingReads {wanted : Mounted → Prop} {events : List Event} (fit : m.Fit)
    (chain : Chain (Needing Step wanted) m events k) : m.ReadsWhile wanted events := by
  intro before own beneath after parts
  obtain ⟨j, u, rest, steps, step, read⟩ := readAround (fun step => stepOnce step.1) chain parts
  have reached : Chain Step m before j :=
    steps.lift id (fun _ => True) (fun _ _ _ _ step => ⟨trivial, step.1⟩) trivial
  exact ⟨j, ⟨reached, chainWindow reached fit, read⟩, step.2 (List.cons_ne_nil _ _)⟩

theorem readsWanted {wanted wider : Mounted → Prop} {events : List Event}
    (reads : m.ReadsWhile wanted events) (more : ∀ k, wanted k → wider k) :
    m.ReadsWhile wider events := by
  intro before own beneath after parts
  obtain ⟨k, moment, want⟩ := reads before own beneath after parts
  exact ⟨k, moment, more k want⟩

theorem reachReads (fit : m.Fit) (n : Nat) : m.ReadsWhile (Awaits n) (m.reach n).trace :=
  readsWanted (needingReads fit (reachNeeds n fit)) fun _ => wantsAwaits

theorem meetsBytesReads (fit : m.Fit) (bytes : Bytes) :
    m.ReadsWhile (fun k => k.feed.Wants bytes.length) (m.meetsBytes bytes).trace := by
  unfold meetsBytes
  split
  · intro before own beneath after parts
    exact absurd parts.symm (List.append_ne_nil_of_right_ne_nil before (List.cons_ne_nil _ _))
  · rw [Run.andThenTrace, Run.still, List.append_nil]
    exact needingReads fit (reachBytesNeeds bytes.length fit)

theorem meetsBytesUnread (fit : m.Fit) {bytes : Bytes} (unwanted : ¬m.feed.Wants bytes.length) :
    (m.meetsBytes bytes).reads = [] := by
  unfold meetsBytes
  split
  · rfl
  · rw [Run.reads, Run.andThenTrace, Run.still, List.append_nil]
    exact Feed.gatherUnread (feedFit fit) unwanted

theorem readyUnwanted (fit : m.Fit) (ready : n ≤ m.scanner.items.length) : ¬m.Wants n := by
  intro wants
  have lacks := wants.lacks
  unfold Scanner.Lacks at lacks
  unfold Scanner.items at ready
  cases grained : m.scanner.ahead with
  | bytes =>
    rw [grained, Ahead.items, List.length_map] at ready
    rw [grained] at lacks
    exact Nat.not_lt.mpr ready lacks
  | scalars stock =>
    rw [grained, Ahead.items, List.length_map] at ready
    rw [grained] at lacks
    have decoded := congrArg Utf8.Decoding.scalars
      (Stock.coversDecode (lookaheadFit fit grained).stock)
    change (Utf8.decode m.scanner.window).scalars = stock.scalars ++ _ at decoded
    have short := lacks.2.1
    rw [decoded, List.length_append] at short
    omega

theorem readyUnread (fit : m.Fit) (ready : n ≤ m.scanner.items.length) : (m.skip n).reads = [] :=
  skipUnread fit (readyUnwanted fit ready)

theorem lookReady (fit : m.Fit) {item : Item} (seen : (m.look n).result = .ok item) :
    n ≤ (m.look n).state.scanner.items.length := by
  unfold look at seen ⊢
  split
  · rename_i none
    rw [none]
    exact Nat.zero_le _
  rename_i positive
  rw [if_neg positive, Run.andThenResult] at seen
  cases verdict : (m.reach n).result with
  | error fault =>
    rw [verdict] at seen
    contradiction
  | ok _ => exact reachReady fit verdict

theorem nextReads (fit : m.Fit) : m.next.reads = (m.look 1).reads := by
  have further := (lookYields fit 1).fit
  rw [Run.reads, next, Run.andThenTrace, List.filterMap_append]
  cases seen : (m.look 1).result with
  | error fault => exact List.append_nil _
  | ok item =>
    have unread : ((m.look 1).state.skip 1).reads = [] := readyUnread further (lookReady fit seen)
    change _ ++ ((m.look 1).state.skip 1).reads = _
    rw [unread, List.append_nil]
    rfl

theorem skipIfReads {test : Run Mounted Bool} (fit : test.state.Fit)
    (ready : test.result = true → n ≤ test.state.scanner.items.length) :
    (skipIf n test).reads = test.reads := by
  rw [Run.reads, skipIf, Run.andThenTrace, List.filterMap_append]
  cases passed : test.result with
  | false => exact List.append_nil _
  | true =>
    change _ ++ (test.state.skip n).reads = _
    rw [readyUnread fit (ready passed), List.append_nil]
    rfl

theorem meetsBytesReady (fit : m.Fit) (grained : m.scanner.ahead.grain = .bytes) {bytes : Bytes}
    (met : (m.meetsBytes bytes).result = true) :
    bytes.length ≤ (m.meetsBytes bytes).state.scanner.items.length := by
  have extended : m.Extends (m.serve (.meetsBytes bytes)).state := serveExtends fit rfl
  have same : (m.meetsBytes bytes).state.scanner.ahead.grain = .bytes :=
    extended.grain.trans grained
  have seen := (meetsBytesSeen met).length_le
  rw [Scanner.items]
  cases ahead : (m.meetsBytes bytes).state.scanner.ahead with
  | bytes =>
    rw [Ahead.items, List.length_map]
    exact seen
  | scalars stock =>
    rw [ahead] at same
    contradiction

theorem meetsReady {text : Utf8.Text} (grained : m.scanner.ahead.grain = .scalars)
    (met : (m.meets text).result = true) :
    text.length ≤ (m.meets text).state.scanner.items.length := by
  unfold meets at met ⊢
  rw [grained] at met ⊢
  simp only at met ⊢
  split
  · rename_i empty
    rw [List.isEmpty_iff.mp empty]
    exact Nat.zero_le _
  · rename_i some
    rw [if_neg some] at met
    have seen := List.isPrefixOf_iff_prefix.mp (Bool.and_eq_true _ _ ▸ met).2
    have short := seen.length_le
    rw [List.length_map] at short
    exact short

theorem acceptReads (fit : m.Fit) (text : Utf8.Text) :
    (m.accept text).reads = (m.meets text).reads := by
  have further := (meetsYields fit text).fit
  unfold accept
  cases grained : m.scanner.ahead.grain with
  | bytes =>
    have same : m.meets text = m.meetsBytes (Utf8.encode text) := by rw [meets, grained]
    rw [same] at further ⊢
    exact skipIfReads further (meetsBytesReady fit grained)
  | scalars => exact skipIfReads further (meetsReady grained)

theorem acceptBytesReads (fit : m.Fit) (bytes : Bytes) : (m.acceptBytes bytes).reads =
    match m.scanner.ahead.grain, Utf8.text? bytes with
    | .scalars, some text => (m.meets text).reads
    | _, _ => (m.meetsBytes bytes).reads := by
  have further := (meetsBytesYields fit bytes).fit
  unfold acceptBytes
  cases grained : m.scanner.ahead.grain with
  | bytes => exact skipIfReads further (meetsBytesReady fit grained)
  | scalars =>
    cases Utf8.text? bytes with
    | some text => exact acceptReads fit text
    | none =>
      rw [Run.reads, Run.andThenTrace]
      exact congrArg _ (List.append_nil _)

end Mounted

def Script.failing (kind : FailureKind) : Script := ⟨[], none, some (.ofKind kind)⟩

namespace Mounted

variable {m : Mounted} {n : Nat}

theorem wantsFails (fit : m.Fit) (wants : m.Wants n) (kind : FailureKind) :
    let k : Mounted := ⟨m.scanner, .script (.failing kind)⟩
    k.prospect.items.length < n ∧ k.prospect.refusal n = .stream kind := by
  intro k
  obtain ⟨fits, flowing, lacks⟩ := wants
  have front : k.prospect.front = ⟨m.scanner.window, .failed kind⟩ := by
    change m.scanner.buffer.front _ = _
    rw [Buffer.front, flowing]
    exact congrArg (Front.mk · _) (List.append_nil _)
  have sight : k.prospect.sight = m.scanner.window := by
    rw [Prospect.sight, front]
    exact List.take_of_length_le (Buffer.windowBounded fit.scanner.buffer)
  unfold Scanner.Lacks at lacks
  cases grained : m.scanner.ahead.grain with
  | bytes =>
    have grain : k.prospect.grain = .bytes := grained
    rw [grained] at lacks
    rw [Prospect.byteItems grain, List.length_map, sight]
    have live : k.prospect.spent = false := by
      change decide (_ ∧ m.scanner.buffer.phase = .spent) = false
      rw [flowing]
      simp
    refine ⟨lacks, ?_⟩
    rw [Prospect.refusal, grain, live]
    change (if m.scanner.capacity < n then _ else _) = _
    rw [if_neg (Nat.not_lt.mpr fits), front]
    rfl
  | scalars =>
    have grain : k.prospect.grain = .scalars := grained
    rw [grained] at lacks
    obtain ⟨room, short, sound⟩ := lacks
    rw [Prospect.scalarItems grain, Prospect.scalarRefusal grain fits, sight, Utf8.text,
      List.length_map]
    refine ⟨short, ?_⟩
    have shut := fun shut => sound ((Utf8.restTells m.scanner.window).1.mpr shut)
    rw [Front.refusal, if_neg shut, front]
    exact if_neg (Nat.not_le.mpr room)

theorem answerUnsettled {α : Type} {ask : Mounted → Run Mounted (Except Fault α)}
    (fails : ∀ kind, (ask ⟨m.scanner, .script (.failing kind)⟩).result = .error (.stream kind)) :
    ¬m.Settled ask := by
  rintro ⟨answer, settled⟩
  have told := fun kind => (fails kind).symm.trans (settled _ (.stream (.failing kind)))
  have same := (told .brokenPipe).trans (told .timedOut).symm
  exact absurd same (by simp)

theorem settledUnwanted (fit : m.Fit) (positive : 0 < n)
    (settled : m.Settled (look n) ∨ m.Settled (skip n)) : ¬m.Wants n := by
  intro wants
  have fits kind : (Mounted.mk m.scanner (.script (.failing kind))).Fit := ⟨fit.scanner, trivial⟩
  have short kind := (wantsFails fit wants kind).1
  have refusal kind := (wantsFails fit wants kind).2
  refine settled.elim (answerUnsettled fun kind => ?_) (answerUnsettled fun kind => ?_)
  · rw [(lookYields (fits kind) n).result]
    exact (Prospect.lookRefused (Nat.ne_of_gt positive)).mpr ⟨short kind, refusal kind⟩
  · rw [(skipYields (fits kind) n).result, Prospect.skipRefused (short kind), refusal kind]

/- For every state and every reader beneath. A test of bytes is bound to ask for all of them. -/
theorem readsNeeded (reachable : Session.Reachable m.reader) :
    (∀ n, 0 < n →
      m.ReadsWhile (Awaits n) (m.look n).trace ∧ m.ReadsWhile (Awaits n) (m.skip n).trace ∧
      (m.Settled (look n) ∨ m.scanner.capacity < n → (m.look n).reads = []) ∧
      (m.Settled (skip n) ∨ m.scanner.capacity < n → (m.skip n).reads = [])) ∧
    (∀ bytes,
      m.ReadsWhile (fun k => k.feed.Wants bytes.length) (m.meetsBytes bytes).trace ∧
      (bytes.length ≤ m.scanner.window.length ∨ m.scanner.capacity < bytes.length →
        (m.meetsBytes bytes).reads = [])) ∧
    m.next.reads = (m.look 1).reads ∧
    (∀ text, (m.accept text).reads = (m.meets text).reads) ∧
    ∀ bytes, (m.acceptBytes bytes).reads =
      match m.scanner.ahead.grain, Utf8.text? bytes with
      | .scalars, some text => (m.meets text).reads
      | _, _ => (m.meetsBytes bytes).reads := by
  have fit := readerFit (Session.reachableFit reachable)
  refine ⟨fun n positive => ⟨?_, ?_, fun told => ?_, fun told => ?_⟩,
    fun bytes => ⟨meetsBytesReads fit bytes, fun told => ?_⟩, nextReads fit, acceptReads fit,
    acceptBytesReads fit⟩
  · rw [lookTrace positive]
    exact reachReads fit n
  · rw [skipTrace positive]
    exact reachReads fit n
  · refine lookUnread fit (told.elim (fun settled => ?_) fun large wants => ?_)
    · exact settledUnwanted fit positive (.inl settled)
    · exact Nat.not_lt.mpr wants.fits large
  · refine skipUnread fit (told.elim (fun settled => ?_) fun large wants => ?_)
    · exact settledUnwanted fit positive (.inr settled)
    · exact Nat.not_lt.mpr wants.fits large
  · refine meetsBytesUnread fit fun wants => told.elim (fun held => ?_) fun large => ?_
    · exact Nat.not_lt.mpr held wants.short
    · exact Nat.not_lt.mpr wants.fits large

theorem readsNeededDivided :
    let m : Mounted := ⟨.fresh .scalars 4, .script .divided⟩
    Session.Reachable m.reader ∧ m.ReadsWhile (Awaits 1) (m.look 1).trace ∧
      (m.look 1).reads.length = 3 ∧ m.next.reads = (m.look 1).reads ∧ (m.look 5).reads = [] := by
  intro m
  have reachable : Session.Reachable m.reader :=
    Session.reachableStart (.stream .divided) .scalars ⟨4⟩
  obtain ⟨asked, -, next, -, -⟩ := readsNeeded reachable
  exact ⟨reachable, (asked 1 (by decide)).1, by decide +kernel, next,
    (asked 5 (by decide)).2.2.1 (.inr (by decide))⟩

/- The byte in the window is not the first of the two that are asked for, whatever comes after it.
The second is read all the same. -/
theorem mismatchReads :
    let m : Mounted := (Mounted.look 1
      ⟨.fresh .bytes 4, .script ⟨[.data [0x78], .data [0x79]], none, none⟩⟩).state
    Session.Reachable m.reader ∧ m.scanner.window = [0x78] ∧
      m.Settled (meetsBytes [0x61, 0x62]) ∧ (m.meetsBytes [0x61, 0x62]).reads ≠ [] := by
  intro m
  have start : Session.Reachable (Mounted.mk (.fresh .bytes 4)
      (.script ⟨[.data [0x78], .data [0x79]], none, none⟩)).reader :=
    Session.reachableStart (.stream _) .bytes ⟨4⟩
  have reachable : Session.Reachable m.reader := .performed start (.ask (.look 1))
  have window : m.scanner.window = [0x78] := by decide +kernel
  refine ⟨reachable, window, ⟨false, fun below beneath => ?_⟩, by decide +kernel⟩
  let k : Mounted := ⟨m.scanner, below⟩
  have fit : k.Fit :=
    ⟨(readerFit (Session.reachableFit reachable)).scanner, Session.reachableFit beneath⟩
  have extended : k.Extends (k.serve (.meetsBytes [0x61, 0x62])).state := serveExtends fit rfl
  obtain ⟨more, longer⟩ := extended.window
  change m.scanner.window ++ more = (k.meetsBytes [0x61, 0x62]).state.scanner.window at longer
  rw [window] at longer
  refine Bool.eq_false_iff.mpr fun met => ?_
  have seen := meetsBytesSeen met
  rw [← longer] at seen
  exact absurd (List.cons_prefix_cons.mp seen).1 (by decide)

end Mounted
end Readahead
