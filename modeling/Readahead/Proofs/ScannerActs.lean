import Readahead.Proofs.LineHistory

/-! The life of a scanner, act by act. It looks ahead, it consumes units from the front of its
window, and it answers raw reads; with each act go the reads of the reader beneath and the notes it
makes. Whatever a scanner on top is asked, what happens is a chain of such acts, and what each of
them keeps is kept for life. -/
namespace Readahead

def Event.under : Event → Option Event
  | .pull _ [] => none
  | .pull _ (own :: beneath) => some (.pull own beneath)
  | .note n => some (.note n)

theorem underDepth (event : Event) (depth : Nat) :
    event.under.bind (Event.atDepth depth) = event.atDepth (depth + 1) := by
  cases event with
  | pull own beneath => cases beneath <;> rfl
  | note n => rfl

namespace Mounted

inductive Act : Mounted → List Event → Mounted → Prop where
  | look {m k : Mounted} {events : List Event} (step : Step m events k) : Act m events k
  | spend {m : Mounted} {t : Scanner} {units : List Bytes} (spends : m.scanner.Spends t units) :
      Act m [] ⟨t, m.below⟩
  | copy {m : Mounted} {n : Nat} (enough : m.scanner.buffer.demand n = none) :
      Act m [] ⟨(m.scanner.deliver n none).2, m.below⟩
  | read {m : Mounted} {n more : Nat} (asked : m.scanner.buffer.demand n = some more) :
      Act m (m.below.pull more).trace
        ⟨(m.scanner.deliver n (some (m.below.read more).answer)).2, (m.below.read more).reader⟩

variable {m k : Mounted}

theorem actFit {events : List Event} (fit : m.Fit) (act : Act m events k) : k.Fit := by
  cases act with
  | look step => exact (stepExtends fit step).1
  | spend spends => exact ⟨spends.fit, fit.below⟩
  | copy enough => exact ⟨deliverFit (Buffer.quietSound fit.scanner.buffer _), fit.below⟩
  | read asked =>
    exact ⟨deliverFit (Buffer.heardSound fit.scanner.buffer asked _), readFit fit.below _⟩

theorem actsFit {events : List Event} (fit : m.Fit) (chain : Chain Act m events k) : k.Fit :=
  chain.keeps Fit (fun _ _ _ fit act => actFit fit act) fit

def Acts {α : Type} (m : Mounted) (r : Run Mounted α) : Prop := Chain Act m r.trace r.state

/-- All that a scanner does to serve a query. It steps ahead, it consumes items that lie ready, and,
only where odd bytes are taken, it consumes bytes that its window begins with as bytes. -/
inductive Effort (odd : Prop) : Mounted → List Event → Mounted → Prop where
  | look {m k : Mounted} {events : List Event} (step : Step m events k) : Effort odd m events k
  | consume {m : Mounted} {n : Nat} (ready : n ≤ m.scanner.items.length) :
      Effort odd m [] ⟨m.scanner.consume n, m.below⟩
  | consumeBytes {m : Mounted} {bytes : Bytes} (allowed : odd)
      (ready : bytes <+: m.scanner.window) :
      Effort odd m [] ⟨m.scanner.consumeBytes bytes, m.below⟩

def Efforts {α : Type} (odd : Prop) (m : Mounted) (r : Run Mounted α) : Prop :=
  Chain (Effort odd) m r.trace r.state

variable {α β : Type} {r : Run Mounted α} {odd : Prop}

theorem effortAct {events : List Event} (fit : m.Fit) (effort : Effort odd m events k) :
    Act m events k := by
  cases effort with
  | look step => exact .look step
  | consume ready => exact .spend (Scanner.consumeSpends fit.scanner ready)
  | consumeBytes allowed ready => exact .spend (Scanner.consumeBytesSpends fit.scanner ready)

theorem effortsActs {events : List Event} (fit : m.Fit) (chain : Chain (Effort odd) m events k) :
    Chain Act m events k :=
  chain.lift id Fit (fun _ _ _ fit effort =>
    ⟨actFit fit (effortAct fit effort), effortAct fit effort⟩) fit

theorem effortsFit {events : List Event} (fit : m.Fit) (chain : Chain (Effort odd) m events k) :
    k.Fit := actsFit fit (effortsActs fit chain)

theorem lookingEfforts {events : List Event} (chain : Chain Step m events k) :
    Chain (Effort odd) m events k :=
  chain.lift id (fun _ => True) (fun _ _ _ _ step => ⟨trivial, .look step⟩) trivial

theorem effortsStill (result : α) (m : Mounted) : m.Efforts odd (.still result m) := .rest m

theorem effortsThen {next : α → Mounted → Run Mounted β} (first : m.Efforts odd r)
    (later : r.state.Efforts odd (next r.result r.state)) : m.Efforts odd (r.andThen next) :=
  first.append later

theorem effortsMap (f : α → β) (first : m.Efforts odd r) : m.Efforts odd (r.map f) := first

theorem lookEfforts (n : Nat) (m : Mounted) : m.Efforts odd (m.look n) := by
  unfold look
  split
  · exact effortsStill _ m
  · exact effortsThen (lookingEfforts (reachChain n m)) (effortsStill _ _)

theorem skipEfforts (fit : m.Fit) (n : Nat) : m.Efforts odd (m.skip n) := by
  unfold skip
  split
  · exact effortsStill _ m
  refine effortsThen (lookingEfforts (reachChain n m)) ?_
  cases verdict : (m.reach n).result with
  | error fault => exact effortsStill _ _
  | ok _ => exact Chain.one (.consume (reachReady fit verdict))

theorem nextEfforts (fit : m.Fit) : m.Efforts odd m.next := by
  have looked : m.Efforts odd (m.look 1) := lookEfforts 1 m
  refine effortsThen looked ?_
  cases (m.look 1).result with
  | error fault => exact effortsStill _ _
  | ok item => exact effortsMap _ (skipEfforts (effortsFit fit looked) 1)

theorem takeEfforts (fit : m.Fit) (n : Nat) : m.Efforts odd (m.take n) := by
  induction n generalizing m with
  | zero => exact effortsStill _ m
  | succ n ih =>
    have first : m.Efforts odd m.next := nextEfforts fit
    refine effortsThen first ?_
    cases m.next.result with
    | none => exact effortsStill _ _
    | some item => exact effortsMap _ (ih (effortsFit fit first))

theorem meetsBytesEfforts (bytes : Bytes) (m : Mounted) :
    m.Efforts odd (m.meetsBytes bytes) := by
  unfold meetsBytes
  split
  · exact effortsStill _ m
  · exact effortsThen (lookingEfforts (reachBytesChain bytes.length m)) (effortsStill _ _)

theorem meetsEfforts (text : Utf8.Text) (m : Mounted) : m.Efforts odd (m.meets text) := by
  unfold meets
  split
  · exact meetsBytesEfforts _ m
  split
  · exact effortsStill _ m
  · exact effortsThen (lookingEfforts (reachChain text.length m)) (effortsStill _ _)

theorem skipIfEfforts {n : Nat} {test : Run Mounted Bool} (fit : m.Fit)
    (tested : m.Efforts odd test) : m.Efforts odd (skipIf n test) := by
  refine effortsThen tested ?_
  cases test.result with
  | false => exact effortsStill _ _
  | true => exact effortsMap _ (skipEfforts (effortsFit fit tested) n)

theorem acceptEfforts (fit : m.Fit) (text : Utf8.Text) : m.Efforts odd (m.accept text) := by
  unfold accept
  split <;> exact skipIfEfforts fit (meetsEfforts text m)

theorem acceptBytesEfforts (fit : m.Fit) {bytes : Bytes}
    (allowed : Utf8.text? bytes = none → (m.acceptBytes bytes).result = true → odd) :
    m.Efforts odd (m.acceptBytes bytes) := by
  have met : m.Efforts odd (m.meetsBytes bytes) := meetsBytesEfforts bytes m
  unfold acceptBytes at allowed ⊢
  cases grained : m.scanner.ahead.grain with
  | bytes => exact skipIfEfforts fit met
  | scalars =>
    cases told : Utf8.text? bytes with
    | some text => exact acceptEfforts fit text
    | none =>
      rw [grained, told] at allowed
      refine effortsThen met ?_
      cases passed : (m.meetsBytes bytes).result with
      | false => exact effortsStill _ _
      | true => exact Chain.one (.consumeBytes (allowed rfl passed) (meetsBytesSeen passed))

end Mounted

def Query.Odd (query : Query) (found : Finding) : Prop :=
  ∃ bytes, query = .acceptBytes bytes ∧ Utf8.text? bytes = none ∧ found = .truth true

namespace Mounted

variable {m k : Mounted}

theorem serveEfforts (fit : m.Fit) (query : Query) :
    m.Efforts (query.Odd (m.serve query).result) (m.serve query) := by
  cases query with
  | peek => exact effortsMap (fun seen => Finding.item seen.toOption) (lookEfforts 1 m)
  | peekAt n => exact effortsMap (fun seen => Finding.item seen.toOption) (lookEfforts n m)
  | look n => exact effortsMap _ (lookEfforts n m)
  | next => exact effortsMap _ (nextEfforts fit)
  | skip n => exact effortsMap _ (skipEfforts fit n)
  | atEnd => exact effortsMap _ (effortsMap _ (lookEfforts 1 m))
  | take n => exact effortsMap _ (takeEfforts fit n)
  | meets text => exact effortsMap _ (meetsEfforts text m)
  | meetsBytes bytes => exact effortsMap _ (meetsBytesEfforts bytes m)
  | accept text => exact effortsMap _ (acceptEfforts fit text)
  | acceptBytes bytes =>
    exact effortsMap _ (acceptBytesEfforts fit fun odd took =>
      ⟨bytes, rfl, odd, congrArg Finding.truth took⟩)
  | lineText => exact effortsStill _ m
  | place => exact effortsStill _ m

theorem serveActs (fit : m.Fit) (query : Query) : m.Acts (m.serve query) :=
  effortsActs fit (serveEfforts fit query)

theorem readActs (m : Mounted) (n : Nat) : ∃ k : Mounted, (m.reader.read n).reader = k.reader ∧
    Chain Act m ((m.reader.pull n).trace.filterMap Event.under) k := by
  have reply : (m.reader.pull n).trace =
      [.pull ⟨n, (m.reader.read n).answer⟩ (m.reader.read n).beneath] := rfl
  rw [reply]
  unfold reader Reader.read
  cases asked : m.scanner.buffer.demand n with
  | none => exact ⟨_, rfl, Chain.one (.copy asked)⟩
  | some more => exact ⟨_, rfl, Chain.one (.read asked)⟩

theorem readingActs {r last : Reader} {events : List Event}
    (chain : Chain Reader.Step r events last) {m : Mounted} (top : r = m.reader) :
    ∃ k : Mounted, last = k.reader ∧ Chain Act m (events.filterMap Event.under) k := by
  induction chain generalizing m with
  | rest r => exact ⟨m, top, .rest m⟩
  | next head tail ih =>
    cases head with
    | pull n =>
      subst top
      obtain ⟨l, next, first⟩ := readActs m n
      obtain ⟨k, final, later⟩ := ih next
      rw [List.filterMap_append]
      exact ⟨k, final, first.append later⟩

end Mounted

namespace Session

def doing (top : Reader) : Request → List Event
  | .ask query => match top with
    | .scanner s below => ((Mounted.mk s below).serve query).trace
    | _ => []
  | .read n => (top.pull n).trace.filterMap Event.under
  | .exactly n => (top.exactly n).trace.filterMap Event.under
  | .drain n => (top.drain n).trace.filterMap Event.under
  | _ => []

def life (top : Reader) : List Request → List Event
  | [] => []
  | request :: rest => doing top request ++ life (perform top request).top rest

theorem requestActs {m : Mounted} (fit : m.Fit) {request : Request} (own : Own request) :
    ∃ k : Mounted, (perform m.reader request).top = k.reader ∧
      Chain Mounted.Act m (doing m.reader request) k := by
  cases request with
  | ask query => exact ⟨_, rfl, Mounted.serveActs fit query⟩
  | read n => exact Mounted.readingActs (Reader.pullChain m.reader n) rfl
  | exactly n => exact Mounted.readingActs (Reader.exactlyChain _ _ _ m.reader) rfl
  | drain n => exact Mounted.readingActs (Reader.drainChain _ _ m.reader) rfl
  | inner => exact ⟨m, rfl, .rest m⟩
  | split => exact ⟨m, rfl, .rest m⟩
  | wrap grain settings => exact own.elim
  | retire => exact own.elim

theorem lifeActs {m : Mounted} (fit : m.Fit) {requests : List Request}
    (own : ∀ request ∈ requests, Own request) :
    ∃ k : Mounted, last m.reader requests = k.reader ∧
      Chain Mounted.Act m (life m.reader requests) k := by
  induction requests generalizing m with
  | nil => exact ⟨m, rfl, .rest m⟩
  | cons request rest ih =>
    obtain ⟨own, others⟩ := List.forall_mem_cons.mp own
    obtain ⟨l, top, first⟩ := requestActs fit own
    obtain ⟨k, final, later⟩ := ih (Mounted.actsFit fit first) others
    refine ⟨k, ?_, ?_⟩
    · rw [last, top]
      exact final
    · rw [life, top]
      exact first.append later

theorem pulledNotes (own : Exchange) (beneath : List Exchange) :
    ([Event.pull own beneath].filterMap Event.under).filterMap Event.note? = [] := by
  cases beneath <;> rfl

theorem readingNotes {r s : Reader} {events : List Event} (chain : Chain Reader.Step r events s) :
    (events.filterMap Event.under).filterMap Event.note? = [] := by
  induction chain with
  | rest r => rfl
  | next head tail ih =>
    cases head with
    | pull n =>
      rw [List.filterMap_append, List.filterMap_append, ih, List.append_nil]
      exact pulledNotes _ _

theorem doingNotes (m : Mounted) (request : Request) :
    (perform m.reader request).notes = (doing m.reader request).filterMap Event.note? := by
  cases request with
  | ask query => rfl
  | read n => exact (readingNotes (Reader.pullChain m.reader n)).symm
  | exactly n => exact (readingNotes (Reader.exactlyChain _ _ _ m.reader)).symm
  | drain n => exact (readingNotes (Reader.drainChain _ _ m.reader)).symm
  | _ => rfl

theorem readingReads (events : List Event) (depth : Nat) :
    (events.filterMap Event.under).filterMap (Event.atDepth depth) =
      events.filterMap (Event.atDepth (depth + 1)) := by
  rw [List.filterMap_filterMap]
  exact congrArg (List.filterMap · events) (funext fun event => underDepth event depth)

theorem doingReads (m : Mounted) (request : Request) :
    (perform m.reader request).reads =
      (doing m.reader request).filterMap (Event.atDepth m.below.depth) := by
  cases request with
  | ask query => rfl
  | read n => exact (readingReads _ _).symm
  | exactly n => exact (readingReads _ _).symm
  | drain n => exact (readingReads _ _).symm
  | _ => rfl

theorem unreadDeeper {events : List Event} (unread : events.filterMap (Event.atDepth 0) = [])
    (depth : Nat) : events.filterMap (Event.atDepth depth) = [] := by
  rw [List.filterMap_eq_nil_iff] at unread ⊢
  intro event member
  cases event with
  | pull own beneath => exact absurd (unread _ member) (Option.some_ne_none own)
  | note n => rfl

theorem lifeNotes {m : Mounted} (fit : m.Fit) {requests : List Request}
    (own : ∀ request ∈ requests, Own request) :
    (run m.reader requests).flatMap Outcome.notes =
      (life m.reader requests).filterMap Event.note? := by
  induction requests generalizing m with
  | nil => rfl
  | cons request rest ih =>
    obtain ⟨own, others⟩ := List.forall_mem_cons.mp own
    obtain ⟨l, top, first⟩ := requestActs fit own
    have later := ih (Mounted.actsFit fit first) others
    rw [← top] at later
    rw [run, List.flatMap_cons, later, doingNotes, ← List.filterMap_append]
    rfl

theorem lifeUnread {m : Mounted} (fit : m.Fit) {requests : List Request}
    (own : ∀ request ∈ requests, Own request)
    (unread : (life m.reader requests).filterMap (Event.atDepth 0) = []) :
    ∀ o ∈ run m.reader requests, o.reads = [] := by
  induction requests generalizing m with
  | nil => simp [run]
  | cons request rest ih =>
    obtain ⟨own, others⟩ := List.forall_mem_cons.mp own
    obtain ⟨l, top, first⟩ := requestActs fit own
    rw [life, List.filterMap_append, List.append_eq_nil_iff, top] at unread
    have later := ih (Mounted.actsFit fit first) others unread.2
    rw [run, top]
    refine List.forall_mem_cons.mpr ⟨?_, later⟩
    rw [doingReads]
    exact unreadDeeper unread.1 _

end Session
end Readahead
