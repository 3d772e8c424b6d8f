import Readahead.Proofs.FailureRecurs

/-! A scanner that is at its end stays there. With an empty window it has heard how the reader
beneath ends, and from then on nothing is read, shown, handed out or counted, whatever it is asked
and however it is read from. A scanner over scalars can be at its end with bytes in the window that
are no text; whatever asks it for text then leaves it where it is. -/
namespace Readahead

def Finding.shows : Finding → List Item
  | .item seen => seen.toList
  | .looked seen => seen.toOption.toList
  | .items seen => seen
  | _ => []

def Response.delivers : Response → Bytes
  | .found finding => finding.shows.flatMap Item.spelling
  | .read answer => answer.bytes
  | .exactly (.ok bytes) => bytes
  | .drained all => all.bytes
  | .pending bytes => bytes
  | _ => []

theorem Phase.leadsBare {p q : Phase} (leads : p.Leads q) : q.bare = p.bare := by
  cases p with
  | ended => rcases leads with rfl | rfl <;> rfl
  | flowing | broken kind | spent =>
    cases leads
    rfl

theorem Phase.bareBytes (p : Phase) : p.bare.bytes = [] := by cases p <;> rfl

namespace Prospect

variable {p : Prospect}

theorem barrenShows (none : p.items = []) (query : Query) : (p.serve query).result.shows = [] := by
  have looked : ∀ n, (p.look n).result.toOption = Option.none := by
    intro n
    unfold look
    split
    · rfl
    · rw [none]
      rfl
  have next : p.next.result = Option.none := by
    unfold Prospect.next
    rw [none]
    rfl
  cases query with
  | peek => exact congrArg Option.toList (looked 1)
  | peekAt n => exact congrArg Option.toList (looked n)
  | look n => exact congrArg Option.toList (looked n)
  | next => exact congrArg Option.toList next
  | take n =>
    change (p.take n).result = []
    cases n with
    | zero => rfl
    | succ n =>
      simp only [Prospect.take, Turn.andThen, next]
      rfl
  | _ => rfl

theorem barrenAccept (grained : p.grain = .scalars) (none : p.items = []) (text : Utf8.Text) :
    (p.accept text).taken = [] := by
  simp only [accept, meets, grained, none]
  cases text <;> rfl

end Prospect

namespace Mounted

variable {m k l : Mounted}

/-- The window is empty, and it was heard how the reader beneath ends. -/
structure Closed (m : Mounted) : Prop where
  fit : m.Fit
  settled : m.scanner.buffer.phase ≠ .flowing
  empty : m.scanner.window = []

structure Rests (m k : Mounted) : Prop where
  closed : k.Closed
  progress : k.scanner.progress = m.scanner.progress
  bare : k.scanner.buffer.phase.bare = m.scanner.buffer.phase.bare

theorem restsSame (closed : m.Closed) : m.Rests m := ⟨closed, rfl, rfl⟩

theorem restsTwice (first : m.Rests k) (later : k.Rests l) : m.Rests l :=
  ⟨later.closed, later.progress.trans first.progress, later.bare.trans first.bare⟩

theorem closedFront (closed : m.Closed) : m.front.bytes = [] :=
  (Buffer.frontSettled closed.settled _).trans closed.empty

theorem closedItems (closed : m.Closed) : m.prospect.items = [] :=
  Prospect.barrenItems (closedFront closed)

theorem closedTakes (closed : m.Closed) (query : Query) :
    m.takes query (m.serve query).result = [] := by
  have leaves := congrArg Front.bytes (serveLeaves closed.fit query)
  rw [closedFront closed] at leaves
  exact (List.append_eq_nil_iff.mp leaves.symm).1

theorem serveRests (closed : m.Closed) (query : Query) : m.Rests (m.serve query).state := by
  obtain ⟨fit, extended, leads⟩ := serveStands closed.fit (closedTakes closed query)
  have told := leads closed.settled
  have within : (m.serve query).state.scanner.window <+: (m.serve query).state.front.bytes :=
    Buffer.frontWindow _ _
  rw [extended.front, closedFront closed] at within
  exact ⟨⟨fit, Phase.leadsSettled closed.settled told, List.prefix_nil.mp within⟩,
    extended.progress, Phase.leadsBare told⟩

theorem closedRead (closed : m.Closed) (n : Nat) :
    (m.reader.read n).answer = (if n = 0 then .served [] else m.scanner.buffer.phase.bare) ∧
      ∃ k : Mounted, (m.reader.read n).reader = k.reader ∧ m.Rests k := by
  obtain ⟨k, -, copies⟩ := readCopies closed.fit n
  have told : (m.reader.read n).answer = (if n = 0 then .served [] else
      m.scanner.buffer.phase.bare) ∧ k.scanner.buffer.phase = m.scanner.buffer.phase := by
    split
    · rename_i nought
      obtain ⟨answer, -, -, phase⟩ := copies.covered (by omega)
      rw [closed.empty, List.take_nil] at answer
      exact ⟨answer, phase⟩
    · rename_i some
      obtain ⟨answer, -, -, phase⟩ :=
        copies.settled (by rw [closed.empty]; exact Nat.pos_of_ne_zero some) closed.settled
      rw [closed.empty, Answer.behindNothing] at answer
      exact ⟨answer, phase⟩
  have nothing : (m.reader.read n).answer.bytes = [] := by
    rw [told.1]
    split
    · rfl
    · exact Phase.bareBytes _
  have progress := copiesPass copies
  rw [nothing] at progress
  refine ⟨told.1, k, copies.top, ⟨copiesFit closed.fit copies, ?_, ?_⟩, progress,
    congrArg Phase.bare told.2⟩
  · rw [told.2]
    exact closed.settled
  · rw [copies.window, closed.empty, List.drop_nil]

theorem readingRests {r last : Reader} {events : List Event}
    (chain : Chain Reader.Step r events last) (closed : m.Closed) (top : r = m.reader) :
    handed events 0 = [] ∧ ∃ k : Mounted, last = k.reader ∧ m.Rests k := by
  induction chain generalizing m with
  | rest r => exact ⟨rfl, m, top, restsSame closed⟩
  | next head tail ih =>
    cases head with
    | pull n =>
      subst top
      obtain ⟨answer, k, next, rests⟩ := closedRead closed n
      obtain ⟨later, l, final, further⟩ := ih rests.closed next
      refine ⟨?_, l, final, restsTwice rests further⟩
      rw [handedAppend, later, Reader.pullTaken]
      change (m.reader.read n).answer.bytes ++ [] = []
      rw [answer, List.append_nil]
      split
      · rfl
      · exact Phase.bareBytes _

end Mounted

namespace Session

variable {m k : Mounted}

theorem requestRests (closed : m.Closed) {request : Request} (own : Own request) :
    hand m.reader request 0 = [] ∧ (perform m.reader request).response.delivers = [] ∧
      ∃ k : Mounted, (perform m.reader request).top = k.reader ∧ m.Rests k := by
  cases request with
  | ask query =>
    have shows := Prospect.barrenShows (Mounted.closedItems closed) query
    rw [← (Mounted.serveYields closed.fit query).result] at shows
    exact ⟨Mounted.closedTakes closed query, congrArg (List.flatMap Item.spelling) shows, _, rfl,
      Mounted.serveRests closed query⟩
  | read n =>
    obtain ⟨none, rests⟩ := Mounted.readingRests (Reader.pullChain m.reader n) closed rfl
    rw [readHand] at none
    exact ⟨none, none, rests⟩
  | exactly n =>
    obtain ⟨none, rests⟩ := Mounted.readingRests (Reader.exactlyChain _ _ _ m.reader) closed rfl
    change handed (m.reader.exactly n).trace 0 = [] at none
    rw [exactlyHand] at none
    refine ⟨none, ?_, rests⟩
    change takes m.reader (.exactly n) (.exactly (m.reader.exactly n).result) = [] at none
    change Response.delivers (.exactly (m.reader.exactly n).result) = []
    cases result : (m.reader.exactly n).result with
    | ok bytes =>
      rw [result] at none
      exact none
    | error f => rfl
  | drain n =>
    obtain ⟨none, rests⟩ := Mounted.readingRests (Reader.drainChain _ _ m.reader) closed rfl
    change handed (m.reader.drain n).trace 0 = [] at none
    rw [drainHand] at none
    exact ⟨none, none, rests⟩
  | inner => exact ⟨rfl, rfl, m, rfl, Mounted.restsSame closed⟩
  | split => exact ⟨rfl, rfl, m, rfl, Mounted.restsSame closed⟩
  | wrap grain settings => exact own.elim
  | retire => exact own.elim

theorem requestsRest {requests : List Request} (closed : m.Closed)
    (own : ∀ request ∈ requests, Own request) :
    taken m.reader requests = [] ∧ (∀ o ∈ run m.reader requests, o.response.delivers = []) ∧
      ∃ k : Mounted, last m.reader requests = k.reader ∧ m.Rests k := by
  induction requests generalizing m with
  | nil => exact ⟨rfl, by simp [run], m, rfl, Mounted.restsSame closed⟩
  | cons request rest ih =>
    obtain ⟨own, others⟩ := List.forall_mem_cons.mp own
    obtain ⟨none, silent, l, top, rests⟩ := requestRests closed own
    obtain ⟨later, quiet, k, final, further⟩ := ih rests.closed others
    rw [taken, run, last, none, top, later]
    exact ⟨rfl, List.forall_mem_cons.mpr ⟨silent, quiet⟩, k, final,
      Mounted.restsTwice rests further⟩

end Session

def Query.ByText : Query → Prop
  | .acceptBytes bytes => Utf8.text? bytes ≠ none
  | _ => True

def Request.ByText : Request → Prop
  | .ask query => query.ByText
  | .inner | .split => True
  | _ => False

theorem Prospect.barrenTaken {p : Prospect} (grained : p.grain = .scalars) (none : p.items = [])
    {query : Query} (text : query.ByText) : (p.serve query).taken = [] := by
  have consumes := p.serveConsumes query
  have shows := barrenShows none query
  cases query with
  | next =>
    rw [consumes.taken]
    exact congrArg (List.flatMap Item.spelling) shows
  | take n =>
    rw [consumes.taken]
    exact congrArg (List.flatMap Item.spelling) shows
  | skip n =>
    change (p.skip n).taken = []
    unfold skip
    split
    · rfl
    · rename_i positive
      rw [none, if_neg (by simp [positive])]
      rfl
  | accept asked => exact barrenAccept grained none asked
  | acceptBytes bytes =>
    change (p.acceptBytes bytes).taken = []
    obtain ⟨asked, told⟩ := Option.ne_none_iff_exists'.mp text
    simp only [acceptBytes, grained, told]
    exact barrenAccept grained none asked
  | _ => exact consumes.taken

namespace Session

variable {m k : Mounted}

theorem textStands (fit : m.Fit) (grained : m.scanner.ahead.grain = .scalars)
    (none : m.prospect.items = []) {request : Request} (text : request.ByText) :
    ∃ k : Mounted, (perform m.reader request).top = k.reader ∧ m.Stands k := by
  cases request with
  | ask query =>
    have nothing := Prospect.barrenTaken (p := m.prospect) grained none text
    rw [← Mounted.takesTurn fit] at nothing
    exact ⟨_, rfl, Mounted.serveStands fit nothing⟩
  | inner => exact ⟨m, rfl, Mounted.standsSame fit⟩
  | split => exact ⟨m, rfl, Mounted.standsSame fit⟩
  | read n | exactly n | drain n | wrap grain settings | retire => exact text.elim

theorem textsStand {requests : List Request} (fit : m.Fit)
    (grained : m.scanner.ahead.grain = .scalars) (none : m.prospect.items = [])
    (text : ∀ request ∈ requests, request.ByText) :
    ∃ k : Mounted, last m.reader requests = k.reader ∧ m.Stands k := by
  induction requests generalizing m with
  | nil => exact ⟨m, rfl, Mounted.standsSame fit⟩
  | cons request rest ih =>
    obtain ⟨text, others⟩ := List.forall_mem_cons.mp text
    obtain ⟨l, top, stands⟩ := textStands fit grained none text
    have items := (Mounted.standsItems stands).trans none
    have grain := stands.extended.grain.trans grained
    obtain ⟨k, final, further⟩ := ih stands.fit grain items others
    rw [last, top]
    exact ⟨k, final, Mounted.standsTwice stands further⟩

structure Lasts (m : Mounted) (requests : List Request) (k : Mounted) : Prop where
  top : last m.reader requests = k.reader
  atEnd : k.atEnd.result = true
  progress : k.scanner.progress = m.scanner.progress

structure Barren (m : Mounted) (requests : List Request) (k : Mounted) : Prop
    extends Lasts m requests k where
  unread : (life m.reader requests).filterMap (Event.atDepth 0) = []
  taken : taken m.reader requests = []
  outcomes : ∀ o ∈ run m.reader requests, o.reads = [] ∧ o.response.delivers = []
  reads : ∀ n, n ≠ 0 → (k.reader.read n).answer = m.scanner.buffer.phase.bare

theorem itemsEnd (fit : m.Fit) (none : m.prospect.items = []) : m.atEnd.result = true := by
  rw [(Mounted.atEndYields fit).result, Prospect.atEnd, none]
  rfl

theorem closedBarren {requests : List Request} (closed : m.Closed)
    (own : ∀ request ∈ requests, Own request) : ∃ k : Mounted, Barren m requests k := by
  obtain ⟨none, silent, k, final, rests⟩ := requestsRest closed own
  obtain ⟨_, _, acts⟩ := lifeActs closed.fit own
  have turns := Mounted.turningTurns (Mounted.actsTurning closed.fit acts)
  have unread := (Buffer.settledTurns turns closed.settled).2.1
  have unheard := lifeUnread closed.fit own unread
  refine ⟨k, ⟨⟨final, itemsEnd rests.closed.fit (Mounted.closedItems rests.closed), rests.progress⟩,
    unread, none, fun o member => ⟨unheard o member, silent o member⟩, fun n some => ?_⟩⟩
  rw [(Mounted.closedRead rests.closed n).1, if_neg some, rests.bare]

theorem endItems (fit : m.Fit) (done : m.atEnd.result = true) :
    m.atEnd.state.prospect.items = [] := by
  have yields := Mounted.atEndYields fit
  have none := yields.result
  rw [done] at none
  have same : m.atEnd.state.prospect.items = m.prospect.items := by
    rw [yields.left]
    rfl
  exact same.trans (List.isEmpty_iff.mp none.symm)

theorem emptyWants (fit : m.Fit) (empty : m.scanner.window = [])
    (flowing : m.scanner.buffer.phase = .flowing) : m.Wants 1 := by
  have positive : 0 < m.scanner.capacity := fit.scanner.buffer.positive
  refine ⟨positive, flowing, ?_⟩
  rw [Scanner.Lacks, empty]
  split
  · exact Nat.one_pos
  · exact ⟨positive, Nat.one_pos, Utf8.Rest.noConfusion⟩

theorem endStands (fit : m.Fit) : m.Stands m.atEnd.state :=
  (Mounted.serveStands fit rfl : m.Stands (m.serve .atEnd).state)

theorem endClosed (fit : m.Fit) (done : m.atEnd.result = true)
    (heard : (m.look 1).result ≠ .error (.stream .interrupted))
    (empty : m.scanner.ahead.grain = .bytes ∨ m.atEnd.state.scanner.window = []) :
    m.atEnd.state.Closed := by
  have stands := endStands fit
  have window : m.atEnd.state.scanner.window = [] := by
    refine empty.elim (fun grained => ?_) id
    have seen := Mounted.itemsSight stands.fit
    rw [endItems fit done] at seen
    have items := List.prefix_nil.mp seen
    rw [← stands.extended.grain] at grained
    unfold Scanner.items at items
    cases ahead : m.atEnd.state.scanner.ahead with
    | bytes =>
      rw [ahead] at items
      exact List.map_eq_nil_iff.mp items
    | scalars stock =>
      rw [ahead] at grained
      contradiction
  refine ⟨stands.fit, fun flowing => ?_, window⟩
  have wants := emptyWants stands.fit window flowing
  cases result : (m.look 1).result with
  | ok item =>
    have found : m.atEnd.result = !(m.look 1).result.isOk := rfl
    rw [done, result] at found
    contradiction
  | error fault =>
    refine Mounted.lookSettled fit result (fun endless => heard ?_) wants
    rw [result, endless]

theorem doneForGood (reachable : Reachable m.reader) (done : m.atEnd.result = true) :
    let after := m.atEnd.state
    ((m.look 1).result ≠ .error (.stream .interrupted) →
      (m.scanner.ahead.grain = .bytes ∨ after.scanner.window = []) →
      after.scanner.buffer.phase ≠ .flowing ∧
        ∀ requests, (∀ request ∈ requests, Own request) → ∃ k, Barren after requests k) ∧
    (m.scanner.ahead.grain = .scalars →
      ∀ requests, (∀ request ∈ requests, request.ByText) → ∃ k, Lasts after requests k) := by
  intro after
  have fit := Mounted.readerFit (reachableFit reachable)
  constructor
  · intro heard empty
    have closed : after.Closed := endClosed fit done heard empty
    exact ⟨closed.settled, fun requests own => closedBarren closed own⟩
  · intro grained requests text
    have stands : m.Stands after := endStands fit
    have none : after.prospect.items = [] := endItems fit done
    have grain := stands.extended.grain.trans grained
    obtain ⟨k, final, later⟩ := textsStand stands.fit grain none text
    refine ⟨k, final, itemsEnd later.fit ?_, later.extended.progress⟩
    exact (Mounted.standsItems later).trans none

theorem doneForGoodReviving :
    let m : Mounted := ⟨.fresh .bytes 4, .script ⟨[.data [], .data [0x62]], none, none⟩⟩
    let after := m.atEnd.state
    Reachable m.reader ∧ m.atEnd.result = true ∧
      (m.look 1).result ≠ .error (.stream .interrupted) ∧
      after.scanner.buffer.phase ≠ .flowing ∧
      ∃ k, Barren after [.read 2, .ask .next, .exactly 1, .ask (.take 3)] k := by
  intro m after
  have reachable : Reachable m.reader := reachableStart (.stream _) .bytes ⟨4⟩
  have done : m.atEnd.result = true := by decide +kernel
  have obtains : m.Obtains ⟨[], .ended⟩ := ⟨_, fun _ => .ended Nat.one_pos rfl, rfl⟩
  have fit := Mounted.readerFit (reachableFit reachable)
  have heard : (m.look 1).result ≠ .error (.stream .interrupted) :=
    Mounted.patientLook fit obtains
  obtain ⟨settled, barren⟩ := (doneForGood reachable done).1 heard (.inl rfl)
  exact ⟨reachable, done, heard, settled, barren _ (by simp [Own])⟩

-- A raw read takes a scanner after scalars past the byte that was no text.
example :
    let m : Mounted := ⟨.fresh .scalars 4, .script ⟨[.data [0xFF, 0x61]], none, none⟩⟩
    m.atEnd.result = true ∧
      (perform (last m.atEnd.state.reader [.read 1]) (.ask .next)).response.delivers = [0x61] := by
  decide +kernel

end Session
end Readahead
