import Readahead.Proofs.RawCopy
import Readahead.Proofs.LookForecast
import Readahead.Proofs.ReadsByFront
import Readahead.Proofs.TakenBytes

/-! What the caller of a scanner can still obtain, and the end that then comes. A query takes from
the front of it the bytes that its answer tells of and leaves the rest as it was. To look ahead, to
find that something is not there and to be refused take nothing, nor does a raw read that fails,
whatever is read, decoded, moved or given up on the way. -/
namespace Readahead

def Prospect.Leaves {α : Type} (p : Prospect) (t : Turn α) : Prop :=
  p.front = t.left.front.behind t.taken

namespace Prospect

variable {α β : Type} {p : Prospect}

theorem leavesThen {t : Turn α} {next : α → Prospect → Turn β} (first : p.Leaves t)
    (later : t.left.Leaves (next t.result t.left)) : p.Leaves (t.andThen next) := by
  rw [Leaves, first, later, behindTwice]
  rfl

theorem leavesMap {t : Turn α} (f : α → β) (leaves : p.Leaves t) : p.Leaves (t.map f) := leaves

theorem spendLeaves {units : List Bytes} (within : units.flatten <+: p.front.bytes) :
    p.Leaves (p.spend units) := by
  obtain ⟨rest, more⟩ := within
  have parts : p.front.bytes = units.flatten ++ p.front.bytes.drop units.flatten.length := by
    rw [← more, List.drop_left]
  exact congrArg (Front.mk · p.front.finish) parts

theorem itemsWithinSight (p : Prospect) : p.items.flatMap Item.spelling <+: p.sight := by
  unfold items Grain.items
  rw [List.flatMap]
  cases p.grain with
  | bytes => exact ⟨[], by rw [bytesSpelled, unitsFlat, List.append_nil]⟩
  | scalars =>
    have parts := Utf8.decodeParts p.sight
    rw [textSpelled]
    exact ⟨_, parts.symm⟩

theorem sightFront {bytes : Bytes} (seen : bytes <+: p.sight) : bytes <+: p.front.bytes :=
  seen.trans (List.take_prefix _ _)

theorem unitsSight (p : Prospect) (n : Nat) : (p.units n).flatten <+: p.sight := by
  refine List.IsPrefix.trans ?_ p.itemsWithinSight
  conv => rhs; rw [← List.take_append_drop n p.items, List.flatMap_append]
  exact List.prefix_append _ _

theorem unitsFront (p : Prospect) (n : Nat) : (p.units n).flatten <+: p.front.bytes :=
  sightFront (p.unitsSight n)

theorem lookLeaves (n : Nat) (p : Prospect) : p.Leaves (p.look n) := by
  unfold look
  split <;> rfl

theorem skipLeaves (n : Nat) (p : Prospect) : p.Leaves (p.skip n) := by
  unfold skip
  split
  · rfl
  split
  · exact leavesMap _ (spendLeaves (p.unitsFront n))
  · rfl

theorem nextLeaves (p : Prospect) : p.Leaves p.next := by
  unfold next
  cases ahead : p.items with
  | nil => rfl
  | cons item later =>
    have within := p.unitsFront 1
    rw [unitsFirst ahead] at within
    exact leavesMap _ (spendLeaves within)

theorem takeLeaves (n : Nat) (p : Prospect) : p.Leaves (p.take n) := by
  induction n generalizing p with
  | zero => rfl
  | succ n ih =>
    refine leavesThen p.nextLeaves ?_
    cases p.next.result with
    | none => rfl
    | some item => exact leavesMap _ (ih _)

theorem meetsBytesLeaves (bytes : Bytes) (p : Prospect) : p.Leaves (p.meetsBytes bytes) := by
  unfold meetsBytes
  split <;> rfl

theorem meetsLeaves (text : Utf8.Text) (p : Prospect) : p.Leaves (p.meets text) := by
  unfold meets
  split
  · exact meetsBytesLeaves _ p
  · rfl

theorem spendIfLeaves {test : Turn Bool} {units : List Bytes} (tested : p.Leaves test)
    (within : test.result = true → units.flatten <+: test.left.front.bytes) :
    p.Leaves (spendIf units test) := by
  refine leavesThen tested ?_
  cases passed : test.result with
  | false => rfl
  | true => exact leavesMap _ (spendLeaves (within passed))

theorem spendMetLeaves (bytes : Bytes) (p : Prospect) :
    p.Leaves (spendIf (bytes.map fun b => [b]) (p.meetsBytes bytes)) := by
  refine spendIfLeaves (meetsBytesLeaves bytes p) fun met => ?_
  obtain ⟨seen, left⟩ := meetsBytesHeld met
  rw [left, unitsFlat]
  exact sightFront seen

theorem acceptLeaves (text : Utf8.Text) (p : Prospect) : p.Leaves (p.accept text) := by
  unfold accept meets
  cases p.grain with
  | bytes => exact spendMetLeaves _ p
  | scalars =>
    refine spendIfLeaves rfl fun met => ?_
    have units := (textUnits (List.isPrefixOf_iff_prefix.mp met)).2
    rw [← units]
    exact p.unitsFront text.length

theorem acceptBytesLeaves (bytes : Bytes) (p : Prospect) : p.Leaves (p.acceptBytes bytes) := by
  unfold acceptBytes
  split
  · exact spendMetLeaves bytes p
  split
  · exact acceptLeaves _ p
  · exact spendMetLeaves bytes p

theorem serveLeaves (p : Prospect) (query : Query) : p.Leaves (p.serve query) := by
  cases query with
  | peek => exact leavesMap (fun seen => Finding.item seen.toOption) (lookLeaves 1 p)
  | peekAt n => exact leavesMap (fun seen => Finding.item seen.toOption) (lookLeaves n p)
  | look n => exact leavesMap _ (lookLeaves n p)
  | next => exact leavesMap _ p.nextLeaves
  | skip n => exact leavesMap _ (skipLeaves n p)
  | atEnd => rfl
  | take n => exact leavesMap _ (takeLeaves n p)
  | meets text => exact leavesMap _ (meetsLeaves text p)
  | meetsBytes bytes => exact leavesMap _ (meetsBytesLeaves bytes p)
  | accept text => exact leavesMap _ (acceptLeaves text p)
  | acceptBytes bytes => exact leavesMap _ (acceptBytesLeaves bytes p)
  | lineText => rfl
  | place => rfl

end Prospect

def Query.Spares : Query → Finding → Prop
  | .next, found => found = .item none
  | .skip _, found => ∃ fault, found = .skipped (.error fault)
  | .take _, found => found = .items []
  | .accept _, found | .acceptBytes _, found => found = .truth false
  | _, _ => True

theorem sparesConsumed {query : Query} {found : Finding} (spares : query.Spares found)
    (grain : Grain) (shown : Nat → List Item) : query.consumed grain shown found = [] := by
  cases query with
  | skip n =>
    obtain ⟨fault, rfl⟩ := spares
    rfl
  | next | take n | accept text | acceptBytes bytes =>
    cases spares
    rfl
  | _ => rfl

theorem spelledNothing {items : List Item} (nothing : items.flatMap Item.spelling = []) :
    items = [] := by
  cases items with
  | nil => rfl
  | cons item later =>
    have first := (List.append_eq_nil_iff.mp nothing).1
    cases item with
    | byte b => contradiction
    | scalar c => exact absurd first (Utf8.spellNonempty c)

theorem deliversPatient {r : Reader} {left : Front} (delivers : r.Delivers left) :
    left.finish ≠ .failed .interrupted := by
  induction delivers with
  | ended room told => exact Finish.noConfusion
  | failed room told lasting => exact fun same => lasting (Finish.failed.inj same)
  | again room told passing later ih => exact ih
  | served room told later ih => exact ih

namespace Mounted

variable {m k : Mounted}

/-- What is in the window and, while the buffer has heard of no end, all that the reader beneath
delivers; and the end of it. -/
def Obtains (m : Mounted) (front : Front) : Prop :=
  ∃ left, (m.scanner.buffer.phase = .flowing → m.below.Delivers left) ∧
    m.scanner.buffer.front left = front

theorem obtainsFront {front : Front} (fit : m.Fit) (obtains : m.Obtains front) :
    front = m.front := by
  obtain ⟨left, delivers, same⟩ := obtains
  rw [← same]
  exact frontTold fit delivers

theorem frontObtained (fit : m.Fit)
    (ends : m.scanner.buffer.phase = .flowing → m.front.finish ≠ .failed .interrupted) :
    m.Obtains m.front := by
  refine ⟨m.below.front, fun flowing => frontDelivered fit.below ?_, rfl⟩
  have patient := ends flowing
  rw [front, Buffer.front, flowing] at patient
  exact patient

theorem obtainsEnds {front : Front} (obtains : m.Obtains front)
    (flowing : m.scanner.buffer.phase = .flowing) : front.finish ≠ .failed .interrupted := by
  obtain ⟨left, delivers, rfl⟩ := obtains
  have patient := deliversPatient (delivers flowing)
  rw [Buffer.front, flowing]
  exact patient

theorem obtainsPatient {front : Front} (fit : m.Fit) (obtains : m.Obtains front) :
    front.finish ≠ .failed .interrupted := by
  by_cases flowing : m.scanner.buffer.phase = .flowing
  · exact obtainsEnds obtains flowing
  · intro finish
    obtain ⟨left, _, rfl⟩ := obtains
    have lasting := fit.scanner.buffer.lasting
    unfold Buffer.front at finish
    cases phase : m.scanner.buffer.phase with
    | flowing => exact flowing phase
    | ended | spent =>
      rw [phase] at finish
      contradiction
    | broken kind =>
      rw [phase] at finish lasting
      exact lasting (congrArg Phase.broken (Finish.failed.inj finish))

theorem actsFlowing {events : List Event} (fit : m.Fit) (chain : Chain Act m events k)
    (flowing : k.scanner.buffer.phase = .flowing) : m.scanner.buffer.phase = .flowing := by
  have turns := turningTurns (actsTurning fit chain)
  exact Phase.leadsFlowing (fun settled => (Buffer.settledTurns turns settled).1) flowing

theorem actsObtain {events : List Event} {front : Front} {taken : Bytes} (fit : m.Fit)
    (chain : Chain Act m events k) (leaves : m.front = k.front.behind taken)
    (obtains : m.Obtains front) : k.Obtains k.front ∧ front = k.front.behind taken := by
  have same := obtainsFront fit obtains
  refine ⟨frontObtained (actsFit fit chain) fun flowing => ?_, same.trans leaves⟩
  have ends := obtainsEnds obtains (actsFlowing fit chain flowing)
  rw [same, leaves] at ends
  exact ends

/-- Nothing was consumed: what can be obtained stays, the scanner stands where it stood, and what
was in the window is still the front of it. -/
structure Keeps (m k : Mounted) : Prop where
  obtains : ∀ front, m.Obtains front → k.Obtains front
  progress : k.scanner.progress = m.scanner.progress
  window : m.scanner.window <+: k.scanner.window

theorem actsKeep {events : List Event} (fit : m.Fit) (chain : Chain Act m events k)
    (extended : m.Extends k) : m.Keeps k := by
  refine ⟨fun front obtains => ?_, extended.progress, extended.window⟩
  have leaves : m.front = k.front.behind [] := extended.front.symm
  obtain ⟨later, same⟩ := actsObtain fit chain leaves obtains
  rw [same, behindNothing]
  exact later

theorem actSame {events : List Event} (fit : m.Fit) (act : Act m events k) :
    k.scanner.capacity = m.scanner.capacity ∧ k.scanner.ahead.grain = m.scanner.ahead.grain := by
  cases act with
  | look step =>
    have extended := (stepExtends fit step).2
    exact ⟨extended.capacity, extended.grain⟩
  | spend spends => exact ⟨spends.capacity, spends.grain⟩
  | copy enough => exact ⟨deliverCapacity _ _ _, deliverGrain _ _ _⟩
  | read asked => exact ⟨deliverCapacity _ _ _, deliverGrain _ _ _⟩

theorem actsSame {events : List Event} (fit : m.Fit) (chain : Chain Act m events k) :
    k.scanner.capacity = m.scanner.capacity ∧ k.scanner.ahead.grain = m.scanner.ahead.grain :=
  chain.relates Fit (fun m k => k.scanner.capacity = m.scanner.capacity ∧
      k.scanner.ahead.grain = m.scanner.ahead.grain)
    (fun _ _ _ fit act => ⟨actFit fit act, actSame fit act⟩) (fun _ => ⟨rfl, rfl⟩)
    (fun _ _ _ first later => ⟨later.1.trans first.1, later.2.trans first.2⟩) fit

theorem movesWindow {hand : Nat → Bytes} (moves : m.reader.Moves hand k.reader) :
    m.scanner.window ++ hand 1 = hand 0 ++ k.scanner.window ∧
      k.scanner.place.offset = m.scanner.place.offset + (hand 0).length := by
  cases moves with
  | scanner bytes offset beneath => exact ⟨bytes, offset⟩

theorem serveLeaves (fit : m.Fit) (query : Query) :
    m.front = (m.serve query).state.front.behind (m.takes query (m.serve query).result) := by
  have left := congrArg Prospect.front (serveYields fit query).left
  change (m.serve query).state.front = _ at left
  rw [left, takesTurn fit]
  exact Prospect.serveLeaves m.prospect query

theorem serveMoves (fit : m.Fit) (query : Query) :
    m.reader.Moves (hands (m.takes query (m.serve query).result) (m.serve query).trace)
      (m.serve query).state.reader := by
  rw [takesTurn fit]
  exact (serveYields fit query).moves

theorem serveExtends (fit : m.Fit) {query : Query}
    (nothing : m.takes query (m.serve query).result = []) : m.Extends (m.serve query).state := by
  have leaves := serveLeaves fit query
  have progress := (serveItems fit query).progress
  obtain ⟨window, _⟩ := movesWindow (serveMoves fit query)
  obtain ⟨capacity, grain⟩ := actsSame fit (serveActs fit query)
  rw [nothing] at leaves window
  rw [← consumedSpelled] at nothing
  rw [spelledNothing nothing, ← (serveYields fit query).left] at progress
  exact ⟨leaves.symm, capacity, ⟨_, window⟩, progress, grain⟩

theorem serveKeeps (fit : m.Fit) {query : Query} (spares : query.Spares (m.serve query).result) :
    m.Keeps (m.serve query).state := by
  have consumed : m.consumed query (m.serve query).result = [] := sparesConsumed spares _ _
  refine actsKeep fit (serveActs fit query) (serveExtends fit ?_)
  rw [← consumedSpelled, consumed]
  rfl

theorem dividedLooked (grain : Grain) (n : Nat) :
    let m : Mounted := (Mounted.look n ⟨.fresh grain 4, .script .divided⟩).state
    Session.Reachable m.reader ∧ m.Obtains ⟨[0xC3, 0xA9, 0xE2], .failed .brokenPipe⟩ := by
  intro m
  have start : Session.Reachable (Mounted.mk (.fresh grain 4) (.script .divided)).reader :=
    Session.reachableStart (.stream .divided) grain ⟨4⟩
  have spares (found : Finding) : Query.Spares (.look n) found := trivial
  have kept := serveKeeps (readerFit (Session.reachableFit start)) (spares _)
  exact ⟨.performed start (.ask (.look n)), kept.obtains _ ⟨_, fun _ => dividedDelivers, rfl⟩⟩

end Mounted

theorem Buffer.frontSame {b c : Buffer} (phase : c.phase = b.phase) (window : c.window = b.window)
    (below : Front) : c.front below = b.front below := by
  rw [front, front, phase, window]

theorem Buffer.failureFront {b c : Buffer} {before after : Front} {f : Failure}
    (flowing : b.phase = .flowing) (told : before.Answers after (.failed f))
    (phase : c.phase = (Answer.failed f).phase) (window : c.window = b.window) :
    c.front after = b.front before := by
  rw [Answer.phase] at phase
  unfold front
  rw [phase, window, flowing]
  by_cases passing : f.Passing
  · simp only [Front.Answers, if_pos passing] at told ⊢
    rw [told]
  · simp only [Front.Answers, if_neg passing] at told ⊢
    rw [told, Front.behind, List.append_nil]

namespace Mounted

variable {m k : Mounted}

theorem failureFront {n : Nat} {f : Failure} (fit : m.Fit)
    (copies : m.Copies n (m.reader.read n) k) (told : (m.reader.read n).answer = .failed f) :
    k.front = m.front := by
  have window := (copies.failed f told).2
  by_cases enough : n ≤ m.scanner.window.length
  · have served := (copies.covered enough).1
    rw [told] at served
    contradiction
  have few := Nat.lt_of_not_le enough
  by_cases flowing : m.scanner.buffer.phase = .flowing
  · obtain ⟨answer, -, below, phase⟩ := copies.asked few flowing
    have answers := m.below.readAnswers (Nat.sub_pos_of_lt few) (fitSound fit.below)
    rw [Answer.behindFailed (answer.symm.trans told)] at answers phase
    rw [front, front, below]
    exact Buffer.failureFront flowing answers phase window
  · obtain ⟨-, -, below, phase⟩ := copies.settled few flowing
    rw [front, front, below]
    exact Buffer.frontSame phase window _

theorem readKeeps (fit : m.Fit) {n : Nat} {f : Failure}
    (told : (m.reader.read n).answer = .failed f) :
    ∃ k : Mounted, (m.reader.read n).reader = k.reader ∧ m.Keeps k := by
  obtain ⟨k, acts, copies⟩ := readCopies fit n
  obtain ⟨progress, window⟩ := copies.failed f told
  obtain ⟨capacity, grain⟩ := actsSame fit acts
  exact ⟨k, copies.top, actsKeep fit acts ⟨failureFront fit copies told, capacity,
    ⟨[], (List.append_nil _).trans window.symm⟩, progress, grain⟩⟩

theorem stillObtained (reachable : Session.Reachable m.reader) :
    (∀ query,
      let r := m.serve query
      let taken := m.takes query r.result
      r.state.scanner.place.offset = m.scanner.place.offset + taken.length ∧
        ∀ front, m.Obtains front → ∃ rest, r.state.Obtains rest ∧ front = rest.behind taken) ∧
    (∀ query, query.Spares (m.serve query).result → m.Keeps (m.serve query).state) ∧
    ∀ n f, (m.reader.read n).answer = .failed f →
      ∃ k : Mounted, (m.reader.read n).reader = k.reader ∧ m.Keeps k := by
  have fit := readerFit (Session.reachableFit reachable)
  refine ⟨fun query => ⟨(movesWindow (serveMoves fit query)).2, fun front obtains => ?_⟩,
    fun query spares => serveKeeps fit spares, fun n f told => readKeeps fit told⟩
  exact ⟨_, actsObtain fit (serveActs fit query) (serveLeaves fit query) obtains⟩

theorem stillObtainedDivided :
    let m : Mounted := ⟨.fresh .scalars 4, .script .divided⟩
    let front : Front := ⟨[0xC3, 0xA9, 0xE2], .failed .brokenPipe⟩
    Session.Reachable m.reader ∧ m.Obtains front ∧ m.Keeps (m.serve (.look 2)).state ∧
      ∃ rest, (m.serve .next).state.Obtains rest ∧
        front = rest.behind (m.takes .next (m.serve .next).result) := by
  intro m front
  have reachable : Session.Reachable m.reader :=
    Session.reachableStart (.stream .divided) .scalars ⟨4⟩
  have obtains : m.Obtains front := ⟨_, fun _ => dividedDelivers, rfl⟩
  have still := stillObtained reachable
  exact ⟨reachable, obtains, still.2.1 (.look 2) trivial, (still.1 .next).2 front obtains⟩

end Mounted
end Readahead
