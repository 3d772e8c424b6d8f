import Readahead.Proofs.StackLayers

/-! Where the window lies in the storage of a scanner. It never leaves it, at no moment of whatever
is asked, and the capacity is what the scanner was granted as long as there is the scanner. A refill
offers all that the window leaves free, and neither a refill nor a raw read ever offers nothing, so
an answer without bytes is the end of the data. -/
namespace Readahead

namespace Buffer

structure InRange (b : Buffer) : Prop where
  ordered : b.start ≤ b.stop
  inside : b.stop ≤ b.storage.length
  window : b.window.length = b.stop - b.start
  copied : ∀ n, (b.window.take n).length ≤ n ∧ b.start + (b.window.take n).length ≤ b.stop
  behind : b.stop + b.room = b.storage.length

variable {b : Buffer}

theorem soundRange (sound : b.Sound) : b.InRange := by
  have ordered := sound.ordered
  have inside := stopInside sound
  have size : b.window.length = b.stop - b.start := windowLength sound
  refine ⟨ordered, inside, size, fun n => ?_, Nat.add_sub_cancel' inside⟩
  rw [List.length_take]
  omega

theorem frontRoom (sound : b.Sound) (live : b.phase ≠ .spent) (atFront : b.start = 0) :
    b.room = b.capacity - b.window.length := by
  rw [room, sound.stored live, windowLength sound, filled, atFront, Nat.sub_zero]

end Buffer

theorem Phase.turnsRoom {window : Bytes} {p q : Phase} {events after : List Event} {own : Exchange}
    {beneath : List Exchange} (turns : p.Turns window events q)
    (parts : events = .pull own beneath :: after) : 0 < own.offered := by
  cases turns with
  | refill room =>
    cases parts
    exact room
  | read room =>
    cases parts
    exact room
  | giveUp empty => exact Event.noConfusion (List.cons.inj parts).1
  | other aside => exact absurd parts (notesApart _ [])

theorem Feed.stepOffers {f g : Feed} {events after : List Event} {own : Exchange}
    {beneath : List Exchange} (fit : f.Fit) (step : Step f events g)
    (parts : events = .pull own beneath :: after) :
    own.offered = f.buffer.capacity - f.buffer.window.length := by
  cases step with
  | shift => contradiction
  | refill flowing atFront room =>
    cases parts
    exact Buffer.frontRoom fit.buffer (by rw [flowing]; exact Phase.noConfusion) atFront
  | giveUp past empty => exact Event.noConfusion (List.cons.inj parts).1

namespace Mounted

variable {m k : Mounted} {events before after : List Event} {own : Exchange}
  {beneath : List Exchange}

theorem stepOffers (fit : m.Fit) (step : Step m events k)
    (parts : events = .pull own beneath :: after) :
    own.offered = m.scanner.capacity - m.scanner.window.length := by
  cases step with
  | feed step => exact Feed.stepOffers (feedFit fit) step parts
  | scan grained step =>
    cases step with
    | feed step => exact Feed.stepOffers (feedFit fit) step parts
    | pass more =>
      obtain ⟨notes, trace, -⟩ := passNotes _
      rw [trace] at parts
      exact absurd parts (notesApart notes [])
    | full crowded none => exact Event.noConfusion (List.cons.inj parts).1

structure Edge (m : Mounted) (before : List Event) (own : Exchange) (beneath : List Exchange)
    (k : Mounted) : Prop where
  acts : Chain Act m before k
  read : (k.below.pull own.offered).trace = [.pull own beneath]

theorem effortOnce {odd : Prop} (effort : Effort odd m events k) : m.below.Once events k.below := by
  cases effort with
  | look step => exact stepOnce step
  | consume ready => exact .alone []
  | consumeBytes allowed ready => exact .alone []

theorem actsEdge (fit : m.Fit) (chain : Chain Act m events k)
    (parts : events = before ++ .pull own beneath :: after) :
    ∃ j, m.Edge before own beneath j ∧ 0 < own.offered := by
  obtain ⟨j, u, rest, acts, act, read⟩ := readAround actOnce chain parts
  exact ⟨j, ⟨acts, read⟩, Phase.turnsRoom (actTurns (actsFit fit acts) act) rfl⟩

theorem effortsEdge {odd : Prop} (fit : m.Fit) (chain : Chain (Effort odd) m events k)
    (parts : events = before ++ .pull own beneath :: after) :
    ∃ j, m.Edge before own beneath j ∧ 0 < own.offered ∧
      own.offered = j.scanner.capacity - j.scanner.window.length := by
  obtain ⟨j, u, rest, efforts, effort, read⟩ := readAround effortOnce chain parts
  have further := effortsFit fit efforts
  have some := Phase.turnsRoom (actTurns further (effortAct further effort)) rfl
  refine ⟨j, ⟨effortsActs fit efforts, read⟩, some, ?_⟩
  generalize same : Event.pull own beneath :: rest = here at effort
  cases effort with
  | look step => exact stepOffers further step same.symm
  | consume ready => contradiction
  | consumeBytes allowed ready => contradiction

theorem edgeEnded (fit : m.Fit) (edge : m.Edge before own beneath k) (room : 0 < own.offered)
    (nothing : own.answer = .served []) : k.below.front = ⟨[], .ended⟩ := by
  have sound := fitSound (actsFit fit edge.acts).below
  have told := k.below.readAnswers room sound
  have heard : (k.below.read own.offered).answer = own.answer :=
    congrArg Exchange.answer (Event.pull.inj (List.cons.inj edge.read).1).1
  rw [heard, nothing] at told
  exact told

/-- What a scanner in this state offers in a read that it makes for a request, and what it may
conclude if it is served nothing. -/
structure Offers (k : Mounted) (request : Request) (own : Exchange) : Prop where
  some : 0 < own.offered
  refill : ∀ query, request = .ask query →
    own.offered = k.scanner.capacity - k.scanner.window.length
  ended : own.answer = .served [] → k.below.front = ⟨[], .ended⟩

theorem requestOffers (fit : m.Fit) {request : Request}
    (parts : Session.doing m.reader request = before ++ .pull own beneath :: after) :
    ∃ j, m.Edge before own beneath j ∧ j.Offers request own := by
  have reading (owned : Session.Own request) (asks : ∀ query, request ≠ .ask query) :
      ∃ j, m.Edge before own beneath j ∧ j.Offers request own := by
    obtain ⟨k, -, chain⟩ := Session.requestActs fit owned
    obtain ⟨j, edge, some⟩ := actsEdge fit chain parts
    exact ⟨j, edge, some, fun query same => absurd same (asks query), edgeEnded fit edge some⟩
  cases request with
  | ask query =>
    obtain ⟨j, edge, some, full⟩ := effortsEdge fit (serveEfforts fit query) parts
    exact ⟨j, edge, some, fun _ _ => full, edgeEnded fit edge some⟩
  | read n | exactly n | drain n => exact reading trivial fun _ => Request.noConfusion
  | wrap grain settings | inner | retire | split =>
    exact absurd parts.symm (List.append_ne_nil_of_right_ne_nil before (List.cons_ne_nil _ _))

end Mounted

namespace Session

variable {m : Mounted} {top : Reader}

theorem storageKept (reachable : Reachable top) (layer : m.reader ∈ top.layers) :
    (∀ events k, Chain Mounted.Act m events k →
      k.scanner.buffer.Sound ∧ k.scanner.buffer.InRange ∧
        k.scanner.capacity = m.scanner.capacity ∧ Layered k.below) ∧
    (∀ request, (Own request → ∃ k : Mounted, (perform m.reader request).top = k.reader ∧
        Chain Mounted.Act m (doing m.reader request) k) ∧
      ∀ before own beneath after,
        doing m.reader request = before ++ .pull own beneath :: after →
          ∃ k, m.Edge before own beneath k ∧ k.Offers request own) ∧
    ∀ request, (perform top request).top.capacities = granted top request := by
  have layered := reachableLayered (reachableLayered reachable _ layer)
  have fit := Mounted.readerFit (reachableFit (layered _ (Reader.topLayer _)))
  refine ⟨fun events k chain => ?_, fun request => ⟨requestActs fit, ?_⟩,
    performCapacities (reachableFit reachable)⟩
  · have sound := (Mounted.actsFit fit chain).scanner.buffer
    exact ⟨sound, Buffer.soundRange sound, (Mounted.actsSame fit chain).1,
      Reader.actsKept layeredRead chain (layeredBelow layered rfl)⟩
  · intro before own beneath after parts
    exact Mounted.requestOffers fit parts

theorem storageKeptBuried :
    let m : Mounted := (Mounted.look 1
      ⟨.fresh .bytes 4, .script ⟨[.data [0x78], .data [0x79]], none, none⟩⟩).state
    let top := start .scalars ⟨3⟩ m.reader
    Reachable top ∧ m.reader ∈ top.layers ∧ m.scanner.buffer.InRange ∧
      (∃ k : Mounted, m.Edge [] ⟨3, .served [0x79]⟩ [] k ∧
        k.Offers (.ask (.look 2)) ⟨3, .served [0x79]⟩) ∧
      (perform top .retire).top.capacities = [4] := by
  intro m top
  have first : Reachable (Mounted.mk (.fresh .bytes 4)
      (.script ⟨[.data [0x78], .data [0x79]], none, none⟩)).reader :=
    reachableStart (.stream _) .bytes ⟨4⟩
  have reachable : Reachable top := reachableStart (.performed first (.ask (.look 1))) .scalars ⟨3⟩
  have layer : m.reader ∈ top.layers := List.mem_cons_of_mem _ (Reader.topLayer _)
  obtain ⟨kept, requests, capacities⟩ := storageKept reachable layer
  exact ⟨reachable, layer, (kept [] m (.rest m)).2.1,
    (requests (.ask (.look 2))).2 [] _ [] [.note (.refilled 1 1)] (by decide +kernel),
    capacities .retire⟩

end Session
end Readahead
