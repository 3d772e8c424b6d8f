import Readahead.Proofs.ScannerActs

/-! The end of what lies beneath a scanner. It is heard in the answer to one read, by a refill or by
a raw read, and from then on nothing is read any more, whatever the reader beneath would still
serve. An end may later be put away with the storage, once nothing is left in the window; a failure
stays what it is. The notes of a life tell of it once. -/
namespace Readahead

def Answer.phase : Answer → Phase
  | .served [] => .ended
  | .served (_ :: _) => .flowing
  | .failed f => if f.Passing then .flowing else .broken f.kind

def Answer.notes (waiting : Nat) : Answer → List Note
  | .served [] => [.ended waiting]
  | .served (b :: bytes) => [.refilled (b :: bytes).length waiting]
  | .failed f => if f.Passing then [] else [.broken f]

namespace Note

def final : Note → Bool
  | .ended _ | .broken _ => true
  | _ => false

def refills : Note → Bool
  | .refilled _ _ => true
  | _ => false

def aside : Note → Bool
  | .decoded _ _ | .malformed _ | .full => true
  | _ => false

end Note

/-- All that can become of a phase, and what happens with it: a refill, which notes what it hears; a
raw read, which does not; the storage given up; anything else, which neither reads nor turns it. -/
inductive Phase.Turns (window : Bytes) : Phase → List Event → Phase → Prop where
  | refill {own : Exchange} {beneath : List Exchange} (room : 0 < own.offered) :
      Turns window .flowing
        (.pull own beneath :: (own.answer.notes window.length).map .note) own.answer.phase
  | read {own : Exchange} {beneath : List Exchange} (room : 0 < own.offered) :
      Turns window .flowing [.pull own beneath] own.answer.phase
  | giveUp (empty : window = []) : Turns window .ended [.note .spent] .spent
  | other {phase : Phase} {notes : List Note} (aside : ∀ note ∈ notes, note.aside = true) :
      Turns window phase (notes.map .note) phase

def Buffer.Turns (b : Buffer) (events : List Event) (c : Buffer) : Prop :=
  b.phase.Turns b.window events c.phase

def Phase.Leads : Phase → Phase → Prop
  | .ended, after => after = .ended ∨ after = .spent
  | before, after => after = before

namespace Buffer

theorem absorbPhase {b : Buffer} (flowing : b.phase = .flowing) (answer : Answer) :
    (b.absorb answer).1.phase = answer.phase := by
  cases answer with
  | served bytes =>
    cases bytes with
    | nil => rfl
    | cons x bytes => exact flowing
  | failed f => simp only [absorb, turn, phaseAfter, Answer.phase, flowing]

theorem absorbNotes {b : Buffer} (sound : b.Sound) (atFront : b.start = 0) (answer : Answer) :
    (b.absorb answer).2 = answer.notes b.window.length := by
  have waiting : b.window.length = b.stop := by
    rw [windowLength sound, filled, atFront, Nat.sub_zero]
  rw [waiting]
  cases answer with
  | served bytes => cases bytes <;> rfl
  | failed f => rfl

theorem sameTurns {b c : Buffer} (same : c.phase = b.phase) : b.Turns [] c := by
  have none : ∀ note ∈ ([] : List Note), note.aside = true := by simp
  rw [Turns, same]
  exact .other none

end Buffer

theorem Feed.stepTurns {f g : Feed} {events : List Event} (fit : f.Fit)
    (step : Step f events g) : f.buffer.Turns events g.buffer := by
  cases step with
  | shift => exact Buffer.sameTurns rfl
  | refill flowing atFront room =>
    have trace : f.once.trace = .pull ⟨f.buffer.room, (f.below.read f.buffer.room).answer⟩
        (f.below.read f.buffer.room).beneath ::
          ((f.below.read f.buffer.room).answer.notes f.buffer.window.length).map .note := by
      rw [← Buffer.absorbNotes fit.buffer atFront]
      rfl
    rw [onceState, Buffer.Turns, Buffer.absorbPhase flowing, flowing, trace]
    exact .refill (roomPositive fit.buffer flowing room)
  | giveUp past empty =>
    have size := Buffer.windowLength fit.buffer
    rw [empty] at size
    rw [Buffer.Turns, past]
    exact .giveUp (List.length_eq_zero_iff.mp size)

theorem passNotes (l : Lookahead) : ∃ notes : List Note, l.pass.trace = notes.map .note ∧
    ∀ note ∈ notes, note.aside = true := by
  unfold Lookahead.pass
  simp only
  split
  · exact ⟨[], rfl, by simp⟩
  · split
    · exact ⟨_, rfl, by simp [Note.aside]⟩
    · exact ⟨_, rfl, by simp [Note.aside]⟩

inductive Reader.Once (r : Reader) : List Event → Reader → Prop where
  | alone (notes : List Note) : Once r (notes.map .note) r
  | read (n : Nat) (notes : List Note) :
      Once r ((r.pull n).trace ++ notes.map .note) (r.read n).reader

theorem Feed.stepOnce {f g : Feed} {events : List Event} (step : Step f events g) :
    f.below.Once events g.below := by
  cases step with
  | shift => exact .alone []
  | refill flowing atFront room => exact .read f.buffer.room _
  | giveUp past empty => exact .alone [.spent]

namespace Mounted

theorem stepOnce {m k : Mounted} {events : List Event} (step : Step m events k) :
    m.below.Once events k.below := by
  cases step with
  | feed step => exact Feed.stepOnce step
  | scan grained step =>
    cases step with
    | feed step => exact Feed.stepOnce step
    | pass more =>
      rename_i stock
      obtain ⟨notes, trace, -⟩ := passNotes (m.lookahead stock)
      have same : (m.withLookahead (m.lookahead stock).pass.state).below = m.below :=
        congrArg Feed.below (passQuiet (m.lookahead stock) 0).2
      rw [trace, same]
      exact .alone notes
    | full crowded none => exact .alone [.full]

theorem actOnce {m k : Mounted} {events : List Event} (act : Act m events k) :
    m.below.Once events k.below := by
  cases act with
  | look step => exact stepOnce step
  | spend spends => exact .alone []
  | copy enough => exact .alone []
  | read asked => exact .read _ []

end Mounted

theorem notesApart (notes : List Note) (before : List Event) {own : Exchange}
    {beneath : List Exchange} {after : List Event} :
    notes.map .note ≠ before ++ Event.pull own beneath :: after := by
  intro same
  have member : Event.pull own beneath ∈ notes.map .note := by
    rw [same]
    exact List.mem_append_right _ List.mem_cons_self
  obtain ⟨note, -, told⟩ := List.mem_map.mp member
  exact Event.noConfusion told

theorem readFirst {r s : Reader} {events before after : List Event} {own : Exchange}
    {beneath : List Exchange} (once : r.Once events s)
    (parts : events = before ++ .pull own beneath :: after) :
    before = [] ∧ (r.pull own.offered).trace = [.pull own beneath] := by
  cases once with
  | alone notes => exact absurd parts (notesApart notes before)
  | read n notes =>
    cases before with
    | nil =>
      obtain ⟨same, -⟩ := List.cons.inj parts
      cases same
      exact ⟨rfl, rfl⟩
    | cons event before => exact absurd (List.cons.inj parts).2 (notesApart notes before)

theorem readAround {step : Mounted → List Event → Mounted → Prop}
    (once : ∀ {j u events}, step j events u → j.below.Once events u.below) {m k : Mounted}
    {events before after : List Event} {own : Exchange} {beneath : List Exchange}
    (chain : Chain step m events k) (parts : events = before ++ .pull own beneath :: after) :
    ∃ j u rest, Chain step m before j ∧ step j (.pull own beneath :: rest) u ∧
      (j.below.pull own.offered).trace = [.pull own beneath] := by
  obtain ⟨j, u, first, earlier, rest, steps, here, rfl⟩ := chain.around parts
  obtain ⟨rfl, read⟩ := readFirst (once here) rfl
  rw [List.append_nil]
  exact ⟨j, u, rest, steps, here, read⟩

theorem onceUnread {r s : Reader} {events : List Event} (once : r.Once events s)
    (unread : events.filterMap (Event.atDepth 0) = []) : s = r := by
  cases once with
  | alone notes => rfl
  | read n notes => contradiction

theorem Mounted.actsBelow {m k : Mounted} {events : List Event} (chain : Chain Act m events k)
    (unread : events.filterMap (Event.atDepth 0) = []) : k.below = m.below := by
  induction chain with
  | rest m => rfl
  | next head tail ih =>
    rw [List.filterMap_append] at unread
    obtain ⟨first, later⟩ := List.append_eq_nil_iff.mp unread
    exact (ih later).trans (onceUnread (actOnce head) first)

namespace Mounted

theorem stepTurns {m k : Mounted} {events : List Event} (fit : m.Fit) (step : Step m events k) :
    m.scanner.buffer.Turns events k.scanner.buffer := by
  cases step with
  | feed step => exact Feed.stepTurns (feedFit fit) step
  | scan grained step =>
    cases step with
    | feed step => exact Feed.stepTurns (feedFit fit) step
    | pass more =>
      rename_i stock
      obtain ⟨notes, trace, aside⟩ := passNotes (m.lookahead stock)
      have same : (m.lookahead stock).pass.state.feed.buffer = m.scanner.buffer :=
        congrArg Feed.buffer (passQuiet (m.lookahead stock) 0).2
      rw [trace]
      simp only [withLookahead, same]
      exact .other aside
    | full crowded none =>
      have aside : ∀ note ∈ [Note.full], note.aside = true := by simp [Note.aside]
      exact .other aside

theorem actTurns {m k : Mounted} {events : List Event} (fit : m.Fit) (act : Act m events k) :
    m.scanner.buffer.Turns events k.scanner.buffer := by
  cases act with
  | look step => exact stepTurns fit step
  | spend spends => exact Buffer.sameTurns spends.phase
  | copy enough =>
    refine Buffer.sameTurns ?_
    rw [(deliverBuffer m.scanner _ none).2, quietPhase]
  | @read n more asked =>
    obtain ⟨short, flowing, rest⟩ := Buffer.demandFlowing asked
    have turned : (m.scanner.deliver n (some (m.below.read more).answer)).2.buffer.phase =
        (m.below.read more).answer.phase := by
      rw [(deliverBuffer m.scanner n _).2, heardPhase, Buffer.absorbPhase flowing]
    have room : 0 < (Exchange.mk more (m.below.read more).answer).offered := by
      simp only
      omega
    rw [Buffer.Turns, turned, flowing]
    exact .read room

def Turning (m : Mounted) (events : List Event) (k : Mounted) : Prop :=
  Act m events k ∧ m.scanner.buffer.Turns events k.scanner.buffer

theorem actsTurning {m k : Mounted} {events : List Event} (fit : m.Fit)
    (chain : Chain Act m events k) : Chain Turning m events k :=
  chain.lift id Fit (fun _ _ _ fit act => ⟨actFit fit act, act, actTurns fit act⟩) fit

theorem turningTurns {m k : Mounted} {events : List Event} (chain : Chain Turning m events k) :
    Chain Buffer.Turns m.scanner.buffer events k.scanner.buffer :=
  chain.lift (fun m => m.scanner.buffer) (fun _ => True)
    (fun _ _ _ _ turning => ⟨trivial, turning.2⟩) trivial

end Mounted

def heard (reads : List Exchange) : Phase :=
  reads.getLast?.elim .flowing fun read => read.answer.phase

/-- Reads that were answered with data or interrupted, all but the last, and what is known of the
reader beneath after them. -/
structure Hearing (reads : List Exchange) (phase : Phase) : Prop where
  rooms : ∀ read ∈ reads, 0 < read.offered
  flowing : reads.Pairwise fun earlier _ => earlier.answer.phase = .flowing
  heard : (heard reads).Leads phase

/-- Notes that tell of the end once, and then of no refill. -/
structure Orderly (notes : List Note) : Prop where
  final : notes.countP Note.final ≤ 1
  spent : notes.count .spent ≤ 1
  last : notes.Pairwise fun earlier later =>
    earlier.final = true ∨ earlier = .spent → later.refills = false

namespace Phase

variable {p q r : Phase}

theorem leadsSame (p : Phase) : p.Leads p := by
  cases p <;> simp [Leads]

theorem leadsTwice (first : p.Leads q) (later : q.Leads r) : p.Leads r := by
  cases p with
  | ended =>
    rcases first with rfl | rfl
    · exact later
    · exact .inr later
  | flowing | broken kind | spent =>
    cases first
    exact later

theorem leadsSettled (settled : p ≠ .flowing) (leads : p.Leads q) : q ≠ .flowing := by
  cases p with
  | flowing => exact absurd rfl settled
  | ended => rcases leads with rfl | rfl <;> simp
  | broken kind | spent =>
    cases leads
    simp

theorem leadsFlowing (leads : p ≠ .flowing → p.Leads q) (flowing : q = .flowing) :
    p = .flowing :=
  Decidable.of_not_not fun settled => leadsSettled settled (leads settled) flowing

theorem turnsSettled {window : Bytes} {events : List Event} (settled : p ≠ .flowing)
    (turns : p.Turns window events q) : p.Leads q ∧ ∃ notes : List Note,
      events = notes.map .note ∧ ∀ note ∈ notes, note.final = false ∧ note.refills = false := by
  cases turns with
  | refill room => exact absurd rfl settled
  | read room => exact absurd rfl settled
  | giveUp empty => exact ⟨.inr rfl, [.spent], rfl, by simp [Note.final, Note.refills]⟩
  | @other _ notes aside =>
    refine ⟨leadsSame p, notes, rfl, fun note member => ?_⟩
    have only := aside note member
    cases note <;> simp [Note.aside] at only <;> exact ⟨rfl, rfl⟩

end Phase

section Hearing

variable {own : Exchange} {reads : List Exchange} {phase : Phase}

theorem hearingNothing (flowing : phase = .flowing) : Hearing [] phase :=
  ⟨by simp, .nil, flowing⟩

theorem hearingMore (room : 0 < own.offered) (more : own.answer.phase = .flowing)
    (hearing : Hearing reads phase) : Hearing (own :: reads) phase := by
  refine ⟨List.forall_mem_cons.mpr ⟨room, hearing.rooms⟩,
    List.pairwise_cons.mpr ⟨fun _ _ => more, hearing.flowing⟩, ?_⟩
  have told := hearing.heard
  cases reads with
  | nil =>
    rw [heard, List.getLast?_singleton, Option.elim_some, more]
    exact told
  | cons next later => exact told

theorem hearingLast (room : 0 < own.offered) (leads : own.answer.phase.Leads phase) :
    Hearing [own] phase :=
  ⟨List.forall_mem_singleton.mpr room, List.pairwise_singleton _ _, leads⟩

end Hearing

theorem notesNoted (notes : List Note) : (notes.map Event.note).filterMap Event.note? = notes := by
  rw [List.filterMap_map]
  exact List.filterMap_some

theorem notesUnread (notes : List Note) (depth : Nat) :
    (notes.map Event.note).filterMap (Event.atDepth depth) = [] := by
  rw [List.filterMap_map]
  exact List.filterMap_none notes

theorem Phase.turnsUnspent {window : Bytes} {p q : Phase} {events : List Event}
    (settled : p ≠ .flowing) (past : p ≠ .ended) (turns : p.Turns window events q) :
    q = p ∧ .spent ∉ events.filterMap Event.note? := by
  cases turns with
  | refill room => exact absurd rfl settled
  | read room => exact absurd rfl settled
  | giveUp empty => exact absurd rfl past
  | other aside =>
    rw [notesNoted]
    exact ⟨rfl, fun member => absurd (aside _ member) (by simp [Note.aside])⟩

namespace Buffer

variable {b c : Buffer} {events : List Event}

theorem settledTurns (chain : Chain Turns b events c) (settled : b.phase ≠ .flowing) :
    b.phase.Leads c.phase ∧ events.filterMap (Event.atDepth 0) = [] ∧
      ∀ note ∈ events.filterMap Event.note?, note.final = false ∧ note.refills = false := by
  induction chain with
  | rest b => exact ⟨Phase.leadsSame _, rfl, by simp⟩
  | next head tail ih =>
    obtain ⟨leads, notes, rfl, quiet⟩ := Phase.turnsSettled settled head
    obtain ⟨further, unread, later⟩ := ih (Phase.leadsSettled settled leads)
    refine ⟨Phase.leadsTwice leads further, ?_, fun note member => ?_⟩
    · rw [List.filterMap_append, notesUnread, unread]
      rfl
    · rw [List.filterMap_append, notesNoted] at member
      exact (List.mem_append.mp member).elim (quiet note) (later note)

theorem spentTurns (chain : Chain Turns b events c) (settled : b.phase ≠ .flowing)
    (past : b.phase ≠ .ended) : .spent ∉ events.filterMap Event.note? := by
  induction chain with
  | rest b => exact List.not_mem_nil
  | next head tail ih =>
    obtain ⟨same, unspent⟩ := Phase.turnsUnspent settled past head
    rw [← same] at settled past
    rw [List.filterMap_append, List.mem_append, not_or]
    exact ⟨unspent, ih settled past⟩

end Buffer

section Orderly

variable {first later : List Note} {note : Note}

theorem orderlyAside (aside : ∀ note ∈ first, note.final = false ∧ note ≠ .spent)
    (orderly : Orderly later) : Orderly (first ++ later) := by
  refine ⟨?_, ?_, List.pairwise_append.mpr ⟨?_, orderly.last, ?_⟩⟩
  · rw [List.countP_append, List.countP_eq_zero.mpr fun note member => by simp [aside note member],
      Nat.zero_add]
    exact orderly.final
  · rw [List.count_append, List.count_eq_zero_of_not_mem fun member => (aside _ member).2 rfl,
      Nat.zero_add]
    exact orderly.spent
  · refine List.pairwise_of_forall_mem_list fun earlier member _ _ told => ?_
    exact absurd told (by simp [aside earlier member])
  · intro earlier member _ _ told
    exact absurd told (by simp [aside earlier member])

theorem orderlyFinal (final : note.final = true) (orderly : Orderly later)
    (quiet : ∀ note ∈ later, note.final = false ∧ note.refills = false) :
    Orderly (note :: later) := by
  have other : note ≠ .spent := by
    rintro rfl
    contradiction
  refine ⟨?_, ?_, List.pairwise_cons.mpr ⟨fun after member _ => (quiet after member).2,
    orderly.last⟩⟩
  · rw [List.countP_cons_of_pos final,
      List.countP_eq_zero.mpr fun note member => by simp [quiet note member]]
  · rw [List.count_cons_of_ne other]
    exact orderly.spent

theorem orderlySpent (orderly : Orderly later) (once : .spent ∉ later)
    (quiet : ∀ note ∈ later, note.final = false ∧ note.refills = false) :
    Orderly (.spent :: later) := by
  refine ⟨?_, ?_, List.pairwise_cons.mpr ⟨fun after member _ => (quiet after member).2,
    orderly.last⟩⟩
  · rw [List.countP_cons_of_neg (by simp [Note.final])]
    exact orderly.final
  · rw [List.count_cons_self, List.count_eq_zero_of_not_mem once]

theorem asideNotes {notes : List Note} (aside : ∀ note ∈ notes, note.aside = true) :
    ∀ note ∈ notes, note.final = false ∧ note ≠ .spent := by
  intro note member
  have only := aside note member
  cases note <;> simp_all [Note.aside, Note.final]

end Orderly

namespace Buffer

variable {b c : Buffer} {events : List Event}

theorem orderlyTurns (chain : Chain Turns b events c) : Orderly (events.filterMap Event.note?) := by
  induction chain with
  | rest b => exact ⟨Nat.zero_le _, Nat.zero_le _, .nil⟩
  | @next b d c first later head tail ih =>
    have quiet := fun settled => (settledTurns tail settled).2.2
    have once := spentTurns tail
    rw [List.filterMap_append]
    unfold Turns at head
    generalize d.phase = phase at head quiet once
    generalize b.phase = before at head
    cases head with
    | @refill own beneath room =>
      rw [List.filterMap_cons_none rfl, notesNoted]
      cases told : own.answer with
      | served bytes =>
        rw [told] at quiet
        cases bytes with
        | nil => exact orderlyFinal rfl ih (quiet (by simp [Answer.phase]))
        | cons x bytes => exact orderlyAside (by simp [Answer.notes, Note.final]) ih
      | failed f =>
        rw [told] at quiet
        simp only [Answer.notes, Answer.phase] at quiet ⊢
        split
        · exact ih
        · rename_i lasting
          exact orderlyFinal rfl ih (quiet (by simp [lasting]))
    | read room => exact ih
    | giveUp empty =>
      exact orderlySpent ih (once (by simp) (by simp)) (quiet (by simp))
    | other aside =>
      rw [notesNoted]
      exact orderlyAside (asideNotes aside) ih

theorem heardTurns (chain : Chain Turns b events c) (flowing : b.phase = .flowing) :
    Hearing (events.filterMap (Event.atDepth 0)) c.phase := by
  induction chain with
  | rest b => exact hearingNothing flowing
  | @next b d c first later head tail ih =>
    have settled := fun past => (settledTurns tail past).imp_right And.left
    rw [List.filterMap_append]
    unfold Turns at head
    generalize d.phase = phase at head ih settled
    generalize b.phase = before at head flowing
    have read : ∀ {own : Exchange}, 0 < own.offered → phase = own.answer.phase →
        Hearing (own :: later.filterMap (Event.atDepth 0)) c.phase := by
      rintro own room rfl
      by_cases more : own.answer.phase = .flowing
      · exact hearingMore room more (ih more)
      · obtain ⟨leads, none⟩ := settled more
        rw [none]
        exact hearingLast room leads
    cases head with
    | @refill own beneath room =>
      have first : (Event.pull own beneath ::
          (own.answer.notes b.window.length).map .note).filterMap (Event.atDepth 0) = [own] :=
        congrArg (own :: ·) (notesUnread _ 0)
      rw [first]
      exact read room rfl
    | read room => exact read room rfl
    | giveUp empty => contradiction
    | other aside =>
      rw [notesUnread]
      exact ih flowing

end Buffer

namespace Session

theorem endHeardOnce {below : Reader} (reachable : Reachable below) (grain : Grain)
    (settings : Settings) {earlier later : List Request}
    (own : ∀ request ∈ earlier ++ later, Own request) :
    let top := start grain settings below
    let between := last top earlier
    ∃ m k : Mounted, between = m.reader ∧ last between later = k.reader ∧
      Chain Mounted.Turning ⟨.fresh grain settings.granted, below⟩ (life top earlier) m ∧
      Chain Mounted.Turning m (life between later) k ∧
      Hearing ((life top earlier).filterMap (Event.atDepth 0)) m.scanner.buffer.phase ∧
      (m.scanner.buffer.phase ≠ .flowing →
        m.scanner.buffer.phase.Leads k.scanner.buffer.phase ∧ k.below = m.below ∧
          (life between later).filterMap (Event.atDepth 0) = [] ∧
          ∀ o ∈ run between later, o.reads = []) ∧
      Orderly ((run top (earlier ++ later)).flatMap Outcome.notes) := by
  intro top between
  have fit : (Mounted.mk (.fresh grain settings.granted) below).Fit :=
    ⟨freshFit grain (grantedPositive settings), reachableFit reachable⟩
  have before := fun request member => own request (List.mem_append_left later member)
  have after := fun request member => own request (List.mem_append_right earlier member)
  obtain ⟨m, between', first⟩ := lifeActs fit before
  have further := Mounted.actsFit fit first
  obtain ⟨k, final, second⟩ := lifeActs further after
  have turning := Mounted.actsTurning fit first
  have turning' := Mounted.actsTurning further second
  have reached : between = m.reader := between'
  rw [reached]
  refine ⟨m, k, rfl, final, turning, turning', ?_, fun settled => ?_, ?_⟩
  · exact Buffer.heardTurns (Mounted.turningTurns turning) rfl
  · obtain ⟨leads, unread, _⟩ := Buffer.settledTurns (Mounted.turningTurns turning') settled
    exact ⟨leads, Mounted.actsBelow second unread, unread, lifeUnread further after unread⟩
  · have whole := lifeNotes fit own
    obtain ⟨final, -, both⟩ := lifeActs fit own
    have orderly := Buffer.orderlyTurns (Mounted.turningTurns (Mounted.actsTurning fit both))
    rw [← whole] at orderly
    exact orderly

def reviving : Reader := .script ⟨[.data [0x61], .data [], .data [0x62]], none, none⟩

theorem endHeardOnceReviving :
    let top := start .bytes ⟨4⟩ reviving
    let between := last top [.ask .next, .read 2]
    Reachable reviving ∧
      (∀ request ∈ [.ask .next, .read 2] ++ [.ask .next, .read 1], Own request) ∧
      ∃ m k : Mounted, between = m.reader ∧ last between [.ask .next, .read 1] = k.reader ∧
        Chain Mounted.Turning ⟨.fresh .bytes 4, reviving⟩ (life top [.ask .next, .read 2]) m ∧
        Chain Mounted.Turning m (life between [.ask .next, .read 1]) k ∧
        Hearing ((life top [.ask .next, .read 2]).filterMap (Event.atDepth 0))
          m.scanner.buffer.phase ∧
        (m.scanner.buffer.phase ≠ .flowing →
          m.scanner.buffer.phase.Leads k.scanner.buffer.phase ∧ k.below = m.below ∧
            (life between [.ask .next, .read 1]).filterMap (Event.atDepth 0) = [] ∧
            ∀ o ∈ run between [.ask .next, .read 1], o.reads = []) ∧
        Orderly ((run top ([.ask .next, .read 2] ++ [.ask .next, .read 1])).flatMap
          Outcome.notes) := by
  have own : ∀ request ∈ [.ask .next, .read 2] ++ [.ask .next, .read 1], Own request := by
    simp [Own]
  exact ⟨.stream _, own, endHeardOnce (.stream _) .bytes ⟨4⟩ own⟩

end Session
end Readahead
