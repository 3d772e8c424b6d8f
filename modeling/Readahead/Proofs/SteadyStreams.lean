import Readahead.Proofs.ByteFlow

/-! Streams that end once and for all: no answer of theirs is an end that later reads get past, and
the failure at the end comes again with every read. Over such a stream, a layer that has heard of
the end knows no less than one that will read on, however far either of them has read. -/
namespace Readahead

def ScriptEvent.bytes : ScriptEvent → Bytes
  | .data bytes => bytes
  | .failure _ => []

def ScriptEvent.Mild : ScriptEvent → Prop
  | .data bytes => bytes ≠ []
  | .failure f => f.Passing

namespace Script

def payload (s : Script) : Bytes := s.pending.flatMap ScriptEvent.bytes

def finish (s : Script) : Finish := s.tail.elim .ended fun f => .failed f.kind

structure Steady (s : Script) : Prop where
  moving : s.chunk ≠ some 0
  mild : ∀ event ∈ s.pending, event.Mild
  lasting : ∀ f, s.tail = some f → f = .ofKind f.kind ∧ ¬f.Passing

theorem steadyFront {s : Script} (steady : s.Steady) : s.front = ⟨s.payload, s.finish⟩ := by
  obtain ⟨pending, chunk, tail⟩ := s
  obtain ⟨moving, mild, lasting⟩ := steady
  simp only [front, payload, finish] at *
  induction pending with
  | nil => rfl
  | cons event rest ih =>
    have later := ih fun other member => mild other (List.mem_cons_of_mem _ member)
    have first := mild event List.mem_cons_self
    cases event with
    | failure f =>
      have passing : f.Passing := first
      rw [frontFrom, if_pos passing, later]
      rfl
    | data bytes =>
      have some : ¬(bytes.isEmpty ∨ chunk = some 0) := by
        rintro (empty | nought)
        · exact first (List.isEmpty_iff.mp empty)
        · exact moving nought
      rw [frontFrom, if_neg some, later]
      rfl

theorem unreadMild {bytes : Bytes} {rest : List ScriptEvent} (mild : ∀ event ∈ rest, event.Mild) :
    ∀ event ∈ unread bytes rest, event.Mild := by
  cases bytes with
  | nil => exact mild
  | cons b bytes =>
    intro event member
    rcases List.mem_cons.mp member with rfl | later
    · exact List.cons_ne_nil b bytes
    · exact mild event later

theorem readSteady {s : Script} (steady : s.Steady) (n : Nat) : (s.read n).2.Steady ∧
    ∀ f, (s.read n).1 = .failed f → f.Passing ∨ f = .ofKind f.kind := by
  obtain ⟨pending, chunk, tail⟩ := s
  obtain ⟨moving, mild, lasting⟩ := steady
  unfold read
  split
  · exact ⟨⟨moving, mild, lasting⟩, fun f told => by contradiction⟩
  cases pending with
  | nil =>
    cases tail with
    | none => exact ⟨⟨moving, mild, lasting⟩, fun f told => by contradiction⟩
    | some last =>
      refine ⟨⟨moving, mild, lasting⟩, fun f told => .inr ?_⟩
      cases Answer.failed.inj told
      exact (lasting last rfl).1
  | cons event rest =>
    have later := fun other member => mild other (List.mem_cons_of_mem _ member)
    cases event with
    | failure g =>
      refine ⟨⟨moving, later, lasting⟩, fun f told => .inl ?_⟩
      cases Answer.failed.inj told
      exact mild (.failure g) List.mem_cons_self
    | data bytes => exact ⟨⟨moving, unreadMild later, lasting⟩, fun f told => by contradiction⟩

theorem readFinish (s : Script) (n : Nat) : (s.read n).2.finish = s.finish := by
  obtain ⟨pending, chunk, tail⟩ := s
  unfold read
  split
  · rfl
  · cases pending with
    | nil => cases tail <;> rfl
    | cons event rest => cases event <;> rfl

theorem readBare {s : Script} (steady : s.Steady) (bare : s.payload = []) (n : Nat) :
    (s.read n).2.front = s.front := by
  have payload : (s.read n).2.payload = [] := by
    obtain ⟨pending, chunk, tail⟩ := s
    unfold read
    split
    · exact bare
    cases pending with
    | nil => cases tail <;> rfl
    | cons event rest =>
      have first := steady.mild event List.mem_cons_self
      simp only [Script.payload, List.flatMap_cons, List.append_eq_nil_iff] at bare
      cases event with
      | failure g => exact bare.2
      | data bytes => exact absurd bare.1 first
  rw [steadyFront (readSteady steady n).1, steadyFront steady, payload, bare, readFinish]

end Script

def Phase.Agrees (beneath : Front) : Phase → Prop
  | .flowing => True
  | .broken kind => beneath = ⟨[], .failed kind⟩
  | .ended | .spent => beneath = ⟨[], .ended⟩

def Reader.Steady : Reader → Prop
  | .script s => s.Steady
  | .scanner s below => s.buffer.phase.Agrees below.front ∧ below.Steady
  | .remainder _ below => below.Steady

theorem agreesFront {b : Buffer} {beneath : Front} (agrees : b.phase.Agrees beneath) :
    b.front beneath = beneath.behind b.window := by
  unfold Buffer.front
  cases phase : b.phase with
  | flowing => rfl
  | broken kind =>
    rw [phase] at agrees
    have same : beneath = ⟨[], .failed kind⟩ := agrees
    rw [same, Front.behind, List.append_nil]
  | ended | spent =>
    rw [phase] at agrees
    have same : beneath = ⟨[], .ended⟩ := agrees
    rw [same, Front.behind, List.append_nil]

def Front.Stays (before after : Front) : Prop := before.bytes = [] → after = before

theorem absorbAgrees {b : Buffer} {before after : Front} {answer : Answer}
    (flowing : b.phase = .flowing) (told : before.Answers after answer)
    (stays : before.Stays after) : (b.absorb answer).1.phase.Agrees after := by
  cases answer with
  | served bytes =>
    cases bytes with
    | nil =>
      simp only [Front.Answers] at told
      have same := stays (by rw [told])
      exact same.trans told
    | cons x bytes =>
      have phase : (b.append (x :: bytes)).phase = .flowing := flowing
      rw [Buffer.absorb, phase]
      trivial
  | failed f =>
    simp only [Front.Answers] at told
    by_cases passing : f.Passing
    · simp only [Buffer.absorb, Buffer.turnPhase, Buffer.phaseAfter, if_pos passing, flowing]
      trivial
    · rw [if_neg passing] at told
      have same := stays (by rw [told])
      simp only [Buffer.absorb, Buffer.turnPhase, Buffer.phaseAfter, if_neg passing]
      exact same.trans told

theorem heardPhase {b : Buffer} (n : Nat) (answer : Answer) :
    (b.deliver n (some answer)).2.phase = (b.absorb answer).1.phase := by
  cases answer with
  | served bytes => cases bytes <;> rfl
  | failed f => rfl

theorem quietPhase (b : Buffer) (n : Nat) : (b.deliver n none).2.phase = b.phase := by
  unfold Buffer.deliver
  simp only
  split <;> rfl

theorem deliverWindow (b : Buffer) (n : Nat) (heard : Option Answer) :
    (b.deliver n heard).2.window = b.window.drop (b.window.take n).length := by
  rw [← Buffer.dropWindow]
  unfold Buffer.deliver
  simp only
  split
  · rfl
  · rfl
  · rfl
  · split <;> rfl

theorem scannerStays {s t : Scanner} {below left : Reader} {n : Nat} {heard : Option Answer}
    (drained : t.buffer = (s.buffer.deliver n heard).2) (agrees : s.buffer.phase.Agrees below.front)
    (further : t.buffer.phase.Agrees left.front) (stays : below.front.Stays left.front) :
    (Reader.scanner s below).front.Stays (Reader.scanner t left).front := by
  intro bare
  rw [scannerFront, agreesFront agrees] at bare
  obtain ⟨window, ends⟩ := List.append_eq_nil_iff.mp bare
  have empty : t.buffer.window = [] := by
    rw [drained, deliverWindow, window, List.drop_nil]
  rw [scannerFront, scannerFront, agreesFront agrees, agreesFront further, empty, window,
    stays ends]

theorem readSteady {r : Reader} (fit : r.Fit) (steady : r.Steady) (n : Nat) :
    (r.read n).reader.Steady ∧ r.front.Stays (r.read n).reader.front ∧
      ∀ f, (r.read n).answer = .failed f → f.Passing ∨ f = .ofKind f.kind := by
  induction r generalizing n with
  | script s =>
    obtain ⟨further, plain⟩ := Script.readSteady steady n
    refine ⟨further, fun bare => Script.readBare steady ?_ n, plain⟩
    rw [Reader.front, Script.steadyFront steady] at bare
    exact bare
  | scanner s below ih =>
    obtain ⟨agrees, beneath⟩ := steady
    unfold Reader.read
    cases asked : s.buffer.demand n with
    | none =>
      have drained := (deliverBuffer s n none).2
      have further : (s.deliver n none).2.buffer.phase.Agrees below.front := by
        rw [drained, quietPhase]
        exact agrees
      have stays := scannerStays drained agrees further fun _ => rfl
      refine ⟨⟨further, beneath⟩, stays, fun f told => ?_⟩
      simp only [(deliverBuffer s n none).1] at told
      obtain ⟨kind, broken, rfl⟩ := quietFailure told
      exact .inr rfl
    | some m =>
      -- The end that is recorded is the one beneath, and the reader beneath stays at it.
      obtain ⟨later, stays, plain⟩ := ih fit.2 beneath m
      obtain ⟨short, flowing, rest⟩ := Buffer.demandFlowing asked
      have drained := (deliverBuffer s n (some (below.read m).answer)).2
      have told := below.readAnswers (n := m) (by omega) (fitSound fit.2)
      have further : (s.deliver n (some (below.read m).answer)).2.buffer.phase.Agrees
          (below.read m).reader.front := by
        rw [drained, heardPhase]
        exact absorbAgrees flowing told stays
      refine ⟨⟨further, later⟩, scannerStays drained agrees further stays, fun f told => ?_⟩
      simp only [(deliverBuffer s n _).1] at told
      exact plain f (heardFailure fit.1.buffer asked told).1
  | remainder pending below ih =>
    cases pending with
    | nil => exact ih fit steady n
    | cons b pending =>
      refine ⟨steady, fun bare => ?_, fun f told => by contradiction⟩
      exact absurd (List.append_eq_nil_iff.mp bare).1 (List.cons_ne_nil _ _)

theorem steadyEnds {r : Reader} (steady : r.Steady) : r.front.finish ≠ .failed .interrupted := by
  induction r with
  | script s =>
    rw [Reader.front, Script.steadyFront steady]
    intro stuck
    simp only [Script.finish] at stuck
    cases tail : s.tail with
    | none => rw [tail] at stuck; contradiction
    | some f =>
      rw [tail] at stuck
      exact (steady.lasting f tail).2 (Finish.failed.inj stuck)
  | scanner s below ih =>
    rw [scannerFront, agreesFront steady.1]
    exact ih steady.2
  | remainder pending below ih => exact ih steady

theorem Feed.stepSteady {f g : Feed} {events : List Event} (fit : f.Fit)
    (steady : f.buffer.phase.Agrees f.below.front ∧ f.below.Steady) (step : Step f events g) :
    g.buffer.phase.Agrees g.below.front ∧ g.below.Steady := by
  cases step with
  | shift => exact steady
  | refill flowing atFront room =>
    obtain ⟨later, stays, plain⟩ := readSteady fit.below steady.2 f.buffer.room
    have told := f.below.readAnswers (roomPositive fit.buffer flowing room) (fitSound fit.below)
    rw [onceState]
    exact ⟨absorbAgrees flowing told stays, later⟩
  | giveUp past empty =>
    obtain ⟨agrees, beneath⟩ := steady
    rw [past] at agrees
    exact ⟨agrees, beneath⟩

namespace Mounted

theorem stepSteady {m k : Mounted} {events : List Event} (fit : m.Fit) (steady : m.reader.Steady)
    (step : Step m events k) : k.reader.Steady := by
  cases step with
  | feed step => exact Feed.stepSteady (feedFit fit) steady step
  | scan grained step =>
    cases step with
    | feed step => exact Feed.stepSteady (feedFit fit) steady step
    | pass more =>
      rename_i stock
      have same := (passQuiet (m.lookahead stock) 0).2
      rw [withLookahead, same]
      exact steady
    | full crowded none => exact steady

theorem chainSteady {m k : Mounted} {events : List Event} (chain : Chain Step m events k)
    (fit : m.Fit) (steady : m.reader.Steady) : k.reader.Steady :=
  (chain.keeps (fun m => m.Fit ∧ m.reader.Steady)
    (fun _ _ _ kept step => ⟨(stepExtends kept.1 step).1, stepSteady kept.1 kept.2 step⟩)
    ⟨fit, steady⟩).2

end Mounted
end Readahead
