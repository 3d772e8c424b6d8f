import Readahead.Proofs.ReadsWanted
import Readahead.Proofs.NothingLost

/-! A look-ahead that failed fails again for as long as nothing is consumed, with the same fault and
without another read. What the scanner had heard and seen then settled the request, and whatever it
is asked meanwhile it only comes to see more of the same front.

A scanner over bytes that was asked for more than fits says so until its storage is given up, and
then that nothing is left. A reader beneath that interrupts for ever gives no answer to speak of,
and the fault that stands for it is left out. -/
namespace Readahead

namespace Feed

variable {f : Feed} {n : Nat} {fault : Fault}

theorem lackingDry (dry : f.Dry) : (lacking n f).state.Dry := by
  unfold lacking
  cases phase : f.buffer.phase with
  | flowing => exact dry
  | broken kind => exact dry
  | ended | spent =>
    simp only
    split
    · exact Phase.noConfusion
    · exact dry

theorem gatherDry (fit : f.Fit) (fits : n ≤ f.buffer.capacity)
    (failed : (f.gather n).result = .error fault) : (f.gather n).state.Dry := by
  unfold gather at failed ⊢
  split
  · rename_i past
    intro flowing
    rw [Run.still, past] at flowing
    contradiction
  rename_i live
  rw [if_neg live, if_neg (Nat.not_lt.mpr fits)] at failed
  rw [if_neg (Nat.not_lt.mpr fits)]
  split
  · rename_i held
    rw [if_pos held] at failed
    contradiction
  rename_i short
  rw [if_neg short] at failed
  change (if n ≤ (filledUp n f).buffer.stop then _ else _ : Run _ _).result = _ at failed
  change Dry (if n ≤ (filledUp n f).buffer.stop then _ else _ : Run Feed _).state
  split
  · rename_i reached
    rw [if_pos reached] at failed
    contradiction
  · rename_i unreached
    exact lackingDry ((filledUpEnds fit (Nat.not_lt.mpr fits)).resolve_left unreached)

theorem gatherHeard (fit : f.Fit) (positive : 0 < n) (fits : n ≤ f.buffer.capacity)
    (failed : (f.gather n).result = .error fault) (heard : fault ≠ .stream .interrupted) :
    (f.gather n).state.buffer.phase ≠ .flowing := by
  intro flowing
  have settled := gatherSettles (n := n) fit
  rw [failed] at settled
  have found := (settlesFault fit positive fits settled).1
  have finish := dryInterrupted (gatherDry fit fits failed) flowing
  rw [(chainExtends (gatherChain n f) fit).front] at finish
  exact heard (found.trans (shortageFailed finish))

end Feed

namespace Lookahead

variable {l : Lookahead} {n : Nat}

def Settled (n : Nat) (r : Run Lookahead (Except Fault Unit)) : Prop :=
  ∀ fault, r.result = .error fault → fault ≠ .stream .interrupted → ¬r.state.Wants n

theorem settleSettled {next : Lookahead → Run Lookahead (Except Fault Unit)} (fit : l.Fit)
    (later : Settled n (next l.scanned)) : Settled n (l.settle n next) := by
  unfold settle
  change Settled n (if n ≤ l.pass.state.stock.count then _ else _)
  rw [passState fit.stock, passResult fit.stock]
  split
  · intro fault failed
    contradiction
  by_cases invalid : (Utf8.decode l.window).rest = .invalid
  · rw [if_pos invalid]
    exact fun _ _ _ wants => wants.sound invalid
  · rw [if_neg invalid]
    exact later

theorem overfullSettled (fit : l.Fit)
    (crowded : l.feed.buffer.capacity < l.feed.buffer.filled + 1) :
    Settled n ((l.overfull n).map .error) := by
  intro fault _ _ wants
  have size : l.window.length = l.feed.buffer.filled := Buffer.windowLength fit.feed.buffer
  have room := wants.room
  rw [Run.map, overfullState] at room
  omega

theorem lackingSettled {fault : Fault} (fit : l.Fit)
    (known : fault ≠ .stream .interrupted → l.feed.buffer.phase ≠ .flowing) :
    Settled n (l.settle n fun m => .still (.error (m.lacking n fault)) m) := by
  refine settleSettled fit fun other failed heard wants => ?_
  refine known (fun endless => heard ?_) wants.flowing
  rw [endless] at failed
  exact (Except.error.inj failed).symm

theorem fillSettled {fuel : Nat} (fit : l.Fit) (fits : n ≤ l.feed.buffer.capacity)
    (enough : l.feed.buffer.capacity < l.window.length + fuel) : Settled n (fill n fuel l) := by
  induction fuel generalizing l with
  | zero =>
    intro fault _ _ wants
    exact Nat.lt_asymm enough wants.room
  | succ fuel ih =>
    unfold fill
    split
    · intro fault failed
      contradiction
    refine settleSettled fit ?_
    split
    · rename_i crowded
      exact overfullSettled (scannedFit fit) crowded
    rename_i free
    change ¬l.feed.buffer.capacity < l.feed.buffer.filled + 1 at free
    have chain := Feed.gatherChain (l.feed.buffer.filled + 1) l.feed
    have settled := Feed.gatherSettles (n := l.feed.buffer.filled + 1) fit.feed
    have known : ∀ fault, (l.feed.gather (l.feed.buffer.filled + 1)).result = .error fault →
        fault ≠ .stream .interrupted →
          (l.feed.gather (l.feed.buffer.filled + 1)).state.buffer.phase ≠ .flowing := fun _ =>
      Feed.gatherHeard fit.feed (Nat.succ_pos _) (Nat.le_of_not_lt free)
    change Settled n ((l.feed.gather (l.feed.buffer.filled + 1)).andThen _)
    generalize l.feed.gather (l.feed.buffer.filled + 1) = asked at chain settled known ⊢
    obtain ⟨result, f, trace⟩ := asked
    have further := chainFit (fedChain l.scanned chain) (scannedFit fit)
    have capacity : f.buffer.capacity = l.feed.buffer.capacity :=
      (Feed.chainExtends chain fit.feed).capacity
    cases result with
    | ok _ =>
      change Settled n (fill n fuel (l.scanned.fed f))
      exact ih further (by rw [fed, capacity]; exact fits) (grantedLonger fit chain settled enough)
    | error fault => exact lackingSettled further (known fault rfl)

theorem gatherSettled (fit : l.Fit) : Settled n (l.gather n) := by
  unfold gather
  split
  · rename_i large
    exact fun _ _ _ wants => Nat.not_lt.mpr wants.fits large
  · exact fillSettled fit (by omega) (by omega)

end Lookahead

namespace Mounted

variable {m k : Mounted} {n : Nat} {fault : Fault}

theorem reachSettled (fit : m.Fit) (positive : 0 < n) (failed : (m.reach n).result = .error fault)
    (heard : fault ≠ .stream .interrupted) : ¬(m.reach n).state.Wants n := by
  unfold reach at failed ⊢
  cases grained : m.scanner.ahead with
  | bytes =>
    rw [grained] at failed
    intro wants
    by_cases fits : n ≤ m.scanner.capacity
    · exact Feed.gatherHeard (feedFit fit) positive fits failed heard wants.flowing
    · have same := (chainExtends (reachBytesChain n m) fit).capacity
      have within := wants.fits
      simp only [same] at within
      exact fits within
  | scalars stock =>
    rw [grained] at failed
    intro wants
    obtain ⟨fits, flowing, room, short, sound⟩ := wants
    exact Lookahead.gatherSettled (lookaheadFit fit grained) fault failed heard
      ⟨fits, flowing, room, short, sound⟩

theorem lookSettled (fit : m.Fit) (failed : (m.look n).result = .error fault)
    (heard : fault ≠ .stream .interrupted) : ¬(m.look n).state.Wants n := by
  unfold look at failed ⊢
  split
  · rename_i none
    intro wants
    have lacks := wants.lacks
    unfold Scanner.Lacks at lacks
    rw [none] at lacks
    split at lacks
    · exact Nat.not_lt_zero _ lacks
    · exact Nat.not_lt_zero _ lacks.2.1
  rename_i positive
  rw [if_neg positive] at failed
  change ¬(m.reach n).state.Wants n
  cases verdict : (m.reach n).result with
  | error other =>
    rw [Run.andThenResult, verdict] at failed
    cases Except.error.inj failed
    exact reachSettled fit (Nat.pos_of_ne_zero positive) verdict heard
  | ok _ =>
    have ready := reachReady fit verdict
    rw [Run.andThenResult, verdict] at failed
    change ((m.reach n).state.scanner.items[n - 1]?).elim _ _ = _ at failed
    rw [List.getElem?_eq_getElem (by omega)] at failed
    contradiction

structure Stands (m k : Mounted) : Prop where
  fit : k.Fit
  extended : m.Extends k
  leads : m.scanner.buffer.phase ≠ .flowing → m.scanner.buffer.phase.Leads k.scanner.buffer.phase

theorem standsSame (fit : m.Fit) : m.Stands m := ⟨fit, extendsSame m, fun _ => Phase.leadsSame _⟩

theorem standsTwice {l : Mounted} (first : m.Stands l) (later : l.Stands k) : m.Stands k :=
  ⟨later.fit, extendsTwice first.extended later.extended, fun settled =>
    have leads := first.leads settled
    Phase.leadsTwice leads (later.leads (Phase.leadsSettled settled leads))⟩

theorem serveStands (fit : m.Fit) {query : Query}
    (nothing : m.takes query (m.serve query).result = []) : m.Stands (m.serve query).state := by
  have acts := serveActs fit query
  refine ⟨actsFit fit acts, serveExtends fit nothing, fun settled => ?_⟩
  exact (Buffer.settledTurns (turningTurns (actsTurning fit acts)) settled).1

theorem queriesStand {queries : List Query} (fit : m.Fit)
    (nothing : Session.taken m.reader (queries.map .ask) = []) :
    ∃ k : Mounted, Session.last m.reader (queries.map .ask) = k.reader ∧ m.Stands k := by
  induction queries generalizing m with
  | nil => exact ⟨m, rfl, standsSame fit⟩
  | cons query rest ih =>
    obtain ⟨first, later⟩ := List.append_eq_nil_iff.mp nothing
    have stands := serveStands fit first
    obtain ⟨k, final, further⟩ := ih stands.fit later
    exact ⟨k, final, standsTwice stands further⟩

theorem standsWants (stands : m.Stands k) (wants : k.Wants n) : m.Wants n :=
  wantsBefore stands.extended (Phase.leadsFlowing stands.leads) wants

end Mounted

namespace Prospect

variable {p q : Prospect} {n : Nat} {fault : Fault}

theorem lookRefused (positive : n ≠ 0) :
    (p.look n).result = .error fault ↔ p.items.length < n ∧ p.refusal n = fault := by
  rw [look, if_neg positive, Turn.still]
  cases seen : p.items[n - 1]? with
  | none =>
    have short := List.getElem?_eq_none_iff.mp seen
    exact ⟨fun same => ⟨by omega, Except.error.inj same⟩, fun refused => congrArg _ refused.2⟩
  | some item =>
    have inside := (List.getElem?_eq_some_iff.mp seen).1
    exact ⟨fun same => by contradiction, fun refused => by omega⟩

theorem refusalInterrupted (told : p.refusal n = .stream .interrupted) :
    p.front.finish = .failed .interrupted := by
  unfold refusal Front.refusal Front.shortage at told
  cases finish : p.front.finish with
  | failed kind => grind
  | ended => grind

theorem skipRefused (short : p.items.length < n) : (p.skip n).result = .error (p.refusal n) := by
  rw [skip, if_neg (by omega), if_neg (by omega)]
  rfl

end Prospect

namespace Mounted

variable {m k : Mounted} {n : Nat} {fault : Fault}

theorem patientLook {front : Front} (fit : m.Fit) (obtains : m.Obtains front) :
    (m.look n).result ≠ .error (.stream .interrupted) := by
  intro told
  rw [(lookYields fit n).result] at told
  by_cases none : n = 0
  · rw [Prospect.look, if_pos none] at told
    exact Fault.noConfusion (Except.error.inj told)
  have finish : m.front.finish = .failed .interrupted :=
    Prospect.refusalInterrupted ((Prospect.lookRefused none).mp told).2
  rw [← obtainsFront fit obtains] at finish
  exact obtainsPatient fit obtains finish

def recurring (n : Nat) (fault : Fault) (k : Mounted) : Fault :=
  if k.scanner.ahead.grain = .bytes ∧ k.scanner.capacity < n ∧ k.scanner.buffer.phase = .spent
  then .nothingLeft else fault

theorem standsItems (stands : m.Stands k) : k.prospect.items = m.prospect.items := by
  simp only [Prospect.items, Prospect.sight, prospect, stands.extended.front,
    stands.extended.capacity, stands.extended.grain]

theorem standsRefusal (stands : m.Stands k) (n : Nat) :
    k.prospect.refusal n = k.recurring n (m.prospect.refusal n) := by
  have leads := stands.leads
  have spentFront := Feed.spentFront (feedFit stands.fit)
  obtain ⟨front, capacity, window, progress, grain⟩ := stands.extended
  obtain grained | grained : m.scanner.ahead.grain = .bytes ∨ m.scanner.ahead.grain = .scalars := by
    cases m.scanner.ahead.grain <;> simp
  · change k.scanner.buffer.phase = .spent → k.front = _ at spentFront
    rw [front] at spentFront
    simp only [recurring, Prospect.refusal, prospect, front, capacity, grain, grained, true_and,
      decide_eq_true_eq]
    by_cases spent : k.scanner.buffer.phase = .spent
    · have shortage : m.front.shortage n = .nothingLeft := by
        rw [spentFront spent]
        rfl
      simp only [spent, shortage, if_true, and_true]
      split
      · rfl
      · split <;> rfl
    · have live : m.scanner.buffer.phase ≠ .spent := by
        intro spent'
        rw [spent'] at leads
        exact spent (leads Phase.noConfusion)
      simp only [spent, live, and_false, if_false]
  · simp only [recurring, Prospect.refusal, Prospect.sight, prospect, front, capacity, progress,
      grain, grained, false_and, if_false, reduceCtorEq]

theorem lookRecurs (fit : m.Fit) (failed : (m.look n).result = .error fault)
    (stands : m.Stands k) : (k.look n).result = .error (k.recurring n fault) ∧
      (n ≠ 0 → (k.skip n).result = .error (k.recurring n fault)) := by
  rw [(lookYields fit n).result] at failed
  rw [(lookYields stands.fit n).result, (skipYields stands.fit n).result]
  by_cases none : n = 0
  · subst none
    have same : k.recurring 0 fault = fault :=
      if_neg fun large => Nat.not_lt_zero _ large.2.1
    rw [same]
    exact ⟨failed, fun some => absurd rfl some⟩
  · obtain ⟨short, found⟩ := (Prospect.lookRefused none).mp failed
    rw [← standsItems stands] at short
    have refusal := standsRefusal stands n
    rw [found] at refusal
    rw [← refusal]
    exact ⟨(Prospect.lookRefused none).mpr ⟨short, rfl⟩, fun _ => Prospect.skipRefused short⟩

/- Whatever is asked between, if it took nothing. What recurs is the fault itself, but that a
request for more bytes than fit may find the storage given up. -/
theorem failureRecurs (reachable : Session.Reachable m.reader)
    (failed : (m.look n).result = .error fault) (heard : fault ≠ .stream .interrupted)
    {queries : List Query}
    (nothing : Session.taken (m.look n).state.reader (queries.map .ask) = []) :
    ∃ k : Mounted, Session.last (m.look n).state.reader (queries.map .ask) = k.reader ∧
      (k.look n).trace.filterMap (Event.atDepth 0) = [] ∧
      (k.look n).result = .error (k.recurring n fault) ∧
      (n ≠ 0 → (k.skip n).result = .error (k.recurring n fault)) ∧
      ((k.look n).result = .error .nothingLeft → ∀ more : List Query,
        Session.taken k.reader (more.map .ask) = [] →
          ∃ l : Mounted, Session.last k.reader (more.map .ask) = l.reader ∧
            (l.look n).result = .error .nothingLeft) := by
  have fit := readerFit (Session.reachableFit reachable)
  have first : m.Stands (m.serve (.look n)).state := serveStands fit rfl
  obtain ⟨k, final, later⟩ := queriesStand first.fit nothing
  have unwanted : ¬k.Wants n := fun wants => lookSettled fit failed heard (standsWants later wants)
  obtain ⟨look, skip⟩ := lookRecurs fit failed (standsTwice first later)
  refine ⟨k, final, lookUnread later.fit unwanted, look, skip, fun spent more none => ?_⟩
  obtain ⟨l, last, further⟩ := queriesStand later.fit none
  have again := (lookRecurs later.fit spent further).1
  rw [recurring, ite_self] at again
  exact ⟨l, last, again⟩

theorem failureRecursDivided :
    let m : Mounted := ⟨.fresh .scalars 4, .script .divided⟩
    let between := [.look 4, .meetsBytes [0xC3, 0xA9, 0xE2], .skip 3].map Request.ask
    Session.Reachable m.reader ∧ (m.look 2).result = .error (.stream .brokenPipe) ∧
      Session.taken (m.look 2).state.reader between = [] ∧
      ∃ k : Mounted, Session.last (m.look 2).state.reader between = k.reader ∧
        (k.look 2).trace.filterMap (Event.atDepth 0) = [] ∧
        (k.look 2).result = .error (k.recurring 2 (.stream .brokenPipe)) ∧
        (k.skip 2).result = .error (k.recurring 2 (.stream .brokenPipe)) := by
  intro m between
  have reachable : Session.Reachable m.reader :=
    Session.reachableStart (.stream .divided) .scalars ⟨4⟩
  have failed : (m.look 2).result = .error (.stream .brokenPipe) := by decide +kernel
  have nothing : Session.taken (m.look 2).state.reader between = [] := by decide +kernel
  obtain ⟨k, final, unread, look, skip, _⟩ := failureRecurs reachable failed (by decide) nothing
  exact ⟨reachable, failed, nothing, k, final, unread, look, skip (by decide)⟩

-- A request for more than fits is answered by another fault after one that found nothing.
example :
    let m : Mounted := ⟨.fresh .bytes 2, .script ⟨[], none, none⟩⟩
    (m.look 3).result = .error (.tooLarge 3 2) ∧
      ((m.look 3).state.look 1).state.recurring 3 (.tooLarge 3 2) = .nothingLeft := by decide

end Mounted
end Readahead
