import Readahead.Proofs.FailureRecurs
import Readahead.Proofs.LookThenSkip

/-! How far a scanner over scalars can always look ahead: four bytes of the capacity are enough for
each scalar, whatever the scalars are and wherever they begin. A request that fits in this way fails
only by the input, and a buffer that is full of a single sequence holds no more than three bytes. -/
namespace Readahead

/-- The input itself lacks a scalar at this position: there are fewer before bytes that are no
UTF-8, before the end, which may come within a sequence, or before a failure. -/
inductive Front.Withholds (front : Front) (offset n : Nat) : Fault → Prop where
  | malformed {text : Utf8.Text} {tail : Bytes} (few : text.length < n)
      (parts : front.bytes = Utf8.encode text ++ tail) (some : tail ≠ []) (shut : ¬Utf8.Opens tail)
      (unspelled : ∀ c rest, tail ≠ Utf8.spell c ++ rest) :
      Withholds front offset n (.invalid (offset + (Utf8.encode text).length))
  | truncated {text : Utf8.Text} {tail : Bytes} (few : text.length < n)
      (whole : front = ⟨Utf8.encode text ++ tail, .ended⟩) (some : tail ≠ [])
      (opens : Utf8.Opens tail) :
      Withholds front offset n (.truncated (offset + (Utf8.encode text).length))
  | exhausted (positive : 0 < n) (whole : front = ⟨[], .ended⟩) :
      Withholds front offset n .nothingLeft
  | ended {text : Utf8.Text} (few : text.length < n) (some : text ≠ [])
      (whole : front = ⟨Utf8.encode text, .ended⟩) :
      Withholds front offset n (.tooFew n text.length)
  | failed {text : Utf8.Text} {tail : Bytes} {kind : FailureKind} (few : text.length < n)
      (whole : front = ⟨Utf8.encode text ++ tail, .failed kind⟩) (opens : Utf8.Opens tail) :
      Withholds front offset n (.stream kind)

theorem withheldFits {front : Front} {offset n : Nat} {fault : Fault}
    (withheld : front.Withholds offset n fault) :
    fault ≠ .stuck ∧ ∀ asked capacity, fault ≠ .tooLarge asked capacity := by
  cases withheld <;> exact ⟨Fault.noConfusion, fun _ _ => Fault.noConfusion⟩

namespace Prospect

variable {p : Prospect} {n : Nat}

theorem sightFull (full : p.capacity ≤ p.front.bytes.length) : p.sight.length = p.capacity := by
  rw [sight, List.length_take]
  exact Nat.min_eq_left full

theorem sightWhole (room : ¬p.capacity ≤ p.front.bytes.length) : p.sight = p.front.bytes :=
  List.take_of_length_le (Nat.le_of_not_le room)

theorem malformedWithheld {text : Utf8.Text} {tail : Bytes} (few : text.length < n)
    (parts : p.sight = Utf8.encode text ++ tail) (shut : Utf8.decode tail = ⟨[], .invalid⟩)
    (offset : Nat) :
    p.front.Withholds offset n (.invalid (offset + (Utf8.encode text).length)) := by
  have refused : (Utf8.decode tail).rest = .invalid := by rw [shut]
  have further := (Utf8.refusalStays (p.front.bytes.drop p.capacity) refused).trans shut
  obtain ⟨some, shut, unspelled⟩ := (Utf8.invalidExactly _).mp further
  refine .malformed few ?_ some shut unspelled
  rw [← List.append_assoc, ← parts, sight, List.take_append_drop]

theorem refusalWithheld (grained : p.grain = .scalars) (fits : 4 * n ≤ p.capacity)
    (short : p.items.length < n) :
    p.front.Withholds p.progress.place.offset n (p.refusal n) := by
  have few := short
  rw [scalarItems grained] at few
  rw [scalarRefusal grained (by omega)]
  have parts := Utf8.decodeParts p.sight
  have shut := (Utf8.restTells p.sight).1
  have read := Utf8.decodeTail p.sight
  have bytes := Utf8.encodeShort (Utf8.text (Utf8.decode p.sight).scalars)
  generalize (Utf8.decode p.sight).rest = rest at shut read
  generalize Utf8.text (Utf8.decode p.sight).scalars = text at *
  generalize p.sight.drop (Utf8.decode p.sight).span = tail at *
  unfold Front.refusal
  split
  · rename_i refused
    rw [shut.mpr refused] at read
    exact malformedWithheld few parts read _
  rename_i unrefused
  have opens := Utf8.opensUnless unrefused
  split
  · rename_i full
    -- At most four bytes for each of fewer than `n` scalars, and three more.
    have size := congrArg List.length parts
    rw [sightFull full, List.length_append] at size
    have little := Utf8.opensShort opens
    omega
  rename_i room
  have whole := sightWhole room
  rw [parts] at whole
  cases finish : p.front.finish with
  | failed kind => exact .failed few (by rw [whole, ← finish]) opens
  | ended =>
    simp only
    split
    · rename_i some
      exact .truncated few (by rw [whole, ← finish]) some opens
    rename_i none
    rw [Decidable.not_not.mp none, List.append_nil] at whole
    split
    · rename_i empty
      rw [empty] at whole
      exact .exhausted (by omega) (by rw [← finish]; exact congrArg (Front.mk · _) whole.symm)
    · rename_i some
      exact .ended few some (by rw [whole, ← finish])

theorem refusalStuck (grained : p.grain = .scalars) (stuck : p.refusal n = .stuck) :
    n ≤ p.capacity ∧ p.sight.length = p.capacity ∧ Utf8.Opens p.sight := by
  have fits : n ≤ p.capacity := by
    refine Nat.le_of_not_lt fun large => ?_
    rw [refusal, grained] at stuck
    exact Fault.noConfusion ((if_pos large).symm.trans stuck)
  rw [scalarRefusal grained fits] at stuck
  unfold Front.refusal at stuck
  split at stuck
  · contradiction
  rename_i unrefused
  split at stuck
  · rename_i full
    split at stuck
    · rename_i none
      have scalars := List.map_eq_nil_iff.mp none
      have span : (Utf8.decode p.sight).span = 0 := by
        rw [Utf8.Decoding.span, scalars]
        rfl
      rw [span, List.drop_zero] at unrefused
      exact ⟨fits, sightFull full, Utf8.opensUnless unrefused⟩
    · contradiction
  · split at stuck
    · contradiction
    · split at stuck
      · contradiction
      · split at stuck <;> contradiction

end Prospect

structure Scanner.Jammed (s : Scanner) : Prop where
  narrow : s.capacity ≤ 3
  full : s.window.length = s.capacity
  opens : Utf8.Opens s.window

namespace Mounted

variable {m : Mounted} {n : Nat} {fault : Fault}

theorem skipFails (positive : 0 < n) (failed : (m.skip n).result = .error fault) :
    (m.look n).result = .error fault ∧ (m.skip n).state = (m.look n).state := by
  have some : n ≠ 0 := Nat.ne_of_gt positive
  unfold skip at failed ⊢
  unfold look
  rw [if_neg some] at failed ⊢
  rw [if_neg some]
  rw [Run.andThenResult] at failed
  simp only [Run.andThenResult, Run.andThenState]
  cases verdict : (m.reach n).result with
  | ok _ =>
    rw [verdict] at failed
    contradiction
  | error other =>
    rw [verdict] at failed
    cases Except.error.inj failed
    exact ⟨rfl, rfl⟩

theorem scalarsLeft (fit : m.Fit) (grained : m.scanner.ahead.grain = .scalars) (n : Nat) :
    (m.look n).state.prospect = m.prospect := by
  rw [(lookYields fit n).left, Prospect.look]
  split
  · rfl
  · exact Prospect.triedScalars grained n

theorem sightHeld (fit : m.Fit) (grained : m.scanner.ahead.grain = .scalars) (positive : 0 < n)
    (fits : n ≤ m.scanner.capacity) (full : m.prospect.sight.length = m.scanner.capacity)
    (opens : Utf8.Opens m.prospect.sight) (unwanted : ¬m.Wants n) :
    m.scanner.window = m.prospect.sight := by
  have within := windowSight fit
  refine within.eq_of_length_le (Nat.le_of_not_lt fun room => unwanted ?_)
  have opens : Utf8.Opens m.scanner.window := Utf8.opensBefore within opens
  refine ⟨fits, Decidable.of_not_not fun settled => ?_, ?_⟩
  · rw [Prospect.sight, List.length_take] at room
    have bytes : m.prospect.front.bytes = m.scanner.window := Buffer.frontSettled settled _
    rw [bytes] at room
    omega
  · obtain ⟨none, sound⟩ := Utf8.opensDecode opens
    rw [Scanner.Lacks, grained]
    exact ⟨full ▸ room, by rw [none]; exact positive, sound⟩

theorem stuckJams (fit : m.Fit) (grained : m.scanner.ahead.grain = .scalars) (positive : 0 < n)
    (failed : (m.look n).result = .error .stuck) : (m.look n).state.scanner.Jammed := by
  have yields := lookYields fit n
  have same := scalarsLeft fit grained n
  have unwanted := lookSettled fit failed Fault.noConfusion
  rw [yields.result, Prospect.lookRefused (Nat.ne_of_gt positive)] at failed
  obtain ⟨fits, full, opens⟩ := Prospect.refusalStuck grained failed.2
  have further := yields.fit
  generalize (m.look n).state = k at same unwanted further
  rw [← same] at fits full opens
  have grain : k.scanner.ahead.grain = .scalars := (congrArg Prospect.grain same).trans grained
  have held := sightHeld further grain positive fits full opens unwanted
  rw [← held] at full opens
  exact ⟨Nat.le_trans (Nat.le_of_eq full.symm) (Utf8.opensShort opens), full, opens⟩

theorem promiseKept (reachable : Session.Reachable m.reader)
    (grained : m.scanner.ahead.grain = .scalars) (positive : 0 < n) :
    (4 * n ≤ m.scanner.capacity → ∀ fault,
      (m.look n).result = .error fault ∨ (m.skip n).result = .error fault →
        fault ≠ .stuck ∧ (∀ asked capacity, fault ≠ .tooLarge asked capacity) ∧
          ∀ front, m.Obtains front → front.Withholds m.scanner.place.offset n fault) ∧
      ((m.look n).result = .error .stuck → (m.look n).state.scanner.Jammed) ∧
      ((m.skip n).result = .error .stuck → (m.skip n).state.scanner.Jammed) := by
  have fit := readerFit (Session.reachableFit reachable)
  refine ⟨fun fits fault failed => ?_, stuckJams fit grained positive, fun stuck => ?_⟩
  · have failed := failed.elim id fun skipped => (skipFails positive skipped).1
    rw [(lookYields fit n).result, Prospect.lookRefused (Nat.ne_of_gt positive)] at failed
    obtain ⟨short, rfl⟩ := failed
    have withheld := Prospect.refusalWithheld (p := m.prospect) grained fits short
    obtain ⟨free, small⟩ := withheldFits withheld
    refine ⟨free, small, fun front obtains => ?_⟩
    rw [obtainsFront fit obtains]
    exact withheld
  · obtain ⟨looked, same⟩ := skipFails positive stuck
    rw [same]
    exact stuckJams fit grained positive looked

theorem promiseKeptDivided :
    let m : Mounted := (Mounted.skip 1 ⟨.fresh .scalars 4, .script .divided⟩).state
    let narrow : Mounted := ⟨.fresh .scalars 3, .script ⟨[.data (Utf8.spell '🎉')], some 1, none⟩⟩
    Session.Reachable m.reader ∧ m.scanner.ahead.grain = .scalars ∧ 4 * 1 ≤ m.scanner.capacity ∧
      (m.look 1).result = .error (.stream .brokenPipe) ∧
      m.Obtains ⟨[0xE2], .failed .brokenPipe⟩ ∧
      Front.Withholds ⟨[0xE2], .failed .brokenPipe⟩ m.scanner.place.offset 1
        (.stream .brokenPipe) ∧
      Session.Reachable narrow.reader ∧ (narrow.skip 1).result = .error .stuck ∧
      (narrow.skip 1).state.scanner.Jammed := by
  intro m narrow
  have start : Session.Reachable (Mounted.mk (.fresh .scalars 4) (.script .divided)).reader :=
    Session.reachableStart (.stream .divided) .scalars ⟨4⟩
  have reachable : Session.Reachable m.reader := .performed start (.ask (.skip 1))
  have obtains : m.Obtains ⟨[0xE2], .failed .brokenPipe⟩ := by
    have granted : (Mounted.skip 1 ⟨.fresh .scalars 4, .script .divided⟩).result = .ok () := by
      decide +kernel
    have later := (skipObtains (readerFit (Session.reachableFit start))
      ⟨_, fun _ => dividedDelivers, rfl⟩ granted).1
    have front : m.front = ⟨[0xE2], .failed .brokenPipe⟩ := by decide +kernel
    rwa [← front]
  have grained : m.scanner.ahead.grain = .scalars := by decide +kernel
  have told : (m.look 1).result = .error (.stream .brokenPipe) := by decide +kernel
  have room : 4 * 1 ≤ m.scanner.capacity := by decide +kernel
  have kept := (promiseKept reachable grained Nat.one_pos).1 room _ (.inl told)
  have other : Session.Reachable narrow.reader := Session.reachableStart (.stream _) .scalars ⟨3⟩
  have stuck : (narrow.skip 1).result = .error .stuck := by decide +kernel
  exact ⟨reachable, grained, room, told, obtains, kept.2.2 _ obtains, other, stuck,
    (promiseKept other rfl Nat.one_pos).2.2 stuck⟩

end Mounted
end Readahead
