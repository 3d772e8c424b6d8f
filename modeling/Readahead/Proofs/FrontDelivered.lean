import Readahead.Proofs.StackInvariant

/-! What a reader delivers, told by reads of any size: every byte up to the first answer that gives
none or fails for good, and which of the two that answer was. It is the front of the reader. -/
namespace Readahead

inductive Reader.Delivers : Reader → Front → Prop where
  | ended {r : Reader} {n : Nat} (room : 0 < n) (told : (r.read n).answer = .served []) :
      Delivers r ⟨[], .ended⟩
  | failed {r : Reader} {n : Nat} {f : Failure} (room : 0 < n)
      (told : (r.read n).answer = .failed f) (lasting : ¬f.Passing) :
      Delivers r ⟨[], .failed f.kind⟩
  | again {r : Reader} {n : Nat} {f : Failure} {left : Front} (room : 0 < n)
      (told : (r.read n).answer = .failed f) (passing : f.Passing)
      (later : Delivers (r.read n).reader left) : Delivers r left
  | served {r : Reader} {n : Nat} {b : UInt8} {bytes : Bytes} {left : Front} (room : 0 < n)
      (told : (r.read n).answer = .served (b :: bytes))
      (later : Delivers (r.read n).reader left) : Delivers r (left.behind (b :: bytes))

theorem deliversFront {r : Reader} {left : Front} (fit : r.Fit) (delivers : r.Delivers left) :
    r.front = left := by
  induction delivers with
  | @ended r n room told =>
    have answers := r.readAnswers room (fitSound fit)
    rw [told] at answers
    exact answers
  | @failed r n f room told lasting =>
    have answers := r.readAnswers room (fitSound fit)
    rw [told] at answers
    simpa only [Front.Answers, lasting, if_false] using answers
  | @again r n f left room told passing later ih =>
    have answers := r.readAnswers room (fitSound fit)
    rw [told] at answers
    simp only [Front.Answers, passing, if_true] at answers
    rw [← answers, ih (readFit fit n)]
  | @served r n b bytes left room told later ih =>
    have answers := r.readAnswers room (fitSound fit)
    rw [told] at answers
    simp only [Front.Answers, ih (readFit fit n)] at answers
    exact answers

inductive Reader.TurnsOut (r : Reader) (n : Nat) : Answer → Prop where
  | ended (bare : r.front = ⟨[], .ended⟩) : TurnsOut r n (.served [])
  | failed {f : Failure} (bare : r.front = ⟨[], .failed f.kind⟩) (lasting : ¬f.Passing) :
      TurnsOut r n (.failed f)
  | again {f : Failure} (passing : f.Passing) (same : (r.read n).reader.front = r.front)
      (fewer : (r.read n).reader.interruptions < r.interruptions) : TurnsOut r n (.failed f)
  | served {b : UInt8} {bytes : Bytes}
      (front : r.front = (r.read n).reader.front.behind (b :: bytes))
      (few : (b :: bytes).length ≤ n)
      (fewer : (r.read n).reader.interruptions ≤ r.interruptions) :
      TurnsOut r n (.served (b :: bytes))

theorem readTurnsOut {r : Reader} (fit : r.Fit) (ends : r.front.finish ≠ .failed .interrupted)
    {n : Nat} (room : 0 < n) : r.TurnsOut n (r.read n).answer := by
  have sound := fitSound fit
  have answers := r.readAnswers room sound
  obtain ⟨fewer, strictly⟩ := readWears sound n
  cases told : (r.read n).answer with
  | served bytes =>
    rw [told] at answers
    cases bytes with
    | nil => exact .ended answers
    | cons b bytes => exact .served answers (readServes sound told) fewer
  | failed f =>
    rw [told] at answers
    simp only [Front.Answers] at answers
    by_cases passing : f.Passing
    · rw [if_pos passing] at answers
      exact .again passing answers
        ((strictly f told passing).resolve_right fun stuck => ends (by rw [stuck]; rfl))
    · rw [if_neg passing] at answers
      exact .failed answers passing

theorem frontDelivered {r : Reader} (fit : r.Fit) (ends : r.front.finish ≠ .failed .interrupted) :
    r.Delivers r.front := by
  generalize size : r.front.bytes.length + r.interruptions = measure
  induction measure using Nat.strongRecOn generalizing r with
  | ind measure ih =>
    have further := readFit fit 1
    generalize told : (r.read 1).answer = answer
    have out := readTurnsOut fit ends Nat.one_pos
    rw [told] at out
    cases out with
    | ended bare =>
      rw [bare]
      exact .ended Nat.one_pos told
    | failed bare lasting =>
      rw [bare]
      exact .failed Nat.one_pos told lasting
    | again passing same fewer =>
      rw [← same] at ends size ⊢
      exact .again Nat.one_pos told passing (ih _ (by omega) further ends rfl)
    | served front few fewer =>
      rw [front] at ends size ⊢
      refine .served Nat.one_pos told (ih _ ?_ further ends rfl)
      simp only [Front.behind, List.length_append, List.length_cons] at size
      omega

/- A scalar cut in two and the start of another, an interruption between and a failure behind. -/
def Script.divided : Script :=
  ⟨[.data [0xC3], .failure (.ofKind .interrupted), .data [0xA9, 0xE2]], some 1,
    some (.ofKind .brokenPipe)⟩

theorem dividedDelivers :
    (Reader.script .divided).Delivers ⟨[0xC3, 0xA9, 0xE2], .failed .brokenPipe⟩ :=
  frontDelivered (r := .script .divided) trivial (by decide)

end Readahead
