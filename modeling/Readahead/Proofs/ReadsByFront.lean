import Readahead.Drain
import Readahead.Proofs.QueryYields
import Readahead.Proofs.FrontDelivered

/-! What a stack shows of itself from above: its kind, and the front or the prospect that it has.
Raw reads are passed over as bytes, so a reader that reads on is told by the number of bytes that
went by, in however many reads. -/
namespace Readahead

inductive Standing where
  | stream (front : Front)
  | leftover (front : Front)
  | scanner (prospect : Prospect)
  deriving DecidableEq, Repr

def Prospect.pass (n : Nat) (p : Prospect) : Prospect :=
  { p with front := p.front.drop n, progress := p.progress.pass n }

namespace Standing

def front : Standing → Front
  | .stream front => front
  | .leftover front => front
  | .scanner p => p.front

def pass (n : Nat) : Standing → Standing
  | .stream front => .stream (front.drop n)
  | .leftover front => .leftover (front.drop n)
  | .scanner p => .scanner (p.pass n)

theorem passNothing (s : Standing) : s.pass 0 = s := by
  cases s <;> rfl

theorem passTwice (s : Standing) (first later : Nat) :
    (s.pass first).pass later = s.pass (first + later) := by
  cases s <;> simp [pass, Prospect.pass, Progress.pass, Front.drop, Nat.add_assoc]

end Standing

def Reader.standing : Reader → Standing
  | .script s => .stream s.front
  | .scanner s below => .scanner (Mounted.mk s below).prospect
  | .remainder pending below => .leftover (below.front.behind pending)

theorem standingFront (r : Reader) : r.standing.front = r.front := by
  cases r <;> rfl

theorem answersDrop {before after : Front} {answer : Answer} (told : before.Answers after answer)
    (stays : before.Stays after) : after = before.drop answer.bytes.length := by
  cases answer with
  | served bytes =>
    cases bytes with
    | nil =>
      simp only [Front.Answers] at told
      rw [stays (by rw [told])]
      rfl
    | cons b bytes =>
      simp only [Front.Answers] at told
      rw [told, Front.drop, Front.behind, Answer.bytes, List.drop_left]
  | failed f =>
    simp only [Front.Answers] at told
    split at told
    · exact told
    · rw [stays (by rw [told])]
      rfl

theorem deliverGrain (s : Scanner) (n : Nat) (heard : Option Answer) :
    (s.deliver n heard).2.ahead.grain = s.ahead.grain := by
  rw [deliverAhead]
  cases s.ahead <;> rfl

theorem deliverCapacity (s : Scanner) (n : Nat) (heard : Option Answer) :
    (s.deliver n heard).2.capacity = s.capacity := by
  rw [Scanner.capacity, (deliverBuffer s n heard).2]
  unfold Buffer.deliver
  simp only
  split
  · rfl
  · rfl
  · rfl
  · split <;> rfl

theorem deliverStanding {s : Scanner} {below left : Reader} {n : Nat} {heard : Option Answer}
    (front : (Reader.scanner (s.deliver n heard).2 left).front =
      (Reader.scanner s below).front.drop (s.deliver n heard).1.bytes.length)
    (spent : (s.deliver n heard).2.buffer.phase = .spent ↔ s.buffer.phase = .spent) :
    (Reader.scanner (s.deliver n heard).2 left).standing =
      (Reader.scanner s below).standing.pass (s.deliver n heard).1.bytes.length := by
  rw [Reader.standing, Reader.standing, Standing.pass, Prospect.pass]
  simp only [Mounted.prospect, deliverGrain, deliverCapacity, deliverProgress, spent,
    Standing.scanner.injEq, Prospect.mk.injEq, true_and, and_true]
  exact front

theorem readStanding {r : Reader} (fit : r.Fit) (steady : r.Steady) {n : Nat} (room : 0 < n) :
    (r.read n).reader.standing = r.standing.pass (r.read n).answer.bytes.length := by
  have told := r.readAnswers room (fitSound fit)
  have drop := answersDrop told (readSteady fit steady n).2.1
  cases r with
  | script s => exact congrArg Standing.stream drop
  | scanner s below =>
    unfold Reader.read at drop ⊢
    cases asked : s.buffer.demand n with
    | none =>
      rw [asked] at drop
      refine deliverStanding drop ?_
      rw [(deliverBuffer s n none).2, quietPhase]
    | some m =>
      rw [asked] at drop
      have flowing := (Buffer.demandFlowing asked).2.1
      refine deliverStanding drop ?_
      rw [(deliverBuffer s n _).2, heardPhase, flowing]
      exact ⟨fun spent => absurd spent (Buffer.absorbLive flowing _), fun spent => by contradiction⟩
  | remainder pending below =>
    cases pending with
    | nil => exact congrArg Standing.leftover drop
    | cons b pending => exact congrArg Standing.leftover drop

theorem deliverNothing (b : Buffer) : b.deliver 0 none = (.served [], b) := by
  unfold Buffer.deliver
  cases b.phase <;> simp [Buffer.drop]

theorem readNothing (r : Reader) : (r.read 0).answer = .served [] ∧
    (r.read 0).reader.standing = r.standing := by
  induction r with
  | script s => exact ⟨rfl, rfl⟩
  | scanner s below ih =>
    have asked : s.buffer.demand 0 = none := if_neg fun need => Nat.not_lt_zero _ need.1
    obtain ⟨answer, buffer⟩ := deliverBuffer s 0 none
    rw [deliverNothing] at answer buffer
    have front : (Reader.scanner (s.deliver 0 none).2 below).front =
        (Reader.scanner s below).front := by rw [scannerFront, buffer, scannerFront]
    have standing : (Reader.scanner (s.deliver 0 none).2 below).standing =
        (Reader.scanner s below).standing.pass (s.deliver 0 none).1.bytes.length :=
      deliverStanding (by rw [front, answer]; rfl) (by rw [buffer])
    rw [answer] at standing
    unfold Reader.read
    rw [asked]
    exact ⟨answer, standing.trans (Standing.passNothing _)⟩
  | remainder pending below ih =>
    cases pending with
    | nil =>
      have front : (below.read 0).reader.front = below.front := by
        rw [← standingFront, ih.2, standingFront]
      exact ⟨ih.1, congrArg Standing.leftover front⟩
    | cons b pending => exact ⟨rfl, rfl⟩

def Finish.failure : Finish → Failure
  | .ended => Reader.tooShort
  | .failed kind => .ofKind kind

def Front.exactly (n : Nat) (f : Front) : Except Failure Bytes :=
  if n ≤ f.bytes.length then .ok (f.bytes.take n) else .error f.finish.failure

def Front.drained (f : Front) : Reader.Drained :=
  ⟨f.bytes, match f.finish with
    | .ended => none
    | .failed kind => some (.ofKind kind)⟩

theorem exactlyBehind {bytes : Bytes} {n : Nat} (few : bytes.length ≤ n) (f : Front) :
    (f.behind bytes).exactly n = (f.exactly (n - bytes.length)).map (bytes ++ ·) := by
  unfold Front.exactly
  simp only [Front.behind, List.length_append]
  by_cases enough : n ≤ bytes.length + f.bytes.length
  · rw [if_pos enough, if_pos (by omega), Except.map, List.take_append,
      List.take_of_length_le few]
  · rw [if_neg enough, if_neg (by omega)]
    rfl

theorem exactlyNothing (f : Front) : f.exactly 0 = .ok [] := rfl

theorem exactlyBare {n : Nat} (positive : n ≠ 0) (finish : Finish) :
    (Front.mk [] finish).exactly n = .error finish.failure :=
  if_neg fun few => positive (Nat.le_zero.mp few)

theorem exactlyFurther (got more : Bytes) (result : Except Failure Bytes) :
    result.map (got ++ more ++ ·) = (result.map (more ++ ·)).map (got ++ ·) := by
  cases result with
  | ok bytes => exact congrArg Except.ok (List.append_assoc _ _ _)
  | error f => rfl

structure Reader.Passes (r s : Reader) (n : Nat) : Prop where
  fit : s.Fit
  steady : s.Steady
  standing : s.standing = r.standing.pass n

theorem passesSame {r : Reader} (fit : r.Fit) (steady : r.Steady) : r.Passes r 0 :=
  ⟨fit, steady, (Standing.passNothing _).symm⟩

theorem passesTwice {r s t : Reader} {first later : Nat} (one : r.Passes s first)
    (other : s.Passes t later) : r.Passes t (first + later) :=
  ⟨other.fit, other.steady, by rw [other.standing, one.standing, Standing.passTwice]⟩

theorem passesAgain {r s t : Reader} {n : Nat} (one : r.Passes s 0) (other : s.Passes t n) :
    r.Passes t n := by
  have both := passesTwice one other
  rwa [Nat.zero_add] at both

theorem readPasses {r : Reader} (fit : r.Fit) (steady : r.Steady) {n : Nat} (room : 0 < n) :
    r.Passes (r.read n).reader (r.read n).answer.bytes.length :=
  ⟨readFit fit n, (readSteady fit steady n).1, readStanding fit steady room⟩

inductive Reader.Hears (r : Reader) (n : Nat) : Answer → Prop where
  | ended (bare : r.front = ⟨[], .ended⟩) : Hears r n (.served [])
  | failed {f : Failure} (bare : r.front = ⟨[], .failed f.kind⟩) (plain : f = .ofKind f.kind)
      (lasting : ¬f.Passing) : Hears r n (.failed f)
  | again {f : Failure} (passing : f.Passing) (same : (r.read n).reader.front = r.front)
      (fewer : (r.read n).reader.interruptions < r.interruptions) : Hears r n (.failed f)
  | served {b : UInt8} {bytes : Bytes}
      (front : r.front = (r.read n).reader.front.behind (b :: bytes))
      (few : (b :: bytes).length ≤ n)
      (fewer : (r.read n).reader.interruptions ≤ r.interruptions) : Hears r n (.served (b :: bytes))

theorem readHears {r : Reader} (fit : r.Fit) (steady : r.Steady) {n : Nat} (room : 0 < n) :
    r.Hears n (r.read n).answer := by
  have plain := (readSteady fit steady n).2.2
  generalize told : (r.read n).answer = answer at plain
  have out := readTurnsOut fit (steadyEnds steady) room
  rw [told] at out
  cases out with
  | ended bare => exact .ended bare
  | failed bare lasting => exact .failed bare ((plain _ rfl).resolve_left lasting) lasting
  | again passing same fewer => exact .again passing same fewer
  | served front few fewer => exact .served front few fewer

namespace Reader

theorem exactlyFromTells {fuel left : Nat} (got : Bytes) {r : Reader} (fit : r.Fit)
    (steady : r.Steady) (enough : left + r.interruptions < fuel) :
    (exactlyFrom fuel left got r).result = (r.front.exactly left).map (got ++ ·) ∧
      r.Passes (exactlyFrom fuel left got r).state (min left r.front.bytes.length) := by
  -- Each read takes off a byte that is wanted or an interruption, so the fuel outlasts them.
  induction fuel generalizing left got r with
  | zero => exact absurd enough (Nat.not_lt_zero _)
  | succ fuel ih =>
    unfold exactlyFrom
    split
    · rename_i none
      rw [none, exactlyNothing, Nat.zero_min]
      exact ⟨congrArg Except.ok (List.append_nil got).symm, passesSame fit steady⟩
    rename_i positive
    have room := Nat.pos_of_ne_zero positive
    have hears := readHears fit steady room
    have passes := readPasses fit steady room
    rw [Run.andThenResult, Run.andThenState]
    simp only [pull]
    cases answer : (r.read left).answer with
    | served bytes =>
      rw [answer] at hears passes
      cases bytes with
      | nil =>
        cases hears with
        | ended bare =>
          rw [bare, exactlyBare positive, List.length_nil, Nat.min_zero]
          exact ⟨rfl, passes⟩
      | cons b bytes =>
        cases hears with
        | served front few fewer =>
          have less : left - (b :: bytes).length + (r.read left).reader.interruptions < fuel := by
            simp only [List.length_cons] at few ⊢
            omega
          obtain ⟨result, later⟩ := ih (got ++ b :: bytes) passes.fit passes.steady less
          have both := passesTwice passes later
          rw [← Nat.add_min_add_left, Answer.bytes, Nat.add_sub_cancel' few] at both
          rw [front, exactlyBehind few, ← exactlyFurther, Front.behind, List.length_append]
          exact ⟨result, both⟩
    | failed f =>
      rw [answer] at hears passes
      cases hears with
      | failed bare plain lasting =>
        simp only [if_neg lasting]
        rw [bare, exactlyBare positive, List.length_nil, Nat.min_zero]
        refine ⟨?_, passes⟩
        rw [plain]
        rfl
      | again passing same fewer =>
        have less : left + (r.read left).reader.interruptions < fuel := by omega
        obtain ⟨result, later⟩ := ih got passes.fit passes.steady less
        rw [same] at result later
        simp only [if_pos passing]
        exact ⟨result, passesAgain passes later⟩

theorem exactlyTells {r : Reader} (fit : r.Fit) (steady : r.Steady) (n : Nat) :
    (r.exactly n).result = r.front.exactly n ∧
      r.Passes (r.exactly n).state (min n r.front.bytes.length) := by
  obtain ⟨result, passes⟩ := exactlyFromTells [] fit steady (Nat.lt_succ_self _)
  refine ⟨result.trans ?_, passes⟩
  cases r.front.exactly n <;> rfl

theorem drainFromTells {n fuel : Nat} {r : Reader} (fit : r.Fit) (steady : r.Steady)
    (room : 0 < n) (enough : r.front.bytes.length + r.interruptions < fuel) :
    (drainFrom n fuel r).result = r.front.drained ∧
      r.Passes (drainFrom n fuel r).state r.front.bytes.length := by
  induction fuel generalizing r with
  | zero => exact absurd enough (Nat.not_lt_zero _)
  | succ fuel ih =>
    have hears := readHears fit steady room
    have passes := readPasses fit steady room
    unfold drainFrom
    rw [Run.andThenResult, Run.andThenState]
    simp only [pull]
    cases answer : (r.read n).answer with
    | served bytes =>
      rw [answer] at hears passes
      cases bytes with
      | nil =>
        cases hears with
        | ended bare =>
          rw [bare]
          exact ⟨rfl, passes⟩
      | cons b bytes =>
        cases hears with
        | served front few fewer =>
          have size := congrArg (List.length ∘ Front.bytes) front
          simp only [Function.comp, Front.behind, List.length_append, List.length_cons] at size
          obtain ⟨result, later⟩ := ih passes.fit passes.steady (by omega)
          have both := passesTwice passes later
          rw [front, Front.behind, List.length_append]
          have whole := congrArg (fun d : Drained => { d with bytes := b :: bytes ++ d.bytes }) result
          exact ⟨whole, both⟩
    | failed f =>
      rw [answer] at hears passes
      cases hears with
      | failed bare plain lasting =>
        simp only [if_neg lasting]
        rw [bare]
        refine ⟨?_, passes⟩
        conv => lhs; rw [plain]
        rfl
      | again passing same fewer =>
        obtain ⟨result, later⟩ := ih passes.fit passes.steady (by rw [same]; omega)
        rw [same] at result later
        simp only [if_pos passing]
        exact ⟨result, passesAgain passes later⟩

theorem frontHeld (r : Reader) : r.front.bytes.length ≤ r.held := by
  induction r with
  | script s =>
    obtain ⟨pending, chunk, tail⟩ := s
    simp only [front, Script.front, held, Script.held]
    induction pending with
    | nil => exact Nat.zero_le _
    | cons event rest ih =>
      cases event with
      | failure f =>
        rw [Script.frontFrom]
        split
        · simpa [Script.heldIn, ScriptEvent.size] using ih
        · exact Nat.zero_le _
      | data bytes =>
        rw [Script.frontFrom]
        split
        · exact Nat.zero_le _
        · simpa [Script.heldIn, ScriptEvent.size, Front.behind] using ih
  | scanner s below ih =>
    rw [scannerFront, held, Buffer.front]
    cases s.buffer.phase <;> simp [Scanner.window, Front.behind, ih]
  | remainder pending below ih =>
    simpa [front, held, Front.behind] using ih

theorem drainTells {r : Reader} (fit : r.Fit) (steady : r.Steady) {n : Nat} (room : 0 < n) :
    (r.drain n).result = r.front.drained ∧
      r.Passes (r.drain n).state r.front.bytes.length := by
  have held := frontHeld r
  exact drainFromTells fit steady room (by omega)

theorem drainNothing {r : Reader} (fit : r.Fit) (steady : r.Steady) :
    (r.drain 0).result = ⟨[], none⟩ ∧ r.Passes (r.drain 0).state 0 := by
  obtain ⟨answer, standing⟩ := readNothing r
  unfold drain drainFrom
  rw [Run.andThenResult, Run.andThenState]
  simp only [pull, answer]
  exact ⟨rfl, readFit fit 0, (readSteady fit steady 0).1,
    standing.trans (Standing.passNothing _).symm⟩

end Reader
end Readahead
