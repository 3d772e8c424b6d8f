import Readahead.Front.Reading

/-! What every layer of a stack keeps whatever is read from it: its buffer is sound and its stock
spells out the window. A read never changes the order of the layers, and uses up one interruption
whenever it reports one, unless the stream does nothing else any more. -/
namespace Readahead

def Ahead.Spells : Ahead → Bytes → Prop
  | .bytes, _ => True
  | .scalars stock, window => stock.Covers window

structure Scanner.Fit (s : Scanner) : Prop where
  buffer : s.buffer.Sound
  ahead : s.ahead.Spells s.window

def Reader.Fit : Reader → Prop
  | .script _ => True
  | .scanner s below => s.Fit ∧ below.Fit
  | .remainder _ below => below.Fit

def Front.stuck : Front := ⟨[], .failed .interrupted⟩

theorem fitSound {r : Reader} (fit : r.Fit) : r.Sound := by
  induction r with
  | script s => trivial
  | scanner s below ih => exact ⟨fit.1.buffer, ih fit.2⟩
  | remainder pending below ih => exact ih fit

theorem emptyCovers (window : Bytes) : Stock.empty.Covers window :=
  ⟨Nat.zero_le _, rfl, by simp [Stock.empty], by simp [Stock.empty, Utf8.text, Utf8.encode]⟩

theorem clearSpells (ahead : Ahead) (window : Bytes) : ahead.clear.Spells window := by
  cases ahead with
  | bytes => trivial
  | scalars stock => exact emptyCovers window

theorem freshSpells (grain : Grain) (window : Bytes) : (Ahead.fresh grain).Spells window := by
  cases grain with
  | bytes => trivial
  | scalars => exact emptyCovers window

theorem freshFit (grain : Grain) {capacity : Nat} (positive : 0 < capacity) :
    (Scanner.fresh grain capacity).Fit :=
  ⟨Buffer.freshSound positive, freshSpells grain _⟩

namespace Buffer

theorem turnSound {b : Buffer} {phase : Phase} (sound : b.Sound) (live : b.phase ≠ .spent)
    (kept : phase ≠ .spent) (lasting : phase ≠ .broken .interrupted) : (b.turn phase).Sound :=
  ⟨sound.ordered, sound.bounded, sound.positive, fun _ => sound.stored live,
    fun spent => absurd spent kept, lasting⟩

theorem afterKept {b : Buffer} (sound : b.Sound) (live : b.phase ≠ .spent) (f : Failure) :
    b.phaseAfter f ≠ .spent ∧ b.phaseAfter f ≠ .broken .interrupted := by
  unfold phaseAfter
  split
  · exact ⟨live, sound.lasting⟩
  · rename_i lasting
    refine ⟨by simp, fun same => lasting ?_⟩
    exact Phase.broken.inj same

theorem demandFlowing {b : Buffer} {n m : Nat} (asked : b.demand n = some m) :
    b.filled < n ∧ b.phase = .flowing ∧ m = n - b.filled := by
  unfold demand at asked
  split at asked
  · rename_i need
    exact ⟨need.1, need.2, (Option.some.inj asked).symm⟩
  · contradiction

theorem copiedSound {b : Buffer} (sound : b.Sound) (n : Nat) :
    (b.drop (b.window.take n).length).Sound :=
  dropSound sound (by simp only [List.length_take]; omega)

theorem quietSound {b : Buffer} (sound : b.Sound) (n : Nat) : (b.deliver n none).2.Sound := by
  have copied := copiedSound sound n
  unfold deliver
  simp only
  split <;> exact copied

theorem heardSound {b : Buffer} {n m : Nat} (sound : b.Sound) (asked : b.demand n = some m)
    (answer : Answer) : (b.deliver n (some answer)).2.Sound := by
  have copied := copiedSound sound n
  have flowing := (demandFlowing asked).2.1
  have live : (b.drop (b.window.take n).length).phase ≠ .spent := by
    rw [dropPhase, flowing]
    simp
  cases answer with
  | served bytes =>
    cases bytes with
    | nil => exact turnSound copied live (by simp) (by simp)
    | cons x bytes => exact copied
  | failed f =>
    have kept := afterKept copied live f
    exact turnSound copied live kept.1 kept.2

end Buffer

theorem deliverAhead (s : Scanner) (n : Nat) (heard : Option Answer) :
    (s.deliver n heard).2.ahead = s.ahead.clear := by
  unfold Scanner.deliver
  simp only
  split <;> rfl

theorem deliverFit {s : Scanner} {n : Nat} {heard : Option Answer}
    (sound : (s.buffer.deliver n heard).2.Sound) : (s.deliver n heard).2.Fit := by
  refine ⟨by rw [(deliverBuffer s n heard).2]; exact sound, ?_⟩
  rw [deliverAhead]
  exact clearSpells _ _

theorem readFit {r : Reader} (fit : r.Fit) (n : Nat) : (r.read n).reader.Fit := by
  induction r generalizing n with
  | script s => trivial
  | scanner s below ih =>
    unfold Reader.read
    cases asked : s.buffer.demand n with
    | none => exact ⟨deliverFit (Buffer.quietSound fit.1.buffer n), fit.2⟩
    | some m => exact ⟨deliverFit (Buffer.heardSound fit.1.buffer asked _), ih fit.2 m⟩
  | remainder pending below ih =>
    cases pending with
    | nil => exact ih fit n
    | cons b pending => exact fit

theorem deliverServes (b : Buffer) (n : Nat) (heard : Option Answer) {bytes : Bytes}
    (within : ∀ more, heard = some (.served more) → (b.window.take n).length + more.length ≤ n)
    (told : (b.deliver n heard).1 = .served bytes) : bytes.length ≤ n := by
  have copied : (b.window.take n).length ≤ n := by simp only [List.length_take]; omega
  unfold Buffer.deliver at told
  simp only at told
  split at told
  · cases Answer.served.inj told
    exact copied
  · cases Answer.served.inj told
    rw [List.length_append]
    exact within _ rfl
  · split at told
    · contradiction
    · cases Answer.served.inj told
      exact copied
  · split at told
    · split at told
      · contradiction
      · cases Answer.served.inj told
        exact copied
    · cases Answer.served.inj told
      exact copied

theorem readServes {r : Reader} (sound : r.Sound) {n : Nat} {bytes : Bytes}
    (told : (r.read n).answer = .served bytes) : bytes.length ≤ n := by
  induction r generalizing n bytes with
  | script s =>
    obtain ⟨pending, chunk, tail⟩ := s
    simp only [Reader.read, Script.read] at told
    split at told
    · cases Answer.served.inj told
      exact Nat.zero_le _
    · split at told
      · split at told
        · cases Answer.served.inj told
          exact Nat.zero_le _
        · contradiction
      · contradiction
      · cases Answer.served.inj told
        simp only [Script.limit, List.length_take]
        omega
  | scanner s below ih =>
    simp only [Reader.read] at told
    cases asked : s.buffer.demand n with
    | none =>
      simp only [asked, (deliverBuffer s n none).1] at told
      exact deliverServes s.buffer n none (fun more heard => by contradiction) told
    | some m =>
      simp only [asked, (deliverBuffer s n _).1] at told
      have need := Buffer.demandFlowing asked
      have size := Buffer.windowLength sound.1
      refine deliverServes s.buffer n _ (fun more heard => ?_) told
      have few := ih sound.2 (Option.some.inj heard)
      simp only [List.length_take]
      omega
  | remainder pending below ih =>
    cases pending with
    | nil => exact ih sound told
    | cons b pending =>
      cases Answer.served.inj told
      simp only [List.length_take]
      omega

theorem unreadInterruptions (bytes : Bytes) (rest : List ScriptEvent) :
    (Script.unread bytes rest).countP ScriptEvent.interrupts =
      rest.countP ScriptEvent.interrupts := by
  cases bytes <;> simp [Script.unread, ScriptEvent.interrupts]

/- An interruption that was told either came out of those still listed or is the last thing that
is left of the stream. -/
def Reader.Wears (before : Reader) (reply : Reply) : Prop :=
  reply.reader.interruptions ≤ before.interruptions ∧
    ∀ f, reply.answer = .failed f → f.Passing →
      reply.reader.interruptions < before.interruptions ∨ before.front = .stuck

theorem scriptWears (s : Script) (n : Nat) :
    (Reader.script s).Wears ((Reader.script s).read n) := by
  obtain ⟨pending, chunk, tail⟩ := s
  unfold Reader.Wears Reader.read Script.read
  simp only
  by_cases nought : n = 0
  · simp [nought]
  rw [if_neg nought]
  cases pending with
  | nil =>
    cases tail with
    | none => simp
    | some last =>
      refine ⟨Nat.le_refl _, fun f told passing => .inr ?_⟩
      cases Answer.failed.inj told
      simp only [Reader.front, Script.front, Script.frontFrom, Option.elim_some, Front.stuck]
      rw [passing]
  | cons event rest =>
    cases event with
    | failure g =>
      simp only [Reader.interruptions, Script.interruptions, List.countP_cons]
      refine ⟨by omega, fun f told passing => .inl ?_⟩
      cases Answer.failed.inj told
      simp [ScriptEvent.interrupts, passing]
    | data bytes =>
      simp only [Reader.interruptions, Script.interruptions, List.countP_cons,
        unreadInterruptions]
      exact ⟨by omega, fun f told => by contradiction⟩

theorem heardFailure {b : Buffer} {n m : Nat} (sound : b.Sound) (asked : b.demand n = some m)
    {answer : Answer} {f : Failure} (told : (b.deliver n (some answer)).1 = .failed f) :
    answer = .failed f ∧ b.window = [] := by
  have need := Buffer.demandFlowing asked
  have size := Buffer.windowLength sound
  have whole : b.window.take n = b.window := List.take_of_length_le (by omega)
  unfold Buffer.deliver at told
  simp only [whole] at told
  cases answer with
  | served bytes => cases bytes <;> simp at told
  | failed g =>
    simp only at told
    split at told
    · rename_i empty
      exact ⟨told, List.isEmpty_iff.mp empty⟩
    · contradiction

theorem quietFailure {b : Buffer} {n : Nat} {f : Failure}
    (told : (b.deliver n none).1 = .failed f) :
    ∃ kind, b.phase = .broken kind ∧ f = .ofKind kind := by
  unfold Buffer.deliver at told
  simp only at told
  split at told
  · rename_i kind broken
    split at told
    · exact ⟨kind, broken, (Answer.failed.inj told).symm⟩
    · contradiction
  · contradiction

theorem readWears {r : Reader} (sound : r.Sound) (n : Nat) : r.Wears (r.read n) := by
  induction r generalizing n with
  | script s => exact scriptWears s n
  | scanner s below ih =>
    unfold Reader.read
    cases asked : s.buffer.demand n with
    | none =>
      refine ⟨Nat.le_refl _, fun f told passing => ?_⟩
      simp only [(deliverBuffer s n none).1] at told
      obtain ⟨kind, broken, rfl⟩ := quietFailure told
      exact absurd (broken.trans (congrArg Phase.broken passing)) sound.1.lasting
    | some m =>
      obtain ⟨less, strictly⟩ := ih sound.2 m
      refine ⟨less, fun f told passing => ?_⟩
      simp only [(deliverBuffer s n _).1] at told
      obtain ⟨heard, empty⟩ := heardFailure sound.1 asked told
      rcases strictly f heard passing with fewer | stuck
      · exact .inl fewer
      · refine .inr ?_
        rw [scannerFront, Buffer.front, (Buffer.demandFlowing asked).2.1, empty, stuck]
        rfl
  | remainder pending below ih =>
    cases pending with
    | nil => exact ih sound n
    | cons b pending => exact ⟨Nat.le_refl _, fun f told => by contradiction⟩

end Readahead
