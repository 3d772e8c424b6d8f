import Readahead.Proofs.ReachableStacks

/-! What a look-ahead over scalars finds, in every state that a session can come to. The bytes that
fit the capacity are split into the longest text they begin with and a tail; these two, the length
of the front and the way it ends decide the answer for every position. -/
namespace Readahead
namespace Mounted

theorem frontTold {m : Mounted} {left : Front} (fit : m.Fit)
    (delivers : m.scanner.buffer.phase = .flowing → m.below.Delivers left) :
    m.scanner.buffer.front left = m.front := by
  unfold front Buffer.front
  cases phase : m.scanner.buffer.phase with
  | flowing => rw [deliversFront fit.below (delivers phase)]
  | ended => rfl
  | broken kind => rfl
  | spent => rfl

theorem readerFit {m : Mounted} (fit : m.reader.Fit) : m.Fit := ⟨fit.1, fit.2⟩

theorem scalarsLook {p : Prospect} (grained : p.grain = .scalars) {n : Nat} (positive : n ≠ 0) :
    (p.look n).result = if p.capacity < n then .error (.tooLarge n p.capacity)
      else ((Utf8.text (Utf8.decode p.sight).scalars)[n - 1]?).elim
        (.error (p.front.refusal p.capacity p.progress.place.offset
          (Utf8.text (Utf8.decode p.sight).scalars) (p.sight.drop (Utf8.decode p.sight).span) n))
        fun c => .ok (.scalar c) := by
  have least := Nat.le_trans p.itemsWithin p.sightWithin.1
  simp only [Prospect.look, if_neg positive, Turn.still, Prospect.refusal, grained]
  simp only [Prospect.items, grained, Grain.items, List.length_map, List.getElem?_map] at least ⊢
  split
  · rename_i large
    rw [List.getElem?_eq_none (by omega)]
    rfl
  · cases (Utf8.text (Utf8.decode p.sight).scalars)[n - 1]? <;> rfl

/- The position asked for and the capacity are checked first, then come the scalars of the text, and
only where it is too short the reasons why. -/
theorem lookForecast {m : Mounted} {stock : Stock} {left : Front}
    (reachable : Session.Reachable m.reader) (grained : m.scanner.ahead = .scalars stock)
    (delivers : m.scanner.buffer.phase = .flowing → m.below.Delivers left) :
    let front := m.scanner.buffer.front left
    let capacity := m.scanner.capacity
    ∃ text tail, Utf8.Longest (front.bytes.take capacity) text tail ∧
      ∀ n, (m.look n).result =
        if n = 0 then .error .zeroPosition
        else if capacity < n then .error (.tooLarge n capacity)
        else (text[n - 1]?).elim
          (.error (front.refusal capacity m.scanner.place.offset text tail n))
          fun c => .ok (.scalar c) := by
  intro front capacity
  have fit := readerFit (Session.reachableFit reachable)
  have same : front = m.front := frontTold fit delivers
  have grain : m.prospect.grain = .scalars := congrArg Ahead.grain grained
  refine ⟨_, _, Utf8.decodeLongest _, fun n => ?_⟩
  rw [(lookYields fit n).result, same]
  split
  · rename_i none
    rw [none]
    rfl
  · rename_i positive
    exact scalarsLook grain positive

theorem lookForecastDivided :
    Session.Reachable (Session.start .scalars ⟨4⟩ (.script .divided)) ∧
      (Reader.script .divided).Delivers ⟨[0xC3, 0xA9, 0xE2], .failed .brokenPipe⟩ ∧
      ∃ text tail, Utf8.Longest [0xC3, 0xA9, 0xE2] text tail ∧
        ∀ n, (look n ⟨.fresh .scalars 4, .script .divided⟩).result =
          if n = 0 then .error .zeroPosition
          else if 4 < n then .error (.tooLarge n 4)
          else (text[n - 1]?).elim
            (.error (Front.refusal ⟨[0xC3, 0xA9, 0xE2], .failed .brokenPipe⟩ 4 0 text tail n))
            fun c => .ok (.scalar c) :=
  have reachable := Session.reachableStart (.stream .divided) .scalars ⟨4⟩
  ⟨reachable, dividedDelivers,
    lookForecast (m := ⟨.fresh .scalars 4, .script .divided⟩) reachable rfl
      fun _ => dividedDelivers⟩

end Mounted
end Readahead
