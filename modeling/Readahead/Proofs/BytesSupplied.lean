import Readahead.Proofs.NothingLost

/-! What a request for bytes comes to, told by what can be obtained. A buffer that was given up and
one that is too small refuse it unread. Else it is granted exactly if there are so many bytes, and
the window grows by the bytes that were served. A scanner over bytes shows them by their positions,
and hands out all of them, item after item. -/
namespace Readahead

namespace Feed

variable {f : Feed}

structure Supplies (f : Feed) (n : Nat) (r : Run Feed (Except Fault Unit)) : Prop where
  spent : f.buffer.phase = .spent → r.result = .error .nothingLeft
  large : f.buffer.phase ≠ .spent → f.buffer.capacity < n →
    r.result = .error (.tooLarge n f.buffer.capacity)
  unread : f.buffer.phase = .spent ∨ f.buffer.capacity < n →
    r.trace.filterMap (Event.atDepth 0) = []
  window : r.state.buffer.window = f.buffer.window ++ handed r.trace 0
  held : r.result = .ok () → n ≤ r.state.buffer.window.length

theorem chainMoves {g : Feed} {events : List Event} (chain : Chain Step f events g)
    (fit : f.Fit) : g.buffer.window = f.buffer.window ++ handed events 0 := by
  induction chain with
  | rest f => exact (List.append_nil _).symm
  | next head tail ih =>
    rw [ih (stepExtends fit head).1, ← (stepMoves fit head).1, List.append_assoc, handedAppend]

theorem gatherSupplies (fit : f.Fit) (n : Nat) : f.Supplies n (f.gather n) := by
  have settled := gatherSettles (n := n) fit
  refine ⟨fun spent => ?_, fun live large => ?_, fun refused => ?_,
    chainMoves (gatherChain n f) fit, fun ok => ?_⟩
  · rw [gatherResult fit, if_pos spent]
  · rw [gatherResult fit, if_neg live, if_pos large]
  · unfold gather
    split
    · rfl
    rename_i live
    rw [if_pos (refused.resolve_left live)]
    rfl
  · rw [ok] at settled
    exact settlesHeld settled

end Feed

namespace Prospect

variable {p : Prospect}

theorem nextNothing (none : p.front.bytes = []) : p.next = .still .none (p.tried 1) := by
  rw [next, barrenItems none]

theorem nextByte (grained : p.grain = .bytes) (room : 0 < p.capacity) {b : UInt8} {rest : Bytes}
    (front : p.front.bytes = b :: rest) :
    p.next = (p.spend [[b]]).map fun _ => some (.byte b) := by
  obtain ⟨more, size⟩ : ∃ more, p.capacity = more + 1 := ⟨_, (Nat.sub_add_cancel room).symm⟩
  rw [next, byteItems grained, sight, front, size, List.take_succ_cons, List.map_cons]
  rfl

theorem takeBytes (grained : p.grain = .bytes) (room : 0 < p.capacity) (n : Nat) :
    (p.take n).result = (p.front.bytes.take n).map .byte ∧
      (p.take n).left.front.bytes = p.front.bytes.drop n := by
  induction n generalizing p with
  | zero => exact ⟨rfl, rfl⟩
  | succ n ih =>
    cases front : p.front.bytes with
    | nil =>
      rw [take, nextNothing front]
      exact ⟨rfl, front⟩
    | cons b rest =>
      have next := nextByte grained room front
      have left : p.next.left.front.bytes = rest := by
        rw [next]
        change p.front.bytes.drop 1 = rest
        rw [front]
        rfl
      have further := ih (p := p.next.left) (by rw [next]; exact grained) (by rw [next]; exact room)
      rw [left] at further
      have got : p.next.result = some (.byte b) := by
        rw [next]
        rfl
      obtain ⟨result, onward⟩ := takeNext got n
      rw [result, onward, further.1]
      exact ⟨rfl, further.2⟩

end Prospect

namespace Mounted

variable {m : Mounted} {front : Front}

theorem byteLook (fit : m.Fit) (grained : m.scanner.ahead = .bytes) {n : Nat} (positive : 0 < n) :
    (∀ fault, (m.feed.gather n).result = .error fault → (m.look n).result = .error fault) ∧
      ((m.feed.gather n).result = .ok () →
        ∃ b, m.front.bytes[n - 1]? = some b ∧ (m.look n).result = .ok (.byte b)) := by
  have grain : m.prospect.grain = .bytes := congrArg Ahead.grain grained
  have asked : (m.feed.gather n).result = (m.prospect.reach n).result :=
    reachBytesResult fit grained positive
  rw [asked, (lookYields fit n).result, Prospect.look, if_neg (Nat.ne_of_gt positive)]
  simp only [Prospect.reach, Turn.still, Prospect.byteItems grain, List.length_map,
    List.getElem?_map]
  constructor
  · intro fault failed
    split at failed
    · contradiction
    · rename_i short
      rw [List.getElem?_eq_none (by omega)]
      exact congrArg _ (Except.error.inj failed)
  · intro ok
    split at ok
    · rename_i within
      have inside : n - 1 < m.prospect.sight.length := by omega
      refine ⟨m.prospect.sight[n - 1], ?_, ?_⟩
      · rw [← List.getElem?_eq_getElem inside, Prospect.sight]
        exact (List.getElem?_take_of_lt (by have := m.prospect.sightWithin.1; omega)).symm
      · rw [List.getElem?_eq_getElem inside]
        rfl
    · contradiction

theorem byteTake (fit : m.Fit) (grained : m.scanner.ahead = .bytes) (n : Nat) :
    (m.take n).result = (m.front.bytes.take n).map .byte ∧
      (m.front.bytes.length ≤ n → (m.take n).state.next.result = none) := by
  have grain : m.prospect.grain = .bytes := congrArg Ahead.grain grained
  have yields := takeYields fit n
  obtain ⟨result, left⟩ := Prospect.takeBytes grain fit.scanner.buffer.positive n
  refine ⟨yields.result.trans result, fun all => ?_⟩
  rw [(nextYields yields.fit).result, yields.left, Prospect.nextNothing]
  · rfl
  · rw [left]
    exact List.drop_of_length_le all

theorem supplyTold (reachable : Session.Reachable m.reader) :
    (∀ n, m.feed.Supplies n (m.feed.gather n)) ∧
      ∀ front, m.Obtains front →
        (∀ n, m.scanner.buffer.phase ≠ .spent → n ≤ m.scanner.capacity →
          (m.feed.gather n).result =
            if n ≤ front.bytes.length then .ok () else .error (front.shortage n)) ∧
        (m.scanner.ahead = .bytes →
          (∀ n, 0 < n →
            (∀ fault, (m.feed.gather n).result = .error fault →
              (m.look n).result = .error fault) ∧
            ((m.feed.gather n).result = .ok () →
              ∃ b, front.bytes[n - 1]? = some b ∧ (m.look n).result = .ok (.byte b))) ∧
          ∀ n, (m.take n).result = (front.bytes.take n).map .byte ∧
            (front.bytes.length ≤ n → (m.take n).state.next.result = none)) := by
  have fit := readerFit (Session.reachableFit reachable)
  refine ⟨Feed.gatherSupplies (feedFit fit), fun front obtains => ?_⟩
  rw [obtainsFront fit obtains]
  refine ⟨fun n live fits => ?_,
    fun grained => ⟨fun n positive => byteLook fit grained positive, byteTake fit grained⟩⟩
  have told := (Feed.gatherResult (n := n) (feedFit fit)).trans (if_neg live)
  exact told.trans (if_neg (Nat.not_lt.mpr fits))

theorem supplyToldDivided :
    let m : Mounted := ⟨.fresh .bytes 4, .script .divided⟩
    let front : Front := ⟨[0xC3, 0xA9, 0xE2], .failed .brokenPipe⟩
    Session.Reachable m.reader ∧ m.Obtains front ∧
      (m.feed.gather 3).result = .ok () ∧
      (m.feed.gather 4).result = .error (.stream .brokenPipe) ∧
      (m.look 4).result = .error (.stream .brokenPipe) ∧
      (m.take 9).result = front.bytes.map .byte ∧ (m.take 9).state.next.result = none := by
  intro m front
  have reachable : Session.Reachable m.reader :=
    Session.reachableStart (.stream .divided) .bytes ⟨4⟩
  have obtains : m.Obtains front := ⟨_, fun _ => dividedDelivers, rfl⟩
  obtain ⟨asked, bytes⟩ := (supplyTold reachable).2 front obtains
  obtain ⟨look, take⟩ := bytes rfl
  have failed := asked 4 (by decide) (by decide)
  exact ⟨reachable, obtains, asked 3 (by decide) (by decide), failed,
    (look 4 (by decide)).1 _ failed, (take 9).1, (take 9).2 (by decide)⟩

end Mounted
end Readahead
