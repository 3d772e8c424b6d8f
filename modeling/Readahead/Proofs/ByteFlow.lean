import Readahead.Proofs.LookAheadSteps

/-! How bytes pass through a stack. Each layer hands bytes up and is handed bytes from beneath; what
it held before and was handed is what it handed up and holds after. A scanner counts in its offset
what it handed up. So it is for one read, and for everything a scanner does to look ahead. -/
namespace Readahead

def Answer.bytes : Answer → Bytes
  | .served bytes => bytes
  | .failed _ => []

def Exchange.bytes (e : Exchange) : Bytes := e.answer.bytes

def handed (events : List Event) (depth : Nat) : Bytes :=
  events.flatMap fun e => (e.atDepth depth).elim [] Exchange.bytes

/- The same beneath a scanner that pulled, and what the scanner itself handed up. -/
def hands (taken : Bytes) (events : List Event) : Nat → Bytes
  | 0 => taken
  | depth + 1 => handed events depth

inductive Reader.Moves : (Nat → Bytes) → Reader → Reader → Prop where
  | script (hand : Nat → Bytes) (s t : Script) : Moves hand (.script s) (.script t)
  | scanner {hand : Nat → Bytes} {s t : Scanner} {below left : Reader}
      (bytes : s.window ++ hand 1 = hand 0 ++ t.window)
      (offset : t.place.offset = s.place.offset + (hand 0).length)
      (beneath : Moves (fun depth => hand (depth + 1)) below left) :
      Moves hand (.scanner s below) (.scanner t left)
  | remainder {hand : Nat → Bytes} {pending rest : Bytes} {below left : Reader}
      (bytes : pending ++ hand 1 = hand 0 ++ rest)
      (beneath : Moves (fun depth => hand (depth + 1)) below left) :
      Moves hand (.remainder pending below) (.remainder rest left)

theorem handedNothing (depth : Nat) : handed [] depth = [] := rfl

theorem handedAppend (first later : List Event) (depth : Nat) :
    handed (first ++ later) depth = handed first depth ++ handed later depth := by
  simp [handed]

theorem handedNotes (notes : List Note) (depth : Nat) : handed (notes.map .note) depth = [] := by
  simp [handed, List.flatMap_map, Event.atDepth]

theorem handedPull (own : Exchange) (beneath : List Exchange) (depth : Nat) :
    handed [.pull own beneath] depth = ((own :: beneath)[depth]?).elim [] Exchange.bytes := by
  simp [handed, Event.atDepth]

namespace Reader

theorem movesStill {hand : Nat → Bytes} (none : ∀ depth, hand depth = []) (r : Reader) :
    Moves hand r r := by
  induction r generalizing hand with
  | script s => exact .script hand s s
  | scanner s below ih =>
    refine .scanner ?_ ?_ (ih fun depth => none (depth + 1))
    · rw [none 0, none 1, List.append_nil, List.nil_append]
    · rw [none 0]
      rfl
  | remainder pending below ih =>
    refine .remainder ?_ (ih fun depth => none (depth + 1))
    rw [none 0, none 1, List.append_nil, List.nil_append]

theorem movesTwice {first later : Nat → Bytes} {r s t : Reader} (one : Moves first r s)
    (other : Moves later s t) : Moves (fun depth => first depth ++ later depth) r t := by
  induction one generalizing later t with
  | script first a b =>
    cases other
    exact .script _ _ _
  | scanner bytes offset beneath ih =>
    cases other with
    | scanner bytes' offset' beneath' =>
      refine .scanner ?_ ?_ (ih beneath')
      · simp only [← List.append_assoc, bytes]
        rw [List.append_assoc, bytes', List.append_assoc]
      · rw [offset', offset, List.length_append, Nat.add_assoc]
  | remainder bytes beneath ih =>
    cases other with
    | remainder bytes' beneath' =>
      refine .remainder ?_ (ih beneath')
      simp only [← List.append_assoc, bytes]
      rw [List.append_assoc, bytes', List.append_assoc]

theorem movesSame {first later : Nat → Bytes} {r s : Reader} (moves : Moves first r s)
    (same : ∀ depth, first depth = later depth) : Moves later r s := by
  rwa [← funext same]

end Reader

namespace Buffer

theorem quietMoves (b : Buffer) (n : Nat) :
    b.window = (b.deliver n none).1.bytes ++ (b.deliver n none).2.window := by
  have parts : b.window = b.window.take n ++ (b.drop (b.window.take n).length).window := by
    have same : b.window.take (b.window.take n).length = b.window.take n := by
      simp [List.take_eq_take_iff]
    rw [dropWindow]
    conv => rhs; lhs; rw [← same]
    rw [List.take_append_drop]
  unfold deliver
  simp only
  split
  · split
    · rename_i empty
      rw [List.isEmpty_iff.mp empty.1] at parts ⊢
      exact parts
    · exact parts
  · exact parts

theorem heardMoves {b : Buffer} {n m : Nat} (sound : b.Sound) (asked : b.demand n = some m)
    (answer : Answer) : b.window ++ answer.bytes =
      (b.deliver n (some answer)).1.bytes ++ (b.deliver n (some answer)).2.window := by
  have need := demandFlowing asked
  have size := windowLength sound
  have whole : b.window.take n = b.window := List.take_of_length_le (by omega)
  have left : (b.drop b.window.length).window = [] := by rw [dropWindow, List.drop_length]
  unfold deliver
  simp only [whole]
  cases answer with
  | served bytes =>
    cases bytes with
    | nil => simp only [Answer.bytes, turnWindow, left]
    | cons x bytes => simp only [Answer.bytes, left, List.append_nil]
  | failed f =>
    simp only [turnWindow, left, List.append_nil]
    split
    · rename_i empty
      simp only [Answer.bytes, List.isEmpty_iff.mp empty, List.append_nil]
    · simp only [Answer.bytes, List.append_nil]

end Buffer

theorem deliverProgress (s : Scanner) (n : Nat) (heard : Option Answer) :
    (s.deliver n heard).2.progress =
      s.progress.pass (s.deliver n heard).1.bytes.length := by
  unfold Scanner.deliver
  simp only
  split
  · rename_i bytes served
    simp only [served, Answer.bytes]
  · rename_i f failed
    simp only [failed, Answer.bytes]
    rfl

theorem deliverOffset (s : Scanner) (n : Nat) (heard : Option Answer) :
    (s.deliver n heard).2.place.offset =
      s.place.offset + (s.deliver n heard).1.bytes.length := by
  rw [Scanner.place, deliverProgress]
  rfl

theorem readMoves {r : Reader} (sound : r.Sound) (n : Nat) :
    r.Moves (handed (r.pull n).trace) (r.read n).reader := by
  refine Reader.movesSame ?_ fun depth => (handedPull _ _ depth).symm
  induction r generalizing n with
  | script s => exact .script _ _ _
  | scanner s below ih =>
    unfold Reader.read
    cases asked : s.buffer.demand n with
    | none =>
      refine .scanner ?_ ?_ (Reader.movesStill (fun depth => rfl) below)
      · simp only [List.getElem?_cons_zero, List.getElem?_cons_succ, List.getElem?_nil,
          Option.elim_some, Option.elim_none, List.append_nil, Exchange.bytes]
        rw [(deliverBuffer s n none).1, Scanner.window, Scanner.window, (deliverBuffer s n none).2]
        exact Buffer.quietMoves s.buffer n
      · exact deliverOffset s n none
    | some m =>
      refine .scanner ?_ ?_ (ih sound.2 m)
      · simp only [List.getElem?_cons_zero, List.getElem?_cons_succ, Option.elim_some,
          Exchange.bytes]
        rw [(deliverBuffer s n _).1, Scanner.window, Scanner.window, (deliverBuffer s n _).2]
        exact Buffer.heardMoves sound.1 asked _
      · exact deliverOffset s n _
  | remainder pending below ih =>
    cases pending with
    | nil =>
      refine .remainder ?_ (ih sound n)
      simp [Reader.read]
    | cons b pending =>
      refine .remainder ?_ (Reader.movesStill (fun depth => rfl) below)
      simp [Reader.read, Exchange.bytes, Answer.bytes]

namespace Feed

theorem stepMoves {f g : Feed} {events : List Event} (fit : f.Fit) (step : Step f events g) :
    f.buffer.window ++ handed events 0 = g.buffer.window ∧
      f.below.Moves (handed events) g.below := by
  cases step with
  | shift =>
    rw [handedNothing, List.append_nil, Buffer.toFrontWindow fit.buffer]
    exact ⟨rfl, Reader.movesStill handedNothing _⟩
  | refill flowing atFront room =>
    have notes : handed f.once.trace = handed (f.below.pull f.buffer.room).trace := by
      funext depth
      simp only [once, Run.andThenTrace, Run.noting, handedAppend, handedNotes, List.append_nil]
    rw [notes, onceState]
    refine ⟨?_, readMoves (fitSound fit.below) _⟩
    simp only [Reader.pull, handedPull, List.getElem?_cons_zero, Option.elim_some, Exchange.bytes]
    cases (f.below.read f.buffer.room).answer with
    | served bytes =>
      cases bytes with
      | nil => simp [Answer.bytes, Buffer.absorb]
      | cons x bytes => exact (Buffer.appendWindow fit.buffer).symm
    | failed g => simp [Answer.bytes, Buffer.absorb]
  | giveUp past empty =>
    have size := Buffer.windowLength fit.buffer
    rw [empty] at size
    rw [List.length_eq_zero_iff.mp size]
    exact ⟨rfl, Reader.movesStill (fun depth => rfl) _⟩

end Feed

namespace Mounted

def reader (m : Mounted) : Reader := .scanner m.scanner m.below

theorem passQuiet (l : Lookahead) (depth : Nat) :
    handed l.pass.trace depth = [] ∧ l.pass.state.feed = l.feed := by
  unfold Lookahead.pass
  simp only
  split
  · exact ⟨rfl, rfl⟩
  · split <;> exact ⟨handedNotes _ _, rfl⟩

theorem stepMoves {m k : Mounted} {events : List Event} (fit : m.Fit) (step : Step m events k) :
    m.reader.Moves (hands [] events) k.reader := by
  have fed : ∀ f, Feed.Step m.feed events f → m.scanner.window ++ handed events 0 =
      f.buffer.window ∧ m.below.Moves (handed events) f.below :=
    fun f step => Feed.stepMoves (feedFit fit) step
  cases step with
  | feed step =>
    obtain ⟨window, beneath⟩ := fed _ step
    exact .scanner window rfl beneath
  | scan grained step =>
    cases step with
    | feed step =>
      obtain ⟨window, beneath⟩ := fed _ step
      exact .scanner window rfl beneath
    | pass more =>
      rename_i stock
      have quiet := passQuiet (m.lookahead stock)
      have same := (quiet 0).2
      refine .scanner ?_ rfl ?_
      · simp only [hands, (quiet 0).1, List.append_nil, List.nil_append]
        rw [withLookahead, same]
        rfl
      · rw [withLookahead, same]
        exact Reader.movesStill (fun depth => (quiet depth).1) _
    | full crowded none =>
      exact .scanner (List.append_nil _) rfl (Reader.movesStill (fun depth => rfl) _)

theorem chainMoves {m k : Mounted} {events : List Event} (chain : Chain Step m events k)
    (fit : m.Fit) : m.reader.Moves (hands [] events) k.reader := by
  induction chain with
  | rest m =>
    refine Reader.movesStill (fun depth => ?_) _
    cases depth <;> rfl
  | next head tail ih =>
    refine Reader.movesSame (Reader.movesTwice (stepMoves fit head) (ih (stepExtends fit head).1))
      fun depth => ?_
    cases depth with
    | zero => rfl
    | succ depth => exact (handedAppend _ _ depth).symm

end Mounted
end Readahead
