import Readahead.Proofs.ReachableStacks

/-! Item after item, a scanner over scalars hands out the longest text that the front begins with,
and nothing else. Four bytes of capacity are enough: no scalar is longer, and a sequence that is
open or refused shows itself within as many. -/
namespace Readahead

def Finish.closing (finish : Finish) (text : Utf8.Text) (tail : Bytes) : Fault :=
  if tail ≠ [] ∧ ¬Utf8.Opens tail then .invalid (Utf8.encode text).length
  else match finish with
    | .failed kind => .stream kind
    | .ended => if tail ≠ [] then .truncated (Utf8.encode text).length else .nothingLeft

namespace Prospect

variable {p : Prospect}

theorem sightBare {tail : Bytes} (bare : Utf8.Longest p.front.bytes [] tail) :
    Utf8.text (Utf8.decode p.sight).scalars = [] ∧ (Utf8.decode p.sight).span = 0 := by
  have parts : p.front.bytes = Utf8.encode (Utf8.text (Utf8.decode p.sight).scalars) ++
      (p.sight.drop (Utf8.decode p.sight).span ++ p.front.bytes.drop p.capacity) := by
    rw [← List.append_assoc, ← Utf8.decodeParts, sight, List.take_append_drop]
  have least : (Utf8.encode (Utf8.text (Utf8.decode p.sight).scalars)).length ≤ 0 :=
    bare.longest _ _ parts
  have size := Utf8.encodeLength (Utf8.text (Utf8.decode p.sight).scalars)
  rw [Utf8.spanEncoded] at least size
  exact ⟨List.length_eq_zero_iff.mp (by omega), by omega⟩

theorem itemsBare {tail : Bytes} (grained : p.grain = .scalars)
    (bare : Utf8.Longest p.front.bytes [] tail) : p.items = [] := by
  rw [items, grained, Grain.items, (sightBare bare).1]
  rfl

theorem itemsFirst {c : Char} {rest : Bytes} (grained : p.grain = .scalars) (room : 4 ≤ p.capacity)
    (spelled : p.front.bytes = Utf8.spell c ++ rest) :
    ∃ later, p.items = .scalar c :: later := by
  have short := (Utf8.spellShort c).2
  rw [items, grained, Grain.items, sight, spelled, List.take_append,
    List.take_of_length_le (by omega), Utf8.spelledAhead]
  exact ⟨_, rfl⟩

structure Tells (p : Prospect) (text : Utf8.Text) (tail : Bytes) (finish : Finish)
    (offset : Nat) : Prop where
  grain : p.grain = .scalars
  room : 4 ≤ p.capacity
  longest : Utf8.Longest p.front.bytes text tail
  finish : p.front.finish = finish
  offset : p.progress.place.offset = offset

variable {text : Utf8.Text} {tail : Bytes} {finish : Finish} {offset : Nat}

theorem nextBare (tells : p.Tells [] tail finish offset) : p.next = .still none p := by
  rw [next, itemsBare tells.grain tells.longest, triedScalars tells.grain]

theorem nextTells {c : Char} (tells : p.Tells (c :: text) tail finish offset) :
    p.next.result = some (.scalar c) ∧
      p.next.left.Tells text tail finish (offset + (Utf8.spell c).length) := by
  have parts := tells.longest.parts
  rw [Utf8.encodeCons, List.append_assoc] at parts
  obtain ⟨later, ahead⟩ := itemsFirst tells.grain tells.room parts
  have goes : p.next = (p.spend [Utf8.spell c]).map fun _ => some (.scalar c) := by
    rw [next, ahead]
    rfl
  have unit : [Utf8.spell c].flatten = Utf8.spell c := List.append_nil _
  rw [goes]
  refine ⟨rfl, tells.grain, tells.room, ?_, tells.finish, ?_⟩
  · change Utf8.Longest (p.front.bytes.drop [Utf8.spell c].flatten.length) text tail
    have longest := tells.longest
    rw [parts] at longest
    rw [unit, parts, List.drop_left]
    exact Utf8.longestRest longest
  · change (p.progress.moveAll [Utf8.spell c]).place.offset = _
    rw [Progress.moveAllOffset, unit, tells.offset]

theorem takeTells (tells : p.Tells text tail finish offset) (n : Nat) :
    (p.take n).result = (text.take n).map .scalar ∧
      (p.take n).left.Tells (text.drop n) tail finish
        (offset + (Utf8.encode (text.take n)).length) := by
  induction n generalizing p text offset with
  | zero => exact ⟨rfl, tells⟩
  | succ n ih =>
    cases text with
    | nil =>
      have stops : p.take (n + 1) = .still [] p := by
        rw [take, nextBare tells]
        rfl
      rw [stops]
      exact ⟨rfl, tells⟩
    | cons c text =>
      obtain ⟨got, further⟩ := nextTells tells
      obtain ⟨result, later⟩ := ih further
      obtain ⟨goes, onward⟩ := takeNext got n
      rw [goes, onward, result, List.take_succ_cons, Utf8.encodeCons, List.length_append,
        ← Nat.add_assoc]
      exact ⟨rfl, later⟩

theorem lookClosing (tells : p.Tells [] tail finish (Utf8.encode text).length) :
    (p.look 1).result = .error (finish.closing text tail) := by
  have whole : p.front.bytes = tail := tells.longest.parts
  have room := tells.room
  obtain ⟨none, span⟩ := sightBare tells.longest
  rw [look, if_neg Nat.one_ne_zero, itemsBare tells.grain tells.longest]
  simp only [refusal, tells.grain, Turn.still, List.getElem?_nil, Option.elim_none]
  rw [if_neg (by omega), none, span, List.drop_zero, Front.refusal, tells.offset, tells.finish]
  unfold Finish.closing
  -- With four bytes or more in sight the tail is shut, so that a full buffer decides nothing.
  by_cases long : p.capacity ≤ p.front.bytes.length
  · have size : p.sight.length = p.capacity := by
      rw [sight, List.length_take]
      omega
    rw [if_pos (Utf8.longShut (by omega)), if_pos (Utf8.longShut (by rw [← whole]; omega))]
    rfl
  · have same : p.sight = tail := by
      rw [sight, ← whole, List.take_of_length_le (by omega)]
    rw [same, if_neg long]
    rfl

end Prospect

namespace Mounted

theorem freshTells {settings : Settings} {below : Reader} {left : Front} {text : Utf8.Text}
    {tail : Bytes} (fit : below.Fit) (delivers : below.Delivers left)
    (room : 4 ≤ settings.granted) (longest : Utf8.Longest left.bytes text tail) :
    (Mounted.mk (.fresh .scalars settings.granted) below).prospect.Tells text tail left.finish
      0 := by
  rw [freshProspect, deliversFront fit delivers]
  exact ⟨rfl, room, longest, rfl, rfl⟩

theorem takeTranscript {settings : Settings} {below : Reader} {left : Front}
    (reachable : Session.Reachable below) (delivers : below.Delivers left)
    (room : 4 ≤ settings.granted) :
    ∃ text tail, Utf8.Longest left.bytes text tail ∧
      (∀ whole, left.bytes = Utf8.encode whole → text = whole ∧ tail = []) ∧
      ∀ n, let r := (Mounted.mk (.fresh .scalars settings.granted) below).take n
        r.result = (text.take n).map .scalar ∧
        r.state.scanner.place.offset = (Utf8.encode (text.take n)).length ∧
        (text.length ≤ n → (r.state.look 1).result = .error (left.finish.closing text tail)) := by
  have beneath := Session.reachableFit reachable
  have fit : (Mounted.mk (.fresh .scalars settings.granted) below).Fit :=
    ⟨freshFit .scalars (grantedPositive settings), beneath⟩
  have longest := Utf8.decodeLongest left.bytes
  refine ⟨_, _, longest, fun whole encoded => ?_, fun n => ?_⟩
  · refine Utf8.longestUnique longest ?_
    rw [encoded]
    exact Utf8.longestEncoded whole
  · intro r
    have yields := takeYields fit n
    have start := freshTells beneath delivers room longest
    obtain ⟨result, tells⟩ := Prospect.takeTells start n
    rw [← yields.left, Nat.zero_add] at tells
    refine ⟨yields.result.trans result, tells.offset, fun all => ?_⟩
    rw [List.drop_of_length_le all, List.take_of_length_le all] at tells
    rw [(lookYields yields.fit 1).result]
    exact Prospect.lookClosing tells

theorem takeTranscriptDivided :
    Session.Reachable (.script .divided) ∧
      (Reader.script .divided).Delivers ⟨[0xC3, 0xA9, 0xE2], .failed .brokenPipe⟩ ∧
      4 ≤ (Settings.mk 4).granted ∧
      ∃ text tail, Utf8.Longest [0xC3, 0xA9, 0xE2] text tail ∧
        (∀ whole, [0xC3, 0xA9, 0xE2] = Utf8.encode whole → text = whole ∧ tail = []) ∧
        ∀ n, let r := take n ⟨.fresh .scalars 4, .script .divided⟩
          r.result = (text.take n).map .scalar ∧
          r.state.scanner.place.offset = (Utf8.encode (text.take n)).length ∧
          (text.length ≤ n → (r.state.look 1).result =
            .error ((Finish.failed .brokenPipe).closing text tail)) :=
  have room : 4 ≤ (Settings.mk 4).granted := by decide
  ⟨.stream .divided, dividedDelivers, room, takeTranscript (.stream .divided) dividedDelivers room⟩

end Mounted
end Readahead
