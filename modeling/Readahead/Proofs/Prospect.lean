import Readahead.Query
import Readahead.Proofs.LineTracking
import Readahead.Proofs.GatherScalars

/-! The prospect of a scanner: what its answers depend on, and how it answers from that alone, with
no buffer to fill and no reader to ask. Of the front only the part that fits the capacity is in
sight. Whether the storage was given up matters to a scanner over bytes alone, which then says that
nothing is left before it looks at the size of the request. -/
namespace Readahead

def Grain.items (bytes : Bytes) : Grain → List Item
  | .bytes => bytes.map .byte
  | .scalars => (Utf8.text (Utf8.decode bytes).scalars).map .scalar

def Front.drop (f : Front) (n : Nat) : Front := ⟨f.bytes.drop n, f.finish⟩

structure Prospect where
  grain : Grain
  capacity : Nat
  front : Front
  progress : Progress
  spent : Bool
  deriving DecidableEq, Repr

structure Turn (α : Type) where
  result : α
  taken : Bytes
  left : Prospect

namespace Turn

variable {α β : Type}

def still (result : α) (left : Prospect) : Turn α := ⟨result, [], left⟩

def andThen (t : Turn α) (next : α → Prospect → Turn β) : Turn β :=
  let u := next t.result t.left
  ⟨u.result, t.taken ++ u.taken, u.left⟩

def map (f : α → β) (t : Turn α) : Turn β := ⟨f t.result, t.taken, t.left⟩

end Turn

namespace Prospect

def sight (p : Prospect) : Bytes := p.front.bytes.take p.capacity

def items (p : Prospect) : List Item := p.grain.items p.sight

def refusal (n : Nat) (p : Prospect) : Fault :=
  match p.grain with
  | .bytes =>
    if p.spent then .nothingLeft
    else if p.capacity < n then .tooLarge n p.capacity
    else p.front.shortage n
  | .scalars =>
    if p.capacity < n then .tooLarge n p.capacity
    else
      let d := Utf8.decode p.sight
      p.front.refusal p.capacity p.progress.place.offset (Utf8.text d.scalars)
        (p.sight.drop d.span) n

/- After the scanner tried for `n` bytes: it gives the storage up if it found none at all. -/
def tried (n : Nat) (p : Prospect) : Prospect :=
  { p with
    spent := p.spent || decide (p.grain = .bytes ∧ n ≤ p.capacity ∧ p.front = ⟨[], .ended⟩) }

def spend (units : List Bytes) (p : Prospect) : Turn Unit :=
  ⟨(), units.flatten, { p with
    front := p.front.drop units.flatten.length
    progress := p.progress.moveAll units }⟩

def units (n : Nat) (p : Prospect) : List Bytes := (p.items.take n).map Item.spelling

def reach (n : Nat) (p : Prospect) : Turn (Except Fault Unit) :=
  .still (if n ≤ p.items.length then .ok () else .error (p.refusal n)) (p.tried n)

def look (n : Nat) (p : Prospect) : Turn (Except Fault Item) :=
  if n = 0 then .still (.error .zeroPosition) p
  else .still ((p.items[n - 1]?).elim (.error (p.refusal n)) .ok) (p.tried n)

def skip (n : Nat) (p : Prospect) : Turn (Except Fault Unit) :=
  if n = 0 then .still (.ok ()) p
  else if n ≤ p.items.length then (p.spend (p.units n)).map .ok
  else .still (.error (p.refusal n)) (p.tried n)

def next (p : Prospect) : Turn (Option Item) :=
  match p.items with
  | [] => .still none (p.tried 1)
  | item :: _ => (p.spend [item.spelling]).map fun _ => some item

def atEnd (p : Prospect) : Turn Bool := .still p.items.isEmpty (p.tried 1)

def take : Nat → Prospect → Turn (List Item)
  | 0, p => .still [] p
  | n + 1, p => p.next.andThen fun got p => match got with
    | none => .still [] p
    | some item => (take n p).map (item :: ·)

def meetsBytes (bytes : Bytes) (p : Prospect) : Turn Bool :=
  if bytes.isEmpty then .still true p
  else .still (bytes.isPrefixOf p.sight) (p.tried bytes.length)

def meets (text : Utf8.Text) (p : Prospect) : Turn Bool :=
  match p.grain with
  | .bytes => p.meetsBytes (Utf8.encode text)
  | .scalars => .still ((text.map Item.scalar).isPrefixOf p.items) p

def spendIf (units : List Bytes) (test : Turn Bool) : Turn Bool :=
  test.andThen fun passed p =>
    if passed then (p.spend units).map fun _ => true else .still false p

def accept (text : Utf8.Text) (p : Prospect) : Turn Bool :=
  match p.grain with
  | .bytes => spendIf ((Utf8.encode text).map fun b => [b]) (p.meets text)
  | .scalars => spendIf (text.map Utf8.spell) (p.meets text)

def acceptBytes (bytes : Bytes) (p : Prospect) : Turn Bool :=
  match p.grain with
  | .bytes => spendIf (bytes.map fun b => [b]) (p.meetsBytes bytes)
  | .scalars => match Utf8.text? bytes with
    | some text => p.accept text
    | none => spendIf (bytes.map fun b => [b]) (p.meetsBytes bytes)

def serve (p : Prospect) : Query → Turn Finding
  | .peek => (p.look 1).map fun seen => .item seen.toOption
  | .peekAt n => (p.look n).map fun seen => .item seen.toOption
  | .look n => (p.look n).map .looked
  | .next => p.next.map .item
  | .skip n => (p.skip n).map .skipped
  | .atEnd => p.atEnd.map .truth
  | .take n => (p.take n).map .items
  | .meets text => (p.meets text).map .truth
  | .meetsBytes bytes => (p.meetsBytes bytes).map .truth
  | .accept text => (p.accept text).map .truth
  | .acceptBytes bytes => (p.acceptBytes bytes).map .truth
  | .lineText => .still (.text (Utf8.lossy p.progress.line)) p
  | .place => .still (.place p.progress.place) p

theorem itemsWithin (p : Prospect) : p.items.length ≤ p.sight.length := by
  unfold items Grain.items
  cases p.grain with
  | bytes => exact Nat.le_of_eq (List.length_map _)
  | scalars =>
    have size := Utf8.encodeLength (Utf8.text (Utf8.decode p.sight).scalars)
    have parts := congrArg List.length (Utf8.decodeParts p.sight)
    rw [List.length_append] at parts
    rw [List.length_map]
    omega

section Grained

variable {p : Prospect} {n : Nat}

theorem byteItems (grained : p.grain = .bytes) : p.items = p.sight.map .byte := by
  rw [items, grained, Grain.items]

theorem scalarItems (grained : p.grain = .scalars) :
    p.items.length = (Utf8.text (Utf8.decode p.sight).scalars).length := by
  rw [items, grained]
  exact List.length_map _

theorem scalarRefusal (grained : p.grain = .scalars) (fits : n ≤ p.capacity) :
    p.refusal n = p.front.refusal p.capacity p.progress.place.offset
      (Utf8.text (Utf8.decode p.sight).scalars) (p.sight.drop (Utf8.decode p.sight).span) n := by
  rw [refusal, grained]
  exact if_neg (Nat.not_lt.mpr fits)

end Grained

theorem sightWithin (p : Prospect) : p.sight.length ≤ p.capacity ∧
    p.sight.length ≤ p.front.bytes.length := by
  simp only [sight, List.length_take]
  omega

theorem barrenItems {p : Prospect} (none : p.front.bytes = []) : p.items = [] := by
  have within := p.itemsWithin
  have bounded := p.sightWithin.2
  rw [none] at bounded
  exact List.length_eq_zero_iff.mp (Nat.le_zero.mp (Nat.le_trans within bounded))

theorem takeNext {p : Prospect} {item : Item} (got : p.next.result = some item) (n : Nat) :
    (p.take (n + 1)).result = item :: (p.next.left.take n).result ∧
      (p.take (n + 1)).left = (p.next.left.take n).left := by
  simp only [take, Turn.andThen, got]
  exact ⟨rfl, rfl⟩

theorem triedHeld {p : Prospect} (held : p.sight ≠ []) (n : Nat) : p.tried n = p := by
  have some : p.front ≠ ⟨[], .ended⟩ := by
    intro none
    simp [sight, none] at held
  obtain ⟨grain, capacity, front, progress, spent⟩ := p
  simp only [tried, some, and_false, decide_false, Bool.or_false]

theorem triedScalars {p : Prospect} (grained : p.grain = .scalars) (n : Nat) : p.tried n = p := by
  obtain ⟨grain, capacity, front, progress, spent⟩ := p
  simp only at grained
  subst grained
  simp [tried]

theorem itemsHeld {p : Prospect} (held : 0 < p.items.length) : p.sight ≠ [] := by
  intro none
  have within := itemsWithin p
  rw [none] at within
  exact Nat.not_lt.mpr within held

end Prospect
end Readahead
