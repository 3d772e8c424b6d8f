import Readahead.Proofs.ReachableStacks

/-! The items a query consumes, as the query and its answer tell: those it handed out, those a look
at each position showed before they were skipped, and those of a text or of bytes that it accepted.
Exactly their bytes leave the prospect, and its progress is moved by each of them in turn. -/
namespace Readahead

def Grain.textItems (text : Utf8.Text) : Grain → List Item
  | .bytes => (Utf8.encode text).map .byte
  | .scalars => text.map .scalar

def Grain.bytesItems (bytes : Bytes) : Grain → List Item
  | .bytes => bytes.map .byte
  | .scalars => match Utf8.text? bytes with
    | some text => text.map .scalar
    | none => bytes.map .byte

def Query.consumed (grain : Grain) (shown : Nat → List Item) : Query → Finding → List Item
  | .next, .item item => item.toList
  | .take _, .items items => items
  | .skip n, .skipped (.ok _) => shown n
  | .accept text, .truth true => grain.textItems text
  | .acceptBytes bytes, .truth true => grain.bytesItems bytes
  | _, _ => []

theorem acceptConsumed (grain : Grain) (shown : Nat → List Item) (text : Utf8.Text)
    (value : Bool) : Query.consumed grain shown (.accept text) (.truth value) =
      if value then grain.textItems text else [] := by
  cases value <;> rfl

theorem acceptBytesConsumed (grain : Grain) (shown : Nat → List Item) (bytes : Bytes)
    (value : Bool) : Query.consumed grain shown (.acceptBytes bytes) (.truth value) =
      if value then grain.bytesItems bytes else [] := by
  cases value <;> rfl

def Mounted.shownItems (m : Mounted) (n : Nat) : List Item :=
  (List.range n).flatMap fun i => (m.look (i + 1)).result.toOption.toList

def Mounted.consumed (m : Mounted) : Query → Finding → List Item :=
  Query.consumed m.scanner.ahead.grain m.shownItems

def Item.grain : Item → Grain
  | .byte _ => .bytes
  | .scalar _ => .scalars

namespace Prospect

variable {α β : Type} {p : Prospect}

def shownItems (p : Prospect) (n : Nat) : List Item :=
  (List.range n).flatMap fun i => (p.look (i + 1)).result.toOption.toList

structure Consumes (p : Prospect) (items : List Item) (t : Turn α) : Prop where
  taken : t.taken = items.flatMap Item.spelling
  progress : t.left.progress = p.progress.moveAll (items.map Item.spelling)
  grain : t.left.grain = p.grain

theorem consumesThen {first later : List Item} {t : Turn α} {next : α → Prospect → Turn β}
    (one : p.Consumes first t) (other : t.left.Consumes later (next t.result t.left)) :
    p.Consumes (first ++ later) (t.andThen next) := by
  refine ⟨?_, ?_, other.grain.trans one.grain⟩
  · exact (congr (congrArg _ one.taken) other.taken).trans List.flatMap_append.symm
  · rw [List.map_append, Progress.moveAllAppend, ← one.progress]
    exact other.progress

theorem consumesMap {items : List Item} {t : Turn α} (f : α → β) (consumes : p.Consumes items t) :
    p.Consumes items (t.map f) := ⟨consumes.taken, consumes.progress, consumes.grain⟩

theorem spendConsumes (p : Prospect) (items : List Item) :
    p.Consumes items (p.spend (items.map Item.spelling)) := ⟨rfl, rfl, rfl⟩

theorem lookConsumes (n : Nat) (p : Prospect) : p.Consumes [] (p.look n) := by
  unfold look
  split <;> exact ⟨rfl, rfl, rfl⟩

theorem nextConsumes (p : Prospect) : p.Consumes p.next.result.toList p.next := by
  unfold next
  cases p.items with
  | nil => exact ⟨rfl, rfl, rfl⟩
  | cons item later => exact consumesMap _ (spendConsumes p [item])

theorem takeConsumes (n : Nat) (p : Prospect) : p.Consumes (p.take n).result (p.take n) := by
  induction n generalizing p with
  | zero => exact ⟨rfl, rfl, rfl⟩
  | succ n ih =>
    have first := nextConsumes p
    unfold take
    simp only [Turn.andThen]
    cases got : p.next.result with
    | none =>
      rw [got] at first
      exact ⟨(List.append_nil _).trans first.taken, first.progress, first.grain⟩
    | some item =>
      rw [got] at first
      have both : p.Consumes ([item] ++ (p.next.left.take n).result)
          (p.next.andThen fun _ q => q.take n) := consumesThen first (ih p.next.left)
      exact ⟨both.taken, both.progress, both.grain⟩

theorem shownHeld {n : Nat} (held : n ≤ p.items.length) : p.shownItems n = p.items.take n := by
  induction n with
  | zero => rfl
  | succ n ih =>
    have inside : n < p.items.length := held
    have looked : (p.look (n + 1)).result = .ok p.items[n] := by
      rw [look, if_neg (Nat.succ_ne_zero n), Nat.add_sub_cancel, List.getElem?_eq_getElem inside]
      rfl
    have before : p.shownItems n = p.items.take n := ih (Nat.le_of_lt inside)
    rw [shownItems, List.range_succ, List.flatMap_append, ← shownItems, before, List.take_add_one,
      List.getElem?_eq_getElem inside]
    simp only [List.flatMap_cons, List.flatMap_nil, List.append_nil, looked]
    rfl

theorem skipConsumes (n : Nat) (p : Prospect) :
    p.Consumes (Query.consumed p.grain p.shownItems (.skip n) (.skipped (p.skip n).result))
      (p.skip n) := by
  unfold skip
  split
  · rename_i none
    rw [none]
    exact ⟨rfl, rfl, rfl⟩
  split
  · rename_i held
    have spent := spendConsumes p (p.items.take n)
    rw [← shownHeld held] at spent
    rw [units, ← shownHeld held]
    exact consumesMap _ spent
  · exact ⟨rfl, rfl, rfl⟩

theorem meetsBytesConsumes (bytes : Bytes) (p : Prospect) :
    p.Consumes [] (p.meetsBytes bytes) := by
  unfold meetsBytes
  split <;> exact ⟨rfl, rfl, rfl⟩

theorem meetsConsumes (text : Utf8.Text) (p : Prospect) : p.Consumes [] (p.meets text) := by
  unfold meets
  split
  · exact meetsBytesConsumes _ p
  · exact ⟨rfl, rfl, rfl⟩

theorem spendIfResult (units : List Bytes) (test : Turn Bool) :
    (spendIf units test).result = test.result := by
  simp only [spendIf, Turn.andThen]
  cases test.result <;> rfl

theorem spendIfConsumes {test : Turn Bool} {items : List Item} {units : List Bytes}
    (tested : p.Consumes [] test) (spelled : items.map Item.spelling = units) :
    p.Consumes (if (spendIf units test).result then items else []) (spendIf units test) := by
  have spent : test.left.Consumes (if test.result then items else [])
      (if test.result then (test.left.spend units).map fun _ => true
        else .still false test.left) := by
    rw [← spelled]
    cases test.result with
    | false => exact ⟨rfl, rfl, rfl⟩
    | true =>
      rw [if_pos rfl, if_pos rfl]
      exact consumesMap _ (spendConsumes test.left items)
  rw [spendIfResult]
  exact consumesThen tested spent

theorem bytesSpelled (bytes : Bytes) :
    (bytes.map Item.byte).map Item.spelling = bytes.map fun b => [b] := by
  rw [List.map_map]
  rfl

theorem textSpelled (text : Utf8.Text) :
    (text.map Item.scalar).map Item.spelling = text.map Utf8.spell := by
  rw [List.map_map]
  rfl

theorem acceptConsumes (text : Utf8.Text) (p : Prospect) :
    p.Consumes (if (p.accept text).result then p.grain.textItems text else []) (p.accept text) := by
  unfold accept
  split
  · rename_i grained
    rw [grained]
    exact spendIfConsumes (meetsConsumes text p) (bytesSpelled _)
  · rename_i grained
    rw [grained]
    exact spendIfConsumes (meetsConsumes text p) (textSpelled text)

theorem acceptBytesConsumes (bytes : Bytes) (p : Prospect) :
    p.Consumes (if (p.acceptBytes bytes).result then p.grain.bytesItems bytes else [])
      (p.acceptBytes bytes) := by
  unfold acceptBytes
  split
  · rename_i grained
    rw [grained]
    exact spendIfConsumes (meetsBytesConsumes bytes p) (bytesSpelled bytes)
  · rename_i grained
    rw [grained, Grain.bytesItems]
    cases told : Utf8.text? bytes with
    | some text =>
      have accepted := acceptConsumes text p
      rw [grained] at accepted
      exact accepted
    | none => exact spendIfConsumes (meetsBytesConsumes bytes p) (bytesSpelled bytes)

theorem serveConsumes (p : Prospect) (query : Query) :
    p.Consumes (query.consumed p.grain p.shownItems (p.serve query).result) (p.serve query) := by
  cases query with
  | peek => exact consumesMap (fun seen => Finding.item seen.toOption) (lookConsumes 1 p)
  | peekAt n => exact consumesMap (fun seen => Finding.item seen.toOption) (lookConsumes n p)
  | look n => exact consumesMap _ (lookConsumes n p)
  | next => exact consumesMap _ (nextConsumes p)
  | skip n => exact consumesMap _ (skipConsumes n p)
  | atEnd => exact ⟨rfl, rfl, rfl⟩
  | take n => exact consumesMap _ (takeConsumes n p)
  | meets text => exact consumesMap _ (meetsConsumes text p)
  | meetsBytes bytes => exact consumesMap _ (meetsBytesConsumes bytes p)
  | accept text =>
    have accepted := acceptConsumes text p
    rw [← acceptConsumed p.grain p.shownItems] at accepted
    exact consumesMap _ accepted
  | acceptBytes bytes =>
    have accepted := acceptBytesConsumes bytes p
    rw [← acceptBytesConsumed p.grain p.shownItems] at accepted
    exact consumesMap _ accepted
  | lineText => exact ⟨rfl, rfl, rfl⟩
  | place => exact ⟨rfl, rfl, rfl⟩

theorem byteGrained {bytes : Bytes} {item : Item} (member : item ∈ bytes.map .byte) :
    item.grain = .bytes := by
  obtain ⟨b, _, rfl⟩ := List.mem_map.mp member
  rfl

theorem scalarGrained {text : Utf8.Text} {item : Item} (member : item ∈ text.map .scalar) :
    item.grain = .scalars := by
  obtain ⟨c, _, rfl⟩ := List.mem_map.mp member
  rfl

theorem itemsGrained {item : Item} (member : item ∈ p.items) : item.grain = p.grain := by
  unfold items at member
  cases grained : p.grain with
  | bytes =>
    rw [grained] at member
    exact byteGrained member
  | scalars =>
    rw [grained] at member
    exact scalarGrained member

theorem nextGrained {item : Item} (member : item ∈ p.next.result.toList) :
    item.grain = p.grain := by
  unfold next at member
  cases ahead : p.items with
  | nil =>
    rw [ahead] at member
    contradiction
  | cons first later =>
    rw [ahead] at member
    refine itemsGrained ?_
    rw [List.mem_singleton.mp member, ahead]
    exact List.mem_cons_self

theorem takeGrained {n : Nat} {item : Item} (member : item ∈ (p.take n).result) :
    item.grain = p.grain := by
  induction n generalizing p with
  | zero => contradiction
  | succ n ih =>
    have first : item ∈ p.next.result.toList → item.grain = p.grain := nextGrained
    unfold take at member
    simp only [Turn.andThen] at member
    cases got : p.next.result with
    | none =>
      rw [got] at member
      contradiction
    | some found =>
      rw [got] at member first
      cases List.mem_cons.mp member with
      | inl same => exact first (List.mem_singleton.mpr same)
      | inr later => exact (ih later).trans (nextConsumes p).grain

theorem skipGrained {n : Nat} {item : Item}
    (member : item ∈ Query.consumed p.grain p.shownItems (.skip n) (.skipped (p.skip n).result)) :
    item.grain = p.grain := by
  unfold skip at member
  split at member
  · rename_i none
    rw [none] at member
    contradiction
  split at member
  · rename_i held
    have shown : item ∈ p.shownItems n := member
    rw [shownHeld held] at shown
    exact itemsGrained (List.mem_of_mem_take shown)
  · contradiction

theorem textGrained {grain : Grain} {text : Utf8.Text} {item : Item}
    (member : item ∈ grain.textItems text) : item.grain = grain := by
  cases grain with
  | bytes => exact byteGrained member
  | scalars => exact scalarGrained member

theorem bytesGrained {grain : Grain} {bytes : Bytes} {item : Item}
    (member : item ∈ grain.bytesItems bytes) : item.grain = grain ∨
      Utf8.text? bytes = none ∧ ∃ b ∈ bytes, item = .byte b := by
  cases grain with
  | bytes => exact .inl (byteGrained member)
  | scalars =>
    rw [Grain.bytesItems] at member
    cases told : Utf8.text? bytes with
    | some text =>
      rw [told] at member
      have inside : item ∈ Grain.scalars.textItems text := member
      exact .inl (textGrained inside)
    | none =>
      rw [told] at member
      obtain ⟨b, inside, rfl⟩ := List.mem_map.mp member
      exact .inr ⟨rfl, b, inside, rfl⟩

theorem serveGrained {query : Query} {item : Item}
    (member : item ∈ query.consumed p.grain p.shownItems (p.serve query).result) :
    item.grain = p.grain ∨ ∃ bytes, query = .acceptBytes bytes ∧ Utf8.text? bytes = none ∧
      ∃ b ∈ bytes, item = .byte b := by
  cases query with
  | next => exact .inl (nextGrained member)
  | skip n => exact .inl (skipGrained member)
  | take n => exact .inl (takeGrained member)
  | accept text =>
    have inside : item ∈ if (p.accept text).result then p.grain.textItems text else [] := by
      rw [← acceptConsumed p.grain p.shownItems]
      exact member
    split at inside
    · exact .inl (textGrained inside)
    · contradiction
  | acceptBytes bytes =>
    have inside : item ∈ if (p.acceptBytes bytes).result then p.grain.bytesItems bytes else [] := by
      rw [← acceptBytesConsumed p.grain p.shownItems]
      exact member
    split at inside
    · exact (bytesGrained inside).imp_right fun ⟨invalid, odd⟩ => ⟨bytes, rfl, invalid, odd⟩
    · contradiction
  | _ => contradiction

end Prospect

namespace Mounted

variable {m : Mounted}

theorem shownProspect (fit : m.Fit) : m.shownItems = m.prospect.shownItems := by
  funext n
  simp only [shownItems, Prospect.shownItems, (lookYields fit _).result]

theorem serveItems (fit : m.Fit) (query : Query) :
    m.prospect.Consumes (m.consumed query (m.serve query).result) (m.prospect.serve query) := by
  rw [consumed, shownProspect fit, (serveYields fit query).result]
  exact Prospect.serveConsumes m.prospect query

theorem consumedGrained (fit : m.Fit) {query : Query} {item : Item}
    (member : item ∈ m.consumed query (m.serve query).result) :
    item.grain = m.scanner.ahead.grain ∨ ∃ bytes, query = .acceptBytes bytes ∧
      Utf8.text? bytes = none ∧ ∃ b ∈ bytes, item = .byte b := by
  rw [consumed, shownProspect fit, (serveYields fit query).result] at member
  exact Prospect.serveGrained member

end Mounted
end Readahead
