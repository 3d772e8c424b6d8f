import Readahead.Proofs.ReachYields

/-! Each query answered: to look, to consume and to test come down to reaching far enough and then
spending items that lie ready. -/
namespace Readahead

namespace Prospect

variable {p : Prospect}

theorem skipHeld {n : Nat} (held : n ≤ p.items.length) :
    p.skip n = (p.spend (p.units n)).map .ok := by
  unfold skip
  split
  · rename_i none
    rw [none]
    rfl
  · rfl

theorem unitsFirst {item : Item} {later : List Item} (ahead : p.items = item :: later) :
    p.units 1 = [item.spelling] := by
  rw [units, ahead]
  rfl

theorem skipTurns {n : Nat} (positive : n ≠ 0) (p : Prospect) :
    p.skip n = (p.reach n).andThen fun verdict p => match verdict with
      | .error fault => .still (.error fault) p
      | .ok _ => (p.spend (p.units n)).map .ok := by
  unfold skip reach
  rw [if_neg positive]
  split
  · rename_i held
    rw [triedHeld (itemsHeld (by omega))]
    rfl
  · rfl

theorem nextTurns (p : Prospect) : p.next = (p.look 1).andThen fun seen p => match seen with
    | .error _ => .still none p
    | .ok item => (p.skip 1).map fun verdict => verdict.toOption.map fun _ => item := by
  unfold next look
  rw [if_neg Nat.one_ne_zero]
  cases ahead : p.items with
  | nil => rfl
  | cons item later =>
    have held : 1 ≤ p.items.length := by rw [ahead]; exact Nat.succ_le_succ (Nat.zero_le _)
    have same := triedHeld (itemsHeld held) 1
    simp only [Nat.sub_self, List.getElem?_cons_zero, Option.elim_some, Turn.still, Turn.andThen,
      same, skipHeld held, unitsFirst ahead]
    rfl

theorem atEndTurns (p : Prospect) : p.atEnd = (p.look 1).map fun seen => !seen.isOk := by
  unfold atEnd look
  rw [if_neg Nat.one_ne_zero]
  cases p.items <;> rfl

theorem meetsBytesHeld {bytes : Bytes} (meets : (p.meetsBytes bytes).result = true) :
    bytes <+: p.sight ∧ (p.meetsBytes bytes).left = p := by
  unfold meetsBytes at meets ⊢
  cases bytes with
  | nil => exact ⟨List.nil_prefix, rfl⟩
  | cons b bytes =>
    have seen : (b :: bytes) <+: p.sight := List.isPrefixOf_iff_prefix.mp meets
    refine ⟨seen, triedHeld (fun none => ?_) _⟩
    rw [none] at seen
    exact absurd (List.prefix_nil.mp seen) (List.cons_ne_nil _ _)

theorem bytesUnits (grained : p.grain = .bytes) {bytes : Bytes} (seen : bytes <+: p.sight) :
    bytes.length ≤ p.items.length ∧ p.units bytes.length = bytes.map fun b => [b] := by
  rw [units, items, grained, Grain.items, List.length_map, ← List.map_take,
    ← List.prefix_iff_eq_take.mp seen, List.map_map]
  exact ⟨seen.length_le, rfl⟩

theorem textUnits {text : Utf8.Text} (seen : text.map Item.scalar <+: p.items) :
    text.length ≤ p.items.length ∧ p.units text.length = text.map Utf8.spell := by
  have size : (text.map Item.scalar).length = text.length := List.length_map _
  have taken := List.prefix_iff_eq_take.mp seen
  rw [size] at taken
  rw [units, ← taken, List.map_map]
  exact ⟨by rw [← size]; exact seen.length_le, rfl⟩

end Prospect

theorem prefixTold {α : Type} [BEq α] [LawfulBEq α] {ok : Bool} {asked seen whole : List α}
    (more : seen <+: whole) (held : ok = true → asked.length ≤ seen.length)
    (short : ok = false → whole.length < asked.length) :
    (ok && asked.isPrefixOf seen) = asked.isPrefixOf whole := by
  rw [Bool.eq_iff_iff, Bool.and_eq_true, List.isPrefixOf_iff_prefix, List.isPrefixOf_iff_prefix]
  constructor
  · rintro ⟨_, front⟩
    exact front.trans more
  · intro front
    cases verdict : ok with
    | false => exact absurd front.length_le (Nat.not_le.mpr (short verdict))
    | true => exact ⟨rfl, List.prefix_of_prefix_length_le front more (held verdict)⟩

namespace Mounted

variable {m : Mounted}

theorem spendYields (fit : m.Fit) {t : Scanner} {units : List Bytes}
    (spends : m.scanner.Spends t units) :
    m.Yields (.still () ⟨t, m.below⟩) (m.prospect.spend units) := by
  have steady : m.reader.Steady → (Mounted.mk t m.below).reader.Steady := by
    rintro ⟨agrees, beneath⟩
    rw [← spends.phase] at agrees
    exact ⟨agrees, beneath⟩
  refine ⟨⟨spends.fit, fit.below⟩, rfl, ?_, Scanner.spendsMoves spends m.below, steady⟩
  have window : m.scanner.buffer.window = units.flatten ++ t.buffer.window := spends.window
  have front : t.buffer.front m.below.front =
      (m.scanner.buffer.front m.below.front).drop units.flatten.length := by
    unfold Buffer.front Front.drop
    rw [spends.phase]
    cases m.scanner.buffer.phase <;> simp [window, Front.behind]
  simp only [prospect, Prospect.spend, Run.still, Mounted.front, front, spends.capacity,
    spends.progress, spends.phase, spends.grain]

theorem lookYields (fit : m.Fit) (n : Nat) : m.Yields (m.look n) (m.prospect.look n) := by
  unfold look Prospect.look
  split
  · exact yieldsStill fit rfl _
  rename_i positive
  have reached := reachYields fit (Nat.pos_of_ne_zero positive)
  refine yieldsTold reached ?_
  have result := reached.result
  simp only [Prospect.reach, Turn.still] at result
  split at result
  · rename_i held
    have seen := itemsSight reached.fit
    have same : (m.reach n).state.prospect.items = m.prospect.items := by rw [reached.left]; rfl
    have ready := reachReady fit result
    rw [same] at seen
    obtain ⟨rest, more⟩ := seen
    rw [result, ← more, List.getElem?_append_left (by omega), List.getElem?_eq_getElem (by omega)]
    rfl
  · rename_i short
    have beyond : m.prospect.items[n - 1]? = none := List.getElem?_eq_none (by omega)
    rw [result, beyond]
    rfl

theorem skipYields (fit : m.Fit) (n : Nat) : m.Yields (m.skip n) (m.prospect.skip n) := by
  unfold skip
  split
  · rename_i none
    rw [none]
    exact yieldsStill fit rfl _
  rename_i positive
  have reached := reachYields fit (Nat.pos_of_ne_zero positive)
  rw [Prospect.skipTurns positive]
  refine yieldsThen reached ?_
  cases verdict : (m.prospect.reach n).result with
  | error fault => exact yieldsStill reached.fit reached.left _
  | ok _ =>
    have ready := reachReady fit (reached.result.trans verdict)
    have units : (m.reach n).state.scanner.units n = (m.prospect.reach n).left.units n := by
      obtain ⟨rest, more⟩ := itemsSight reached.fit
      rw [← reached.left, Prospect.units, ← more, List.take_append_of_le_length ready]
      rfl
    have spent := spendYields reached.fit (Scanner.consumeSpends reached.fit.scanner ready)
    rw [units, reached.left] at spent
    exact yieldsMap (fun _ => Except.ok ()) spent

theorem nextYields (fit : m.Fit) : m.Yields m.next m.prospect.next := by
  have looked := lookYields fit 1
  rw [Prospect.nextTurns]
  refine yieldsThen looked ?_
  cases (m.prospect.look 1).result with
  | error fault => exact yieldsStill looked.fit looked.left _
  | ok item =>
    have skipped := skipYields looked.fit 1
    rw [looked.left] at skipped
    exact yieldsMap _ skipped

theorem atEndYields (fit : m.Fit) : m.Yields m.atEnd m.prospect.atEnd := by
  rw [Prospect.atEndTurns]
  exact yieldsMap _ (lookYields fit 1)

theorem takeYields (fit : m.Fit) (n : Nat) : m.Yields (m.take n) (m.prospect.take n) := by
  induction n generalizing m with
  | zero => exact yieldsStill fit rfl _
  | succ n ih =>
    have first := nextYields fit
    refine yieldsThen first ?_
    cases m.prospect.next.result with
    | none => exact yieldsStill first.fit first.left _
    | some item =>
      have later := ih first.fit
      rw [first.left] at later
      exact yieldsMap _ later

theorem meetsBytesYields (fit : m.Fit) (bytes : Bytes) :
    m.Yields (m.meetsBytes bytes) (m.prospect.meetsBytes bytes) := by
  unfold meetsBytes Prospect.meetsBytes
  split
  · exact yieldsStill fit rfl _
  rename_i some
  have positive : 0 < bytes.length := List.length_pos_iff.mpr fun none => some (by rw [none]; rfl)
  have reached := reachBytesYields fit positive
  have sees := reachBytesSees fit positive
  refine yieldsTold reached (prefixTold ?_ ?_ ?_)
  · have seen := windowSight reached.fit
    rw [reached.left] at seen
    exact seen
  · intro ok
    cases result : (m.reachBytes bytes.length).result with
    | ok _ => exact reachBytesHeld fit result
    | error fault => rw [result] at ok; contradiction
  · intro failed
    refine Nat.lt_of_not_le fun within => ?_
    rw [sees.mpr within] at failed
    contradiction

theorem meetsBytesSeen {bytes : Bytes} (met : (m.meetsBytes bytes).result = true) :
    bytes <+: (m.meetsBytes bytes).state.scanner.window := by
  unfold meetsBytes at met ⊢
  split
  · rename_i empty
    rw [List.isEmpty_iff.mp empty]
    exact List.nil_prefix
  · rename_i some
    rw [if_neg some] at met
    exact List.isPrefixOf_iff_prefix.mp (Bool.and_eq_true _ _ ▸ met).2

theorem meetsYields (fit : m.Fit) (text : Utf8.Text) :
    m.Yields (m.meets text) (m.prospect.meets text) := by
  unfold meets Prospect.meets
  have same : m.prospect.grain = m.scanner.ahead.grain := rfl
  rw [same]
  cases grain : m.scanner.ahead.grain with
  | bytes => exact meetsBytesYields fit _
  | scalars =>
    simp only
    split
    · rename_i empty
      rw [List.isEmpty_iff.mp empty]
      exact yieldsStill fit rfl _
    rename_i some
    have size : (text.map Item.scalar).length = text.length := List.length_map _
    have positive : 0 < text.length := List.length_pos_iff.mpr fun none => some (by rw [none]; rfl)
    have reached := reachYields fit positive
    have same := Prospect.triedScalars (p := m.prospect) grain text.length
    suffices told : m.Yields _ (.still ((text.map Item.scalar).isPrefixOf m.prospect.items)
        (m.prospect.tried text.length)) by
      rwa [same] at told
    have result := reached.result
    simp only [Prospect.reach, Turn.still] at result
    refine yieldsTold reached (prefixTold ?_ ?_ ?_)
    · have seen := itemsSight reached.fit
      rw [reached.left] at seen
      exact seen
    · intro ok
      rw [size]
      split at result
      · exact reachReady fit result
      · rw [result] at ok
        contradiction
    · intro failed
      rw [size]
      split at result
      · rw [result] at failed
        contradiction
      · omega

theorem spendIfYields {n : Nat} {test : Run Mounted Bool} {t : Turn Bool} {units : List Bytes}
    (tested : m.Yields test t)
    (enough : t.result = true → n ≤ t.left.items.length ∧ t.left.units n = units) :
    m.Yields (skipIf n test) (Prospect.spendIf units t) := by
  refine yieldsThen tested ?_
  cases passed : t.result with
  | false => exact yieldsStill tested.fit tested.left _
  | true =>
    obtain ⟨held, same⟩ := enough passed
    have skipped := skipYields tested.fit n
    rw [tested.left, Prospect.skipHeld held, same] at skipped
    exact yieldsMap Except.isOk skipped

theorem bytesEnough (grained : m.scanner.ahead.grain = .bytes) {bytes : Bytes}
    (met : (m.prospect.meetsBytes bytes).result = true) :
    bytes.length ≤ (m.prospect.meetsBytes bytes).left.items.length ∧
      (m.prospect.meetsBytes bytes).left.units bytes.length = bytes.map fun b => [b] := by
  obtain ⟨seen, left⟩ := Prospect.meetsBytesHeld met
  rw [left]
  exact Prospect.bytesUnits grained seen

theorem acceptYields (fit : m.Fit) (text : Utf8.Text) :
    m.Yields (m.accept text) (m.prospect.accept text) := by
  have met := meetsYields fit text
  unfold accept Prospect.accept
  have same : m.prospect.grain = m.scanner.ahead.grain := rfl
  rw [same]
  cases grain : m.scanner.ahead.grain with
  | bytes =>
    have grained : m.prospect.grain = .bytes := grain
    have same : m.prospect.meets text = m.prospect.meetsBytes (Utf8.encode text) := by
      rw [Prospect.meets, grained]
    refine spendIfYields met fun passed => ?_
    rw [same] at passed ⊢
    exact bytesEnough grain passed
  | scalars =>
    have grained : m.prospect.grain = .scalars := grain
    have same : m.prospect.meets text =
        .still ((text.map Item.scalar).isPrefixOf m.prospect.items) m.prospect := by
      rw [Prospect.meets, grained]
    refine spendIfYields met fun passed => ?_
    rw [same] at passed ⊢
    exact Prospect.textUnits (List.isPrefixOf_iff_prefix.mp passed)

theorem acceptBytesYields (fit : m.Fit) (bytes : Bytes) :
    m.Yields (m.acceptBytes bytes) (m.prospect.acceptBytes bytes) := by
  have met := meetsBytesYields fit bytes
  unfold acceptBytes Prospect.acceptBytes
  have same : m.prospect.grain = m.scanner.ahead.grain := rfl
  rw [same]
  cases grain : m.scanner.ahead.grain with
  | bytes => exact spendIfYields met (bytesEnough grain)
  | scalars =>
    cases Utf8.text? bytes with
    | some text => exact acceptYields fit text
    | none =>
      refine yieldsThen met ?_
      cases passed : (m.prospect.meetsBytes bytes).result with
      | false => exact yieldsStill met.fit met.left _
      | true =>
        have seen := meetsBytesSeen (met.result.trans passed)
        have spent := spendYields met.fit (Scanner.consumeBytesSpends met.fit.scanner seen)
        rw [met.left] at spent
        exact yieldsMap (fun _ => true) spent

theorem serveYields (fit : m.Fit) (query : Query) :
    m.Yields (m.serve query) (m.prospect.serve query) := by
  cases query with
  | peek => exact yieldsMap (fun seen => Finding.item seen.toOption) (lookYields fit 1)
  | peekAt n => exact yieldsMap (fun seen => Finding.item seen.toOption) (lookYields fit n)
  | look n => exact yieldsMap _ (lookYields fit n)
  | next => exact yieldsMap _ (nextYields fit)
  | skip n => exact yieldsMap _ (skipYields fit n)
  | atEnd => exact yieldsMap _ (atEndYields fit)
  | take n => exact yieldsMap _ (takeYields fit n)
  | meets text => exact yieldsMap _ (meetsYields fit text)
  | meetsBytes bytes => exact yieldsMap _ (meetsBytesYields fit bytes)
  | accept text => exact yieldsMap _ (acceptYields fit text)
  | acceptBytes bytes => exact yieldsMap _ (acceptBytesYields fit bytes)
  | lineText => exact yieldsStill fit rfl _
  | place => exact yieldsStill fit rfl _

end Mounted
end Readahead
