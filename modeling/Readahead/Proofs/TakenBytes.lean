import Readahead.Proofs.ConsumedItems

/-! The bytes a caller takes with an answer: those of the items that were handed out or skipped, and
those of a text or of bytes that were accepted. They are the bytes that leave the prospect. -/
namespace Readahead

namespace Mounted

def shown (n : Nat) (m : Mounted) : Bytes :=
  (List.range n).flatMap fun i => match (m.look (i + 1)).result with
    | .ok item => item.spelling
    | .error _ => []

def takes (m : Mounted) : Query → Finding → Bytes
  | .next, .item (some item) => item.spelling
  | .take _, .items items => items.flatMap Item.spelling
  | .skip n, .skipped (.ok _) => m.shown n
  | .accept text, .truth true => Utf8.encode text
  | .acceptBytes bytes, .truth true => bytes
  | _, _ => []

end Mounted

theorem textItemsSpelled (text : Utf8.Text) (grain : Grain) :
    (grain.textItems text).flatMap Item.spelling = Utf8.encode text := by
  cases grain with
  | bytes =>
    rw [Grain.textItems, List.flatMap, Prospect.bytesSpelled, unitsFlat]
  | scalars =>
    rw [Grain.textItems, List.flatMap, Prospect.textSpelled]
    rfl

theorem bytesItemsSpelled (bytes : Bytes) (grain : Grain) :
    (grain.bytesItems bytes).flatMap Item.spelling = bytes := by
  have units : (bytes.map Item.byte).flatMap Item.spelling = bytes := by
    rw [List.flatMap, Prospect.bytesSpelled, unitsFlat]
  cases grain with
  | bytes => exact units
  | scalars =>
    rw [Grain.bytesItems]
    cases told : Utf8.text? bytes with
    | some text => exact (textItemsSpelled text .scalars).trans (Utf8.textEncodes told)
    | none => exact units

namespace Mounted

variable {m : Mounted}

theorem shownSpelled (m : Mounted) (n : Nat) :
    (m.shownItems n).flatMap Item.spelling = m.shown n := by
  rw [shownItems, shown, List.flatMap_assoc]
  refine congrArg (List.flatMap · _) (funext fun i => ?_)
  cases (m.look (i + 1)).result with
  | ok item => exact List.append_nil _
  | error fault => rfl

theorem consumedSpelled (m : Mounted) (query : Query) (finding : Finding) :
    (m.consumed query finding).flatMap Item.spelling = m.takes query finding := by
  cases query with
  | next =>
    cases finding with
    | item item =>
      cases item with
      | some item => exact List.append_nil _
      | none => rfl
    | _ => rfl
  | take n => cases finding <;> rfl
  | skip n =>
    cases finding with
    | skipped verdict =>
      cases verdict with
      | ok done => exact shownSpelled m n
      | error fault => rfl
    | _ => rfl
  | accept text =>
    cases finding with
    | truth value =>
      cases value with
      | true => exact textItemsSpelled text m.scanner.ahead.grain
      | false => rfl
    | _ => rfl
  | acceptBytes bytes =>
    cases finding with
    | truth value =>
      cases value with
      | true => exact bytesItemsSpelled bytes m.scanner.ahead.grain
      | false => rfl
    | _ => rfl
  | _ => rfl

theorem takesTurn (fit : m.Fit) (query : Query) :
    m.takes query (m.serve query).result = (m.prospect.serve query).taken := by
  rw [(serveItems fit query).taken, consumedSpelled]

end Mounted

namespace Reader

theorem pullTaken (r : Reader) (n : Nat) : handed (r.pull n).trace 0 = (r.pull n).result.bytes := by
  rw [pull, handedPull]
  rfl

theorem exactlyFromTaken {fuel left : Nat} {got bytes : Bytes} {r : Reader}
    (ok : (exactlyFrom fuel left got r).result = .ok bytes) :
    bytes = got ++ handed (exactlyFrom fuel left got r).trace 0 := by
  induction fuel generalizing left got r with
  | zero => contradiction
  | succ fuel ih =>
    have first := pullTaken r left
    unfold exactlyFrom at ok ⊢
    split at ok
    · rename_i none
      rw [if_pos none]
      cases Except.ok.inj ok
      exact (List.append_nil _).symm
    rename_i more
    rw [if_neg more, Run.andThenTrace, handedAppend, first]
    rw [Run.andThenResult] at ok
    cases answer : (r.pull left).result with
    | served told =>
      rw [answer] at ok
      cases told with
      | nil => contradiction
      | cons b told =>
        have later := ih ok
        rw [List.append_assoc] at later
        exact later
    | failed f =>
      rw [answer] at ok
      simp only at ok ⊢
      split at ok
      · rename_i passing
        rw [if_pos passing]
        exact ih ok
      · contradiction

theorem drainFromTaken (n fuel : Nat) (r : Reader) :
    handed (drainFrom n fuel r).trace 0 = (drainFrom n fuel r).result.bytes := by
  induction fuel generalizing r with
  | zero => rfl
  | succ fuel ih =>
    have first := pullTaken r n
    unfold drainFrom
    rw [Run.andThenTrace, Run.andThenResult, handedAppend, first]
    cases answer : (r.pull n).result with
    | served told =>
      cases told with
      | nil => rfl
      | cons b told => exact congrArg (b :: told ++ ·) (ih _)
    | failed f =>
      simp only
      split
      · exact ih _
      · rfl

end Reader
end Readahead
