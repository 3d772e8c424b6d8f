import Readahead.Lookahead
import Readahead.Proofs.GatherBytes
import Readahead.Utf8.Longest

/-! What a look-ahead over scalars does, step by step. The stock always spells out the front of the
window, so a pass makes it the decoding of the whole window, wherever earlier passes stopped. -/
namespace Readahead

namespace Stock

def whole (window : Bytes) : Stock := ⟨(Utf8.decode window).scalars, (Utf8.decode window).span⟩

variable {s : Stock} {window : Bytes}

theorem coversGrown {more : Bytes} (covers : s.Covers window) (grown : window <+: more) :
    s.Covers more := by
  obtain ⟨rest, rfl⟩ := grown
  have inside := covers.inside
  refine ⟨?_, covers.total, covers.widths, ?_⟩
  · rw [List.length_append]
    omega
  · rw [covers.spelled, List.take_append_of_le_length inside]

theorem coversMeasured (covers : s.Covers window) :
    s.scalars = Utf8.measured (Utf8.text s.scalars) := by
  have widths := covers.widths
  simp only [Utf8.measured, Utf8.text, List.map_map]
  conv => lhs; rw [← List.map_id s.scalars]
  refine List.map_congr_left fun x member => ?_
  simp only [id, Function.comp, ← widths x member]

theorem coversParts (covers : s.Covers window) :
    window = Utf8.encode (Utf8.text s.scalars) ++ s.uncovered window := by
  rw [covers.spelled, uncovered, List.take_append_drop]

theorem coversDecode (covers : s.Covers window) :
    Utf8.decode window = ⟨s.scalars ++ (Utf8.decode (s.uncovered window)).scalars,
      (Utf8.decode (s.uncovered window)).rest⟩ := by
  have read := Utf8.encodedAhead (Utf8.text s.scalars) (s.uncovered window)
  rw [← coversMeasured covers, ← coversParts covers] at read
  exact read

theorem extendWhole (covers : s.Covers window) :
    s.extend (Utf8.decode (s.uncovered window)) = whole window := by
  have read := coversDecode covers
  have scalars := congrArg Utf8.Decoding.scalars read
  simp only [extend, whole, Utf8.Decoding.span, scalars, Utf8.widthAppend, covers.total]

theorem coveredWhole (covers : s.Covers window) (all : s.uncovered window = []) :
    s = whole window := by
  have same := extendWhole covers
  rw [all] at same
  simpa [extend, Utf8.decode, Utf8.decodeFrom, Utf8.Decoding.span, Utf8.width] using same

theorem wholeCovers (window : Bytes) : (whole window).Covers window := by
  obtain ⟨tail, split⟩ := Utf8.decodeSplits window
  have size := congrArg List.length split.parts
  have span := Utf8.spanEncoded window
  rw [List.length_append, span] at size
  refine ⟨by simp only [whole]; omega, rfl, ?_, ?_⟩
  · intro x member
    simp only [whole] at member
    rw [split.widths, Utf8.measured] at member
    obtain ⟨c, _, rfl⟩ := List.mem_map.mp member
    rfl
  · have front : Utf8.encode (Utf8.text (Utf8.decode window).scalars) =
        (Utf8.encode (Utf8.text (Utf8.decode window).scalars) ++ tail).take
          (Utf8.decode window).span := by
      rw [← span, List.take_left]
    rwa [← split.parts] at front

end Stock

namespace Lookahead

structure Fit (l : Lookahead) : Prop where
  feed : l.feed.Fit
  stock : l.stock.Covers l.window

def fed (l : Lookahead) (f : Feed) : Lookahead := ⟨l.stock, f, l.offset⟩

inductive Step : Lookahead → List Event → Lookahead → Prop where
  | feed {l : Lookahead} {events : List Event} {f : Feed} (step : Feed.Step l.feed events f) :
      Step l events (l.fed f)
  | pass {l : Lookahead} (more : l.stock.uncovered l.window ≠ []) : Step l l.pass.trace l.pass.state
  | full {l : Lookahead} (crowded : l.feed.buffer.capacity ≤ l.feed.buffer.filled)
      (none : l.stock.count = 0) : Step l [.note .full] l

structure Extends (before after : Lookahead) : Prop where
  feed : before.feed.Extends after.feed
  offset : after.offset = before.offset

theorem extendsSame (l : Lookahead) : l.Extends l := ⟨Feed.extendsSame _, rfl⟩

theorem extendsTwice {k l m : Lookahead} (first : k.Extends l) (second : l.Extends m) :
    k.Extends m :=
  ⟨Feed.extendsTwice first.feed second.feed, second.offset.trans first.offset⟩

def scanned (l : Lookahead) : Lookahead := { l with stock := .whole l.window }

theorem passState {l : Lookahead} (covers : l.stock.Covers l.window) :
    l.pass.state = l.scanned := by
  unfold pass scanned
  simp only
  split
  · rename_i empty
    rw [← Stock.coveredWhole covers (List.isEmpty_iff.mp empty)]
    rfl
  · split <;> simp only [Run.noting, Stock.extendWhole covers]

theorem passResult {l : Lookahead} (covers : l.stock.Covers l.window) :
    l.pass.result = if (Utf8.decode l.window).rest = .invalid then
      .error (.invalid (l.offset + (Utf8.decode l.window).span)) else .ok () := by
  have read := congrArg Utf8.Decoding.rest (Stock.coversDecode covers)
  simp only at read
  rw [read]
  unfold pass
  simp only
  split
  · rename_i empty
    rw [List.isEmpty_iff.mp empty]
    rfl
  · simp only [Stock.extendWhole covers]
    split <;> rfl

theorem scannedFit {l : Lookahead} (fit : l.Fit) : l.scanned.Fit :=
  ⟨fit.feed, Stock.wholeCovers _⟩

theorem stepExtends {l m : Lookahead} {events : List Event} (fit : l.Fit)
    (step : Step l events m) : m.Fit ∧ l.Extends m := by
  cases step with
  | feed step =>
    obtain ⟨further, extended⟩ := Feed.stepExtends fit.feed step
    exact ⟨⟨further, Stock.coversGrown fit.stock extended.window⟩, extended, rfl⟩
  | pass more =>
    rw [passState fit.stock]
    exact ⟨scannedFit fit, Feed.extendsSame _, rfl⟩
  | full crowded none => exact ⟨fit, extendsSame l⟩

theorem chainFit {l m : Lookahead} {events : List Event} (chain : Chain Step l events m)
    (fit : l.Fit) : m.Fit :=
  chain.keeps Fit (fun _ _ _ fit step => (stepExtends fit step).1) fit

theorem stepOffset {l m : Lookahead} {events : List Event} (step : Step l events m) :
    m.offset = l.offset := by
  cases step with
  | feed step => rfl
  | pass more =>
    unfold pass
    simp only
    split
    · rfl
    · split <;> rfl
  | full crowded none => rfl

theorem passChain (l : Lookahead) : Chain Step l l.pass.trace l.pass.state := by
  by_cases none : l.stock.uncovered l.window = []
  · have still : l.pass = .still (.ok ()) l := by simp [pass, none]
    rw [still]
    exact .rest l
  · exact Chain.one (.pass none)

theorem settleChain {n : Nat} {l : Lookahead}
    {next : Lookahead → Run Lookahead (Except Fault Unit)}
    (later : Chain Step l.pass.state (next l.pass.state).trace (next l.pass.state).state) :
    Chain Step l (l.settle n next).trace (l.settle n next).state := by
  unfold settle
  rw [Run.andThenTrace, Run.andThenState]
  refine (passChain l).append ?_
  split
  · exact .rest _
  · split
    · exact .rest _
    · exact later

theorem overfullState (n : Nat) (l : Lookahead) : (l.overfull n).state = l := by
  unfold overfull
  split <;> rfl

theorem overfullChain (n : Nat) {l : Lookahead}
    (crowded : l.feed.buffer.capacity ≤ l.feed.buffer.filled) :
    Chain Step l (l.overfull n).trace (l.overfull n).state := by
  unfold overfull
  split
  · rename_i none
    exact Chain.one (.full crowded none)
  · exact .rest l

theorem fedChain (l : Lookahead) {f : Feed} {events : List Event}
    (chain : Chain Feed.Step l.feed events f) : Chain Step l events (l.fed f) :=
  chain.lift l.fed (fun _ => True) (fun _ _ _ _ step => ⟨trivial, .feed step⟩) trivial

theorem fillChain (n fuel : Nat) (l : Lookahead) :
    Chain Step l (fill n fuel l).trace (fill n fuel l).state := by
  induction fuel generalizing l with
  | zero => exact .rest l
  | succ fuel ih =>
    unfold fill
    split
    · exact .rest l
    refine settleChain ?_
    split
    · rename_i crowded
      exact overfullChain n (by omega)
    rw [Run.andThenTrace, Run.andThenState]
    refine (fedChain l.pass.state (Feed.gatherChain _ _)).append ?_
    split
    · exact ih _
    · exact settleChain (.rest _)

theorem gatherChain (n : Nat) (l : Lookahead) :
    Chain Step l (l.gather n).trace (l.gather n).state := by
  unfold gather
  split
  · exact .rest l
  · exact fillChain n _ l

end Lookahead
end Readahead
