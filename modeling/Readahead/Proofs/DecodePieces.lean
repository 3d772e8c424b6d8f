import Readahead.Proofs.LookForecast

/-! Where the input is cut makes no difference to what is decoded. Behind a first part a decoding
goes on from its last whole sequence, unless that part is refused, and then nothing behind it is
looked at. So passes over bytes that arrive piece by piece stock the same scalars as one pass over
all of them, and tell the same fault. -/
namespace Readahead

namespace Utf8

/-- The decoding told without the machine: the longest text the bytes begin with, scalar by scalar
with the length of its spelling, and what kind of tail stands behind it. -/
structure Decoding.Reads (d : Decoding) (bytes tail : Bytes) : Prop where
  longest : Longest bytes (text d.scalars) tail
  widths : ∀ s ∈ d.scalars, s.width = (spell s.char).length
  spelled : encode (text d.scalars) = bytes.take d.span
  nothing : d.rest = .nothing ↔ tail = []
  incomplete : d.rest = .incomplete ↔ tail ≠ [] ∧ Opens tail
  invalid : d.rest = .invalid ↔ tail ≠ [] ∧ ¬Opens tail
  short : d.rest = .incomplete → tail.length ≤ 3

theorem incompleteTells (bytes : Bytes) :
    let tail := bytes.drop (decode bytes).span
    (decode bytes).rest = .incomplete ↔ tail ≠ [] ∧ Opens tail := by
  intro tail
  obtain ⟨invalid, nothing⟩ := restTells bytes
  cases rest : (decode bytes).rest with
  | nothing => simp [tail, nothing.mp rest]
  | incomplete =>
    have some : tail ≠ [] := fun empty => by simp [nothing.mpr empty] at rest
    have opens : Opens tail :=
      Decidable.of_not_not fun shut => by simp [invalid.mpr ⟨some, shut⟩] at rest
    simp [some, opens]
  | invalid => simp [tail, invalid.mp rest]

theorem decodeReads (bytes : Bytes) :
    (decode bytes).Reads bytes (bytes.drop (decode bytes).span) := by
  have covers := Stock.wholeCovers bytes
  obtain ⟨invalid, nothing⟩ := restTells bytes
  have incomplete := incompleteTells bytes
  exact ⟨decodeLongest bytes, covers.widths, covers.spelled, nothing, incomplete, invalid,
    fun cut => opensShort (incomplete.mp cut).2⟩

theorem spanCut (first second : Bytes) :
    (decode (first ++ second)).span =
      (decode first).span + (decode (first.drop (decode first).span ++ second)).span := by
  rw [Decoding.span, decodeCut, widthAppend]
  rfl

end Utf8

namespace Lookahead

/- Bytes that arrive go behind those in the window, whether or not there is room for them. -/
def receive (l : Lookahead) (bytes : Bytes) : Lookahead :=
  l.fed ⟨l.feed.buffer.append bytes, l.feed.below⟩

def passes : List Bytes → Lookahead → Run Lookahead (Except Fault Unit)
  | [], l => l.pass
  | piece :: pieces, l => l.pass.andThen fun _ l => passes pieces (l.receive piece)

structure Receives (l : Lookahead) : Prop where
  ordered : l.feed.buffer.start ≤ l.feed.buffer.stop
  inside : l.feed.buffer.stop ≤ l.feed.buffer.storage.length
  covers : l.stock.Covers l.window

variable {l : Lookahead}

theorem fitReceives (fit : l.Fit) : l.Receives :=
  ⟨fit.feed.buffer.ordered, Buffer.stopInside fit.feed.buffer, fit.stock⟩

theorem receiveWindow (receives : l.Receives) (bytes : Bytes) :
    (l.receive bytes).window = l.window ++ bytes :=
  Buffer.appendBehind receives.ordered receives.inside

theorem receiveReceives (receives : l.Receives) (bytes : Bytes) : (l.receive bytes).Receives := by
  have ordered := receives.ordered
  refine ⟨?_, ?_, ?_⟩
  · change l.feed.buffer.start ≤ l.feed.buffer.stop + bytes.length
    omega
  · change l.feed.buffer.stop + bytes.length ≤ (l.feed.buffer.append bytes).storage.length
    have inside := receives.inside
    simp only [Buffer.append, List.length_append, List.length_take, List.length_drop]
    omega
  · rw [receiveWindow receives]
    exact Stock.coversGrown receives.covers (List.prefix_append _ _)

theorem scannedReceives (receives : l.Receives) : l.scanned.Receives :=
  ⟨receives.ordered, receives.inside, Stock.wholeCovers _⟩

def Decoded (offset : Nat) (window : Bytes) (r : Run Lookahead (Except Fault Unit)) : Prop :=
  r.state.stock = .whole window ∧ r.result = if (Utf8.decode window).rest = .invalid then
    .error (.invalid (offset + (Utf8.decode window).span)) else .ok ()

theorem passDecoded (covers : l.stock.Covers l.window) :
    Decoded l.offset l.window l.pass := by
  refine ⟨?_, passResult covers⟩
  rw [passState covers]
  rfl

theorem passesDecoded {pieces : List Bytes} (receives : l.Receives) :
    Decoded l.offset (l.window ++ pieces.flatten) (l.passes pieces) := by
  induction pieces generalizing l with
  | nil =>
    rw [List.flatten_nil, List.append_nil]
    exact passDecoded receives.covers
  | cons piece pieces ih =>
    have scanned := scannedReceives receives
    obtain ⟨stock, result⟩ := ih (receiveReceives scanned piece)
    rw [receiveWindow scanned, List.append_assoc, ← List.flatten_cons] at stock result
    refine ⟨?_, ?_⟩
    · rw [passes, Run.andThenState, passState receives.covers]
      exact stock
    · rw [passes, Run.andThenResult, passState receives.covers]
      exact result

theorem piecesDecoded :
    (∀ bytes, (Utf8.decode bytes).Reads bytes (bytes.drop (Utf8.decode bytes).span)) ∧
    (∀ l : Lookahead, l.stock = .empty → Decoded l.offset l.window l.pass) ∧
    (∀ first second,
      let d := Utf8.decode first
      let onward := Utf8.decode (first.drop d.span ++ second)
      let whole := Utf8.decode (first ++ second)
      (d.rest = .invalid → whole = d) ∧
        (d.rest ≠ .invalid → whole.scalars = d.scalars ++ onward.scalars ∧
          whole.span = d.span + onward.span ∧ whole.rest = onward.rest)) ∧
    ∀ (m : Mounted) (stock : Stock), Session.Reachable m.reader →
      m.scanner.ahead = .scalars stock → ∀ pieces : List Bytes,
        let l := m.lookahead stock
        let once := (l.receive pieces.flatten).pass
        (l.passes pieces).state.stock = once.state.stock ∧ (l.passes pieces).result = once.result ∧
          Decoded l.offset (l.window ++ pieces.flatten) once := by
  refine ⟨Utf8.decodeReads, fun l empty => ?_, fun first second => ⟨fun invalid => ?_, fun _ => ?_⟩,
    fun m stock reachable grained pieces => ?_⟩
  · refine passDecoded ?_
    rw [empty]
    exact emptyCovers l.window
  · exact Utf8.refusalStays second invalid
  · have cut := Utf8.decodeCut first second
    have scalars := congrArg Utf8.Decoding.scalars cut
    have rest := congrArg Utf8.Decoding.rest cut
    exact ⟨scalars, Utf8.spanCut first second, rest⟩
  · have fit := Mounted.lookaheadFit (Mounted.readerFit (Session.reachableFit reachable)) grained
    have receives := fitReceives fit
    have steps : Decoded _ _ ((m.lookahead stock).passes pieces) := passesDecoded receives
    have once := passDecoded (receiveReceives receives pieces.flatten).covers
    rw [receiveWindow receives] at once
    exact ⟨steps.1.trans once.1.symm, steps.2.trans once.2.symm, once⟩

theorem piecesDecodedBroken :
    let m : Mounted := ⟨.fresh .scalars 4, .script .divided⟩
    let opening : Bytes := [0xE2, 0x82]
    let broken : Bytes := [0xE2, 0x82, 0x41]
    let pieces : List Bytes := [[0xE2], [0x82], [0xAC, 0x41]]
    Session.Reachable m.reader ∧ (Utf8.decode opening).rest ≠ .invalid ∧
      (Utf8.decode (opening ++ [0xAC])).rest =
        (Utf8.decode (opening.drop (Utf8.decode opening).span ++ [0xAC])).rest ∧
      (Utf8.decode broken).rest = .invalid ∧
      Utf8.decode (broken ++ [0xAC]) = Utf8.decode broken ∧
      ((m.lookahead .empty).passes pieces).state.stock =
        ((m.lookahead .empty).receive pieces.flatten).pass.state.stock ∧
      ((m.lookahead .empty).passes pieces).state.stock.count = 2 := by
  intro m opening broken pieces
  have reachable : Session.Reachable m.reader :=
    Session.reachableStart (.stream .divided) .scalars ⟨4⟩
  have unrefused : (Utf8.decode opening).rest ≠ .invalid := by decide +kernel
  have refused : (Utf8.decode broken).rest = .invalid := by decide +kernel
  obtain ⟨-, -, cuts, arriving⟩ := piecesDecoded
  obtain ⟨-, onward⟩ := cuts opening [0xAC]
  obtain ⟨-, -, rest⟩ := onward unrefused
  obtain ⟨same, -⟩ := arriving m .empty reachable rfl pieces
  exact ⟨reachable, unrefused, rest, refused, (cuts broken [0xAC]).1 refused, same,
    by decide +kernel⟩

end Lookahead
end Readahead
