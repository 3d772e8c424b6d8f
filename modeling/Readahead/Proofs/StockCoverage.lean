import Readahead.Proofs.StackLayers

/-! What a stock holds: in every state that a scanner over scalars comes to, the decoding of exactly
the bytes of the window that it covers. So all that is taken off a stock is there to be taken, and
no request leaves the window behind, also none that fails half way. -/
namespace Readahead

namespace Stock

variable {s : Stock} {window : Bytes}

theorem coversExactly (covers : s.Covers window) :
    Utf8.decode (window.take s.span) = ⟨s.scalars, .nothing⟩ := by
  have read := Utf8.decodeEncode (Utf8.text s.scalars)
  rw [covers.spelled, ← coversMeasured covers] at read
  exact read

theorem coversWithin (covers : s.Covers window) (n : Nat) :
    Utf8.width (s.scalars.take n) ≤ s.span := by
  have parts := coversSum covers n
  omega

end Stock

namespace Mounted

structure Holds (m : Mounted) (n : Nat) (stock : Stock) : Prop where
  ahead : m.scanner.ahead = .scalars stock
  count : n ≤ stock.count
  width : Utf8.width (stock.scalars.take n) ≤ stock.span
  within : stock.span ≤ m.scanner.buffer.filled

/-- The stock of a scanner, and what a request takes off it or out of the window once the scanner
has reached far enough. -/
structure Stocked (m : Mounted) (stock : Stock) : Prop where
  covers : stock.Covers m.scanner.window
  decoded : Utf8.decode (m.scanner.window.take stock.span) = ⟨stock.scalars, .nothing⟩
  within : stock.span ≤ m.scanner.buffer.filled
  reached : ∀ n, (m.reach n).result = .ok () → ∃ more, (m.reach n).state.Holds n more
  met : ∀ bytes, (m.meetsBytes bytes).result = true →
    bytes.length ≤ (m.meetsBytes bytes).state.scanner.buffer.filled

variable {m k : Mounted} {stock : Stock} {events : List Event}

theorem actsScalars (fit : m.Fit) (chain : Chain Act m events k)
    (grained : m.scanner.ahead = .scalars stock) : ∃ left, k.scanner.ahead = .scalars left := by
  have same := (actsSame fit chain).2
  rw [grained] at same
  cases ahead : k.scanner.ahead with
  | bytes =>
    rw [ahead] at same
    contradiction
  | scalars left => exact ⟨left, rfl⟩

theorem stockWithin (fit : m.Fit) (grained : m.scanner.ahead = .scalars stock) :
    stock.span ≤ m.scanner.buffer.filled := by
  rw [← Buffer.windowLength fit.scanner.buffer]
  exact (lookaheadFit fit grained).stock.inside

theorem reachHolds (fit : m.Fit) (grained : m.scanner.ahead = .scalars stock) {n : Nat}
    (ok : (m.reach n).result = .ok ()) : ∃ more, (m.reach n).state.Holds n more := by
  have looking : Chain (Effort False) m _ (m.reach n).state := lookingEfforts (reachChain n m)
  have further := effortsFit fit looking
  obtain ⟨more, ahead⟩ := actsScalars fit (effortsActs fit looking) grained
  have ready := reachReady fit ok
  rw [Scanner.items, ahead, Ahead.items, List.length_map] at ready
  exact ⟨more, ahead, ready, Stock.coversWithin (lookaheadFit further ahead).stock n,
    stockWithin further ahead⟩

theorem meetsBytesWithin (fit : m.Fit) {bytes : Bytes} (met : (m.meetsBytes bytes).result = true) :
    bytes.length ≤ (m.meetsBytes bytes).state.scanner.buffer.filled := by
  have efforts : m.Efforts False (m.meetsBytes bytes) := meetsBytesEfforts bytes m
  rw [← Buffer.windowLength (effortsFit fit efforts).scanner.buffer]
  exact (meetsBytesSeen met).length_le

theorem stockedFit (fit : m.Fit) (grained : m.scanner.ahead = .scalars stock) :
    m.Stocked stock := by
  have covers := (lookaheadFit fit grained).stock
  exact ⟨covers, Stock.coversExactly covers, stockWithin fit grained,
    fun n => reachHolds fit grained, fun bytes => meetsBytesWithin fit⟩

end Mounted

namespace Session

variable {m : Mounted} {stock : Stock} {top : Reader}

theorem stockSpells (reachable : Reachable top) (layer : m.reader ∈ top.layers)
    (grained : m.scanner.ahead = .scalars stock) :
    m.Stocked stock ∧
    (∀ events k, Chain Mounted.Act m events k →
      ∃ left, k.scanner.ahead = .scalars left ∧ k.Stocked left) ∧
    (∀ query, m.Efforts (query.Odd (m.serve query).result) (m.serve query)) ∧
    ∀ request, Own request → ∃ k : Mounted, (perform m.reader request).top = k.reader ∧
      Chain Mounted.Act m (doing m.reader request) k := by
  have fit := Mounted.readerFit (reachableFit (reachableLayered reachable _ layer))
  refine ⟨Mounted.stockedFit fit grained, fun events k chain => ?_,
    Mounted.serveEfforts fit, fun request => requestActs fit⟩
  obtain ⟨left, ahead⟩ := Mounted.actsScalars fit chain grained
  exact ⟨left, ahead, Mounted.stockedFit (Mounted.actsFit fit chain) ahead⟩

theorem stockSpellsDivided :
    let m : Mounted := (Mounted.look 2 ⟨.fresh .scalars 4, .script .divided⟩).state
    let top := start .bytes ⟨3⟩ m.reader
    let stock : Stock := ⟨[⟨Char.ofNat 0xE9, 2⟩], 2⟩
    Reachable top ∧ m.reader ∈ top.layers ∧ m.scanner.ahead = .scalars stock ∧ m.Stocked stock ∧
      m.scanner.window = [0xC3, 0xA9, 0xE2] ∧
      ∃ left, (m.serve (.skip 1)).state.scanner.ahead = .scalars left ∧
        (m.serve (.skip 1)).state.Stocked left ∧
        (m.serve (.skip 1)).state.scanner.window = [0xE2] := by
  intro m top stock
  have below := (Mounted.dividedLooked .scalars 2).1
  have reachable : Reachable top := reachableStart below .bytes ⟨3⟩
  have layer : m.reader ∈ top.layers := List.mem_cons_of_mem _ (Reader.topLayer _)
  have grained : m.scanner.ahead = .scalars stock := by decide +kernel
  obtain ⟨stocked, kept, -, -⟩ := stockSpells reachable layer grained
  have skipped := Mounted.serveActs (Mounted.readerFit (reachableFit below)) (.skip 1)
  obtain ⟨left, ahead, further⟩ := kept _ _ skipped
  exact ⟨reachable, layer, grained, stocked, by decide +kernel, left, ahead, further,
    by decide +kernel⟩

end Session
end Readahead
