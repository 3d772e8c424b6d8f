import Readahead.Proofs.GrainAgreement
import Readahead.Proofs.NothingLost

/-! What comes next, asked for as a text or as bytes. A scanner of either kind says yes exactly if
those bytes fit its buffer and what can be obtained begins with them, whatever lies decoded already
and whatever stands behind them. Asked to take them it answers the same, and a yes takes them and
no byte more. -/
namespace Readahead

namespace Prospect

theorem sightBegins (bytes : Bytes) (p : Prospect) : bytes.isPrefixOf p.sight = true ↔
    bytes = [] ∨ bytes.length ≤ p.capacity ∧ bytes <+: p.front.bytes := by
  rw [List.isPrefixOf_iff_prefix, sight, List.prefix_take_iff]
  constructor
  · rintro ⟨front, fits⟩
    exact .inr ⟨fits, front⟩
  · rintro (rfl | ⟨fits, front⟩)
    · exact ⟨List.nil_prefix, Nat.zero_le _⟩
    · exact ⟨front, fits⟩

theorem meetsBytesResult (bytes : Bytes) (p : Prospect) :
    (p.meetsBytes bytes).result = bytes.isPrefixOf p.sight := by
  unfold meetsBytes
  cases bytes <;> rfl

theorem meetsBytesSight (bytes : Bytes) (p : Prospect) :
    (p.meetsBytes bytes).left.sight = p.sight := by
  unfold meetsBytes
  split <;> rfl

theorem acceptResult (text : Utf8.Text) (p : Prospect) :
    (p.accept text).result = (p.meets text).result := by
  unfold accept
  split <;> exact spendIfResult _ _

theorem acceptBytesResult (bytes : Bytes) (p : Prospect) :
    (p.acceptBytes bytes).result = (p.meetsBytes bytes).result := by
  unfold acceptBytes
  split
  · exact spendIfResult _ _
  split
  · rename_i text told
    rw [acceptResult, meetsEncoded, Utf8.textEncodes told]
  · exact spendIfResult _ _

end Prospect

namespace Mounted

variable {m : Mounted} {front : Front} {bytes : Bytes}

/-- What a test for these bytes says, and what a taking of them then says and does, both at once
and after the test. -/
structure Grants (m : Mounted) (front : Front) (bytes : Bytes) (test : Run Mounted Bool)
    (taking : Mounted → Run Mounted Bool) : Prop where
  met : test.result = true ↔
    bytes = [] ∨ bytes.length ≤ m.scanner.capacity ∧ bytes <+: front.bytes
  same : (taking m).result = test.result
  later : (taking test.state).result = test.result
  taken : (taking m).result = true →
    (taking m).state.scanner.place.offset = m.scanner.place.offset + bytes.length ∧
      ∃ rest, (taking m).state.Obtains rest ∧ front = rest.behind bytes

theorem serveObtains (fit : m.Fit) (obtains : m.Obtains front) {query : Query} {found : Finding}
    (told : (m.serve query).result = found) :
    (m.serve query).state.scanner.place.offset =
        m.scanner.place.offset + (m.takes query found).length ∧
      ∃ rest, (m.serve query).state.Obtains rest ∧ front = rest.behind (m.takes query found) := by
  rw [← told]
  exact ⟨(movesWindow (serveMoves fit query)).2, _,
    actsObtain fit (serveActs fit query) (serveLeaves fit query) obtains⟩

theorem sightGrants {test : Run Mounted Bool} {t : Turn Bool}
    {taking : Mounted → Run Mounted Bool} (query : Query) (fit : m.Fit)
    (obtains : m.Obtains front) (tested : m.Yields test t)
    (met : t.result = bytes.isPrefixOf m.prospect.sight) (seen : t.left.sight = m.prospect.sight)
    (takes : ∀ k : Mounted, k.Fit → (taking k).result = bytes.isPrefixOf k.prospect.sight)
    (serves : m.serve query = (taking m).map .truth)
    (whole : m.takes query (.truth true) = bytes) : m.Grants front bytes test taking := by
  have answer : test.result = bytes.isPrefixOf m.prospect.sight := tested.result.trans met
  refine ⟨?_, (takes m fit).trans answer.symm, ?_, fun yes => ?_⟩
  · rw [answer, obtainsFront fit obtains]
    exact m.prospect.sightBegins bytes
  · rw [takes test.state tested.fit, tested.left, seen, answer]
  · have told : (m.serve query).result = .truth true := by rw [serves, Run.map, yes]
    have served := serveObtains fit obtains told
    rw [whole, serves] at served
    exact served

theorem bytesGrants (fit : m.Fit) (obtains : m.Obtains front) (bytes : Bytes) :
    m.Grants front bytes (m.meetsBytes bytes) (·.acceptBytes bytes) :=
  sightGrants (.acceptBytes bytes) fit obtains (meetsBytesYields fit bytes)
    (Prospect.meetsBytesResult bytes _) (Prospect.meetsBytesSight bytes _)
    (fun k fit => by
      rw [(acceptBytesYields fit bytes).result, Prospect.acceptBytesResult,
        Prospect.meetsBytesResult])
    rfl rfl

theorem textGrants (fit : m.Fit) (obtains : m.Obtains front) (text : Utf8.Text) :
    m.Grants front (Utf8.encode text) (m.meets text) (·.accept text) := by
  have tested := meetsYields fit text
  rw [Prospect.meetsEncoded] at tested
  refine sightGrants (.accept text) fit obtains tested (Prospect.meetsBytesResult _ _)
    (Prospect.meetsBytesSight _ _) (fun k fit => ?_) rfl rfl
  rw [(acceptYields fit text).result, Prospect.acceptResult, Prospect.meetsEncoded,
    Prospect.meetsBytesResult]

theorem prefixesTold (reachable : Session.Reachable m.reader) (obtains : m.Obtains front) :
    (∀ bytes, m.Grants front bytes (m.meetsBytes bytes) (·.acceptBytes bytes)) ∧
      ∀ text, m.Grants front (Utf8.encode text) (m.meets text) (·.accept text) ∧
        (m.meets text).result = (m.meetsBytes (Utf8.encode text)).result := by
  have fit := readerFit (Session.reachableFit reachable)
  refine ⟨bytesGrants fit obtains, fun text => ⟨textGrants fit obtains text, ?_⟩⟩
  rw [(meetsYields fit text).result, (meetsBytesYields fit _).result, Prospect.meetsEncoded]

theorem prefixesToldDivided :
    let m : Mounted := (Mounted.look 1 ⟨.fresh .scalars 4, .script .divided⟩).state
    let front : Front := ⟨[0xC3, 0xA9, 0xE2], .failed .brokenPipe⟩
    Session.Reachable m.reader ∧ m.Obtains front ∧
      m.Grants front [0xC3] (m.meetsBytes [0xC3]) (·.acceptBytes [0xC3]) ∧
      (m.acceptBytes [0xC3]).result = true ∧
      m.Grants front [0xC3, 0xA9] (m.meets ['é']) (·.accept ['é']) := by
  intro m front
  obtain ⟨reachable, obtains⟩ := dividedLooked .scalars 1
  obtain ⟨bytes, text⟩ := prefixesTold reachable obtains
  exact ⟨reachable, obtains, bytes [0xC3], by decide +kernel, (text ['é']).1⟩

end Mounted
end Readahead
