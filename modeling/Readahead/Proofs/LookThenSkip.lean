import Readahead.Proofs.DoneForGood
import Readahead.Proofs.PrefixTests

/-! What a look ahead foretells: the item it shows is the last of those that can be skipped, and it
comes nearer by one position with each item that is consumed, however they are consumed and whatever
is looked at in between. To skip in two goes is to skip in one, but that one go has to fit the
capacity. -/
namespace Readahead

namespace Grain

variable {grain : Grain}

theorem itemAhead {item : Item} (grained : item.grain = grain) (rest : Bytes) :
    grain.items (item.spelling ++ rest) = item :: grain.items rest := by
  subst grained
  cases item with
  | byte b => rfl
  | scalar c =>
    change (Utf8.text (Utf8.decode (Utf8.spell c ++ rest)).scalars).map Item.scalar = _
    rw [Utf8.spelledAhead]
    rfl

theorem itemsAhead {ahead : List Item} (grained : ∀ item ∈ ahead, item.grain = grain)
    (rest : Bytes) :
    grain.items (ahead.flatMap Item.spelling ++ rest) = ahead ++ grain.items rest := by
  induction ahead with
  | nil => rfl
  | cons item ahead ih =>
    obtain ⟨first, others⟩ := List.forall_mem_cons.mp grained
    rw [List.flatMap_cons, List.append_assoc, itemAhead first, ih others]
    rfl

theorem itemsFurther (grain : Grain) {bytes more : Bytes} (further : bytes <+: more) :
    grain.items bytes <+: grain.items more := by
  cases grain with
  | bytes => exact further.map _
  | scalars =>
    obtain ⟨rest, rfl⟩ := further
    simp only [items, Utf8.decodeCut bytes rest, Utf8.text, List.map_append]
    exact List.prefix_append _ _

end Grain

theorem takeAppend {α : Type} (first later : List α) (n : Nat) :
    (first ++ later).take n <+: first ++ later.take n := by
  have whole : first ++ later.take n <+: first ++ later :=
    (List.prefix_append_right_inj first).mpr (List.take_prefix n later)
  refine List.prefix_of_prefix_length_le (List.take_prefix n _) whole ?_
  simp only [List.length_take, List.length_append]
  omega

theorem prefixAt {α : Type} {first whole : List α} (front : first <+: whole) {i : Nat} {x : α}
    (seen : first[i]? = some x) : whole[i]? = some x := by
  obtain ⟨inside, rfl⟩ := List.getElem?_eq_some_iff.mp seen
  exact List.prefix_iff_getElem?.mp front i inside

namespace Prospect

variable {p q : Prospect} {n : Nat} {gone : List Item}

theorem lookFound {item : Item} :
    (p.look n).result = .ok item ↔ 0 < n ∧ p.items[n - 1]? = some item := by
  unfold look
  split
  · rename_i none
    exact ⟨fun told => by contradiction, fun found => absurd none (Nat.ne_of_gt found.1)⟩
  · rename_i positive
    simp only [Turn.still, Nat.pos_of_ne_zero positive, true_and]
    cases p.items[n - 1]? with
    | none => exact ⟨fun told => by contradiction, fun found => by contradiction⟩
    | some seen =>
      exact ⟨fun told => congrArg some (Except.ok.inj told),
        fun found => congrArg Except.ok (Option.some.inj found)⟩

theorem skipGranted : (p.skip n).result = .ok () ↔ n ≤ p.items.length := by
  unfold skip
  split
  · rename_i none
    exact ⟨fun _ => by omega, fun _ => rfl⟩
  split
  · rename_i held
    exact ⟨fun _ => held, fun _ => rfl⟩
  · rename_i short
    exact ⟨fun told => by contradiction, fun held => absurd held short⟩

theorem seenItems (grained : ∀ item ∈ gone, item.grain = p.grain)
    (seen : gone.flatMap Item.spelling <+: p.sight) : gone <+: p.items := by
  obtain ⟨rest, more⟩ := seen
  rw [items, ← more, Grain.itemsAhead grained]
  exact List.prefix_append _ _

theorem itemsOnward (grain : q.grain = p.grain) (capacity : q.capacity = p.capacity)
    (grained : ∀ item ∈ gone, item.grain = p.grain)
    (front : p.front.bytes = gone.flatMap Item.spelling ++ q.front.bytes) :
    p.items <+: gone ++ q.items := by
  have sight : p.sight <+: gone.flatMap Item.spelling ++ q.sight := by
    rw [sight, sight, front, capacity]
    exact takeAppend _ _ _
  have further := p.grain.itemsFurther sight
  rw [Grain.itemsAhead grained] at further
  rw [items, items, grain]
  exact further

theorem takenGrained (n : Nat) (p : Prospect) : ∀ item ∈ p.items.take n, item.grain = p.grain :=
  fun _ member => itemsGrained (List.mem_of_mem_take member)

theorem spentFront {units : List Bytes} (within : units.flatten <+: p.front.bytes) :
    p.front.bytes = units.flatten ++ (p.spend units).left.front.bytes :=
  congrArg Front.bytes (spendLeaves within)

theorem spentOnward (n : Nat) (p : Prospect) :
    p.items <+: p.items.take n ++ (p.spend (p.units n)).left.items :=
  itemsOnward rfl rfl (takenGrained n p) (spentFront (p.unitsFront n))

theorem spendTwice (first later : List Bytes) (p : Prospect) :
    (p.spend (first ++ later)).left = ((p.spend first).left.spend later).left := by
  simp only [spend, Front.drop, List.flatten_append, List.length_append, List.drop_drop,
    Progress.moveAllAppend]

theorem takenTwice {a b : Nat} (held : a + b ≤ p.items.length) :
    p.items.take (a + b) = p.items.take a ++ (p.spend (p.units a)).left.items.take b := by
  obtain ⟨rest, more⟩ := p.spentOnward a
  have size : (p.items.take a).length = a := by
    rw [List.length_take]
    omega
  have both := congrArg (List.take (a + b)) more
  rw [List.take_append_of_le_length held] at both
  rw [both, List.take_append, size, List.take_of_length_le (by omega), Nat.add_sub_cancel_left]

theorem takenFront (a b : Nat) (p : Prospect) :
    (p.items.take a ++ (p.spend (p.units a)).left.items.take b).flatMap Item.spelling <+:
      p.front.bytes := by
  rw [List.flatMap_append, spentFront (p.unitsFront a)]
  exact (List.prefix_append_right_inj _).mpr (unitsFront _ b)

theorem skipSpent (held : n ≤ p.items.length) : (p.skip n).left = (p.spend (p.units n)).left := by
  rw [skipHeld held]
  rfl

theorem skipTwice (a b : Nat) (p : Prospect) : (p.skip (a + b)).result = .ok () ↔
    ((p.items.take a ++ (p.skip a).left.items.take b).flatMap Item.spelling).length ≤
        p.capacity ∧
      (p.skip a).result = .ok () ∧ ((p.skip a).left.skip b).result = .ok () := by
  rw [skipGranted, skipGranted, skipGranted]
  constructor
  · intro held
    have first : a ≤ p.items.length := by omega
    rw [skipSpent first]
    refine ⟨?_, first, ?_⟩
    · rw [← takenTwice held]
      exact Nat.le_trans (p.unitsSight (a + b)).length_le p.sightWithin.1
    · have more := (p.spentOnward a).length_le
      rw [List.length_append, List.length_take] at more
      omega
  · rintro ⟨fits, first, later⟩
    rw [skipSpent first] at fits later
    have grained : ∀ item ∈ p.items.take a ++ (p.spend (p.units a)).left.items.take b,
        item.grain = p.grain := fun item member =>
      (List.mem_append.mp member).elim (p.takenGrained a item)
        ((p.spend (p.units a)).left.takenGrained b item)
    have seen := List.prefix_take_iff.mpr ⟨p.takenFront a b, fits⟩
    have held := (seenItems grained seen).length_le
    rw [List.length_append, List.length_take, List.length_take] at held
    omega

theorem skipTwiceLeft {a b : Nat} (granted : (p.skip (a + b)).result = .ok ()) :
    (p.skip (a + b)).left = ((p.skip a).left.skip b).left := by
  have held := skipGranted.mp granted
  have first : a ≤ p.items.length := by omega
  have later := skipGranted.mp ((skipTwice a b p).mp granted).2.2
  rw [skipSpent held, skipSpent later, skipSpent first, ← spendTwice]
  rw [units, takenTwice held, List.map_append]
  rfl

end Prospect

namespace Mounted

variable {m : Mounted} {n : Nat}

theorem serveOnward (fit : m.Fit) {query : Query}
    (text : m.scanner.ahead.grain = .scalars → query.ByText) :
    m.prospect.items <+:
      m.consumed query (m.serve query).result ++ (m.serve query).state.prospect.items := by
  obtain ⟨capacity, grain⟩ := actsSame fit (serveActs fit query)
  refine Prospect.itemsOnward grain capacity (fun item member => ?_) ?_
  · obtain same | ⟨bytes, rfl, odd, b, -, rfl⟩ := consumedGrained fit member
    · exact same
    · cases grained : m.scanner.ahead.grain with
      | bytes => exact grained.symm
      | scalars => exact absurd odd (text grained)
  · have leaves := congrArg Front.bytes (serveLeaves fit query)
    rw [← consumedSpelled] at leaves
    exact leaves

theorem queriesOnward {queries : List Query} (fit : m.Fit)
    (text : m.scanner.ahead.grain = .scalars → ∀ query ∈ queries, query.ByText) :
    ∃ k : Mounted, Session.last m.reader (queries.map .ask) = k.reader ∧ k.Fit ∧
      m.prospect.items <+:
        items (Session.history m.reader (queries.map .ask)) ++ k.prospect.items := by
  induction queries generalizing m with
  | nil => exact ⟨m, rfl, fit, List.prefix_refl _⟩
  | cons query rest ih =>
    have acts := serveActs fit query
    have grain := (actsSame fit acts).2
    have first := serveOnward fit fun grained => text grained query List.mem_cons_self
    obtain ⟨k, final, further, later⟩ := ih (actsFit fit acts) fun grained other member =>
      text (grain.symm.trans grained) other (List.mem_cons_of_mem _ member)
    refine ⟨k, final, further, ?_⟩
    have gone : items (Session.history m.reader ((query :: rest).map .ask)) =
        m.consumed query (m.serve query).result ++
          items (Session.history (m.serve query).state.reader (rest.map .ask)) := by
      rw [List.map_cons, Session.history, itemsAppend]
      exact congrArg (· ++ _) (itemsAll _)
    rw [gone, List.append_assoc]
    exact first.trans ((List.prefix_append_right_inj _).mpr later)

/-- These are the next items: each is shown at its position, all are skipped in one go, and they
are shown at positions so much nearer when some of them have been consumed. -/
structure Foretells (m : Mounted) (n : Nat) (units : List Item) : Prop where
  size : units.length = n
  shown : ∀ i item, units[i]? = some item → (m.look (i + 1)).result = .ok item
  granted : (m.skip n).result = .ok ()
  taken : m.scanner.window ++ handed (m.skip n).trace 0 =
    units.flatMap Item.spelling ++ (m.skip n).state.scanner.window
  counted : (m.skip n).state.scanner.place.offset =
    m.scanner.place.offset + (units.flatMap Item.spelling).length
  nearer : ∀ queries : List Query,
    (m.scanner.ahead.grain = .scalars → ∀ query ∈ queries, query.ByText) →
    let gone := items (Session.history m.reader (queries.map .ask))
    ∃ k : Mounted, Session.last m.reader (queries.map .ask) = k.reader ∧
      ∀ i item, units[gone.length + i]? = some item → (k.look (i + 1)).result = .ok item

theorem itemShown (fit : m.Fit) {i : Nat} {item : Item}
    (seen : m.prospect.items[i]? = some item) : (m.look (i + 1)).result = .ok item := by
  rw [(lookYields fit _).result, Prospect.lookFound]
  exact ⟨Nat.succ_pos i, seen⟩

theorem shownTaken (fit : m.Fit) (held : n ≤ m.prospect.items.length) :
    m.shown n = (m.prospect.items.take n).flatMap Item.spelling := by
  rw [← shownSpelled, shownProspect fit, Prospect.shownHeld held]

theorem heldForetells (fit : m.Fit) (held : n ≤ m.prospect.items.length) :
    m.Foretells n (m.prospect.items.take n) := by
  have granted : (m.skip n).result = .ok () :=
    (skipYields fit n).result.trans (Prospect.skipGranted.mpr held)
  have moves := serveMoves fit (.skip n)
  have takes : m.takes (.skip n) (m.serve (.skip n)).result = m.shown n := by
    change m.takes (.skip n) (.skipped (m.skip n).result) = _
    rw [granted]
    rfl
  rw [takes, shownTaken fit held] at moves
  obtain ⟨window, offset⟩ := movesWindow moves
  refine ⟨?_, fun i item seen => ?_, granted, window, offset, fun queries text => ?_⟩
  · rw [List.length_take]
    omega
  · exact itemShown fit (prefixAt (List.take_prefix n _) seen)
  · obtain ⟨k, final, further, later⟩ := queriesOnward fit text
    refine ⟨k, final, fun i item seen => itemShown further ?_⟩
    have ahead := prefixAt later (prefixAt (List.take_prefix n _) seen)
    rwa [List.getElem?_append_right (Nat.le_add_right _ i), Nat.add_sub_cancel_left] at ahead

theorem foundForetells (fit : m.Fit) {item : Item} (told : (m.look n).result = .ok item) :
    ∃ units, units.getLast? = some item ∧ m.Foretells n units := by
  rw [(lookYields fit n).result, Prospect.lookFound] at told
  obtain ⟨positive, seen⟩ := told
  have inside := (List.getElem?_eq_some_iff.mp seen).1
  refine ⟨_, ?_, heldForetells fit (by omega)⟩
  have size : (m.prospect.items.take n).length = n := by
    rw [List.length_take]
    omega
  rw [List.getLast?_eq_getElem?, size, List.getElem?_take_of_lt (by omega)]
  exact seen

/-- What it takes to skip in one go as far as in two, and what becomes of the scanner then. -/
structure Parts (m : Mounted) (a b : Nat) : Prop where
  granted : (m.skip (a + b)).result = .ok () ↔
    (m.shown a ++ (m.skip a).state.shown b).length ≤ m.scanner.capacity ∧
      (m.skip a).result = .ok () ∧ ((m.skip a).state.skip b).result = .ok ()
  progress : (m.skip (a + b)).result = .ok () → (m.skip (a + b)).state.scanner.progress =
    ((m.skip a).state.skip b).state.scanner.progress
  obtains : (m.skip (a + b)).result = .ok () → ∀ front, m.Obtains front → ∃ rest,
    front = rest.behind (m.shown a ++ (m.skip a).state.shown b) ∧
      (m.skip (a + b)).state.Obtains rest ∧ ((m.skip a).state.skip b).state.Obtains rest

theorem skipObtains {front : Front} (fit : m.Fit) (obtains : m.Obtains front)
    (granted : (m.skip n).result = .ok ()) :
    (m.skip n).state.Obtains (m.skip n).state.front ∧
      front = (m.skip n).state.front.behind (m.shown n) := by
  have told : (m.serve (.skip n)).result = .skipped (.ok ()) := congrArg Finding.skipped granted
  obtain ⟨-, rest, later, parts⟩ := serveObtains fit obtains told
  obtain rfl := obtainsFront (skipYields fit n).fit later
  exact ⟨later, parts⟩

theorem skipParts (fit : m.Fit) (a b : Nat) : m.Parts a b := by
  have both := skipYields fit (a + b)
  have first := skipYields fit a
  have second := skipYields first.fit b
  have twice := Prospect.skipTwice a b m.prospect
  rw [← both.result, ← first.left, ← first.result, ← second.result] at twice
  have same : (m.skip (a + b)).result = .ok () →
      (m.skip (a + b)).state.prospect = ((m.skip a).state.skip b).state.prospect := by
    intro granted
    rw [both.left, second.left, first.left]
    exact Prospect.skipTwiceLeft (both.result.symm.trans granted)
  refine ⟨twice.trans (and_congr_left fun granted => ?_),
    fun granted => congrArg Prospect.progress (same granted), fun granted front obtains => ?_⟩
  · obtain ⟨one, other⟩ := granted
    rw [first.result, Prospect.skipGranted] at one
    rw [second.result, Prospect.skipGranted] at other
    rw [shownTaken fit one, shownTaken first.fit other, List.flatMap_append]
    exact Iff.rfl
  · obtain ⟨-, one, other⟩ := twice.mp granted
    obtain ⟨between, parts⟩ := skipObtains fit obtains one
    obtain ⟨later, rest⟩ := skipObtains first.fit between other
    have front : (m.skip (a + b)).state.front = ((m.skip a).state.skip b).state.front :=
      congrArg Prospect.front (same granted)
    refine ⟨_, ?_, ?_, later⟩
    · rw [parts, rest, behindTwice]
    · rw [← front]
      exact (skipObtains fit obtains granted).1

theorem lookForetells (reachable : Session.Reachable m.reader) :
    (∀ n item, (m.look n).result = .ok item →
      ∃ units, units.getLast? = some item ∧ m.Foretells n units) ∧
    ∀ a b, m.Parts a b := by
  have fit := readerFit (Session.reachableFit reachable)
  exact ⟨fun n item told => foundForetells fit told, skipParts fit⟩

def mixed : Reader :=
  .script ⟨[.data [0x61, 0xC3], .failure (.ofKind .interrupted), .data [0xA9, 0x0A, 0x62]], none,
    none⟩

theorem lookForetellsMixed :
    let m : Mounted := ⟨.fresh .scalars 4, mixed⟩
    Session.Reachable m.reader ∧ (m.look 3).result = .ok (.scalar '\n') ∧
      (∃ units, units.getLast? = some (.scalar '\n') ∧ m.Foretells 3 units) ∧
      m.Parts 1 2 ∧ (m.skip 3).result = .ok () ∧
      m.Parts 2 2 ∧ (m.skip 4).result = .error (.tooLarge 4 4) ∧
        (m.skip 2).result = .ok () ∧ ((m.skip 2).state.skip 2).result = .ok () := by
  intro m
  have reachable : Session.Reachable m.reader := Session.reachableStart (.stream _) .scalars ⟨4⟩
  have told : (m.look 3).result = .ok (.scalar '\n') := by decide +kernel
  obtain ⟨found, parts⟩ := lookForetells reachable
  exact ⟨reachable, told, found 3 _ told, parts 1 2, by decide +kernel, parts 2 2,
    by decide +kernel, by decide +kernel, by decide +kernel⟩

end Mounted
end Readahead
